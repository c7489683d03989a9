import LeastSquares.Ascending
import LeastSquares.Cost.Corrector
import LeastSquares.Cost.Defect
import LeastSquares.Cost.Evaluation
import LeastSquares.Cost.Function
import LeastSquares.Cost.Gallery
import LeastSquares.Cost.Loss
import LeastSquares.Cost.Manifold
import LeastSquares.Decimal.Binary
import LeastSquares.Decimal.Digits
import LeastSquares.Decimal.Text
import LeastSquares.Error.Kind
import LeastSquares.Evaluator
import LeastSquares.Fault
import LeastSquares.Field.Basic
import LeastSquares.Field.Options
import LeastSquares.Field.Summary
import LeastSquares.Linear.BlockMatrix
import LeastSquares.Linear.CellWalk
import LeastSquares.Linear.Cholesky
import LeastSquares.Linear.FactorLayout
import LeastSquares.Linear.Householder
import LeastSquares.Linear.Mat
import LeastSquares.Linear.MinimumDegree
import LeastSquares.Linear.PanelLayout
import LeastSquares.Linear.Relabelling
import LeastSquares.Linear.Vec
import LeastSquares.LinearSolver.ConjugateGradients
import LeastSquares.LinearSolver.Direct
import LeastSquares.LinearSolver.EliminationWalk
import LeastSquares.LinearSolver.Error
import LeastSquares.LinearSolver.Kind
import LeastSquares.LinearSolver.Schur
import LeastSquares.LinearSolver.Solver
import LeastSquares.LinearSolver.Sparse
import LeastSquares.Minimizer.Callbacks
import LeastSquares.Minimizer.CoordinateDescent
import LeastSquares.Minimizer.Dogleg
import LeastSquares.Minimizer.Lbfgs
import LeastSquares.Minimizer.LevenbergMarquardt
import LeastSquares.Minimizer.LineSearch
import LeastSquares.Minimizer.Options
import LeastSquares.Minimizer.Record
import LeastSquares.Minimizer.StepAcceptance
import LeastSquares.Minimizer.Strategy
import LeastSquares.Minimizer.Summary
import LeastSquares.Minimizer.Termination
import LeastSquares.Minimizer.TrustRegion
import LeastSquares.Minimizer.World
import LeastSquares.Named
import LeastSquares.Problem.Basic
import LeastSquares.Problem.Edit
import LeastSquares.Problem.EliminationOrder
import LeastSquares.Problem.Error
import LeastSquares.Problem.Graph
import LeastSquares.Problem.Handle
import LeastSquares.Problem.Program
import LeastSquares.Proofs.Abreast
import LeastSquares.Proofs.Answers
import LeastSquares.Proofs.Armijo
import LeastSquares.Proofs.Arrangement
import LeastSquares.Proofs.Ascending
import LeastSquares.Proofs.AssembledBlocks
import LeastSquares.Proofs.Attempt
import LeastSquares.Proofs.BlockDescent
import LeastSquares.Proofs.BlockMatrix
import LeastSquares.Proofs.Blocks
import LeastSquares.Proofs.Bookkeeping
import LeastSquares.Proofs.Buckets
import LeastSquares.Proofs.CellWalk
import LeastSquares.Proofs.Cholesky
import LeastSquares.Proofs.Climbs
import LeastSquares.Proofs.Coherent
import LeastSquares.Proofs.Complement
import LeastSquares.Proofs.Completion
import LeastSquares.Proofs.Conjugacy
import LeastSquares.Proofs.ConjugateGradients
import LeastSquares.Proofs.Contributions
import LeastSquares.Proofs.CoordinateDescent
import LeastSquares.Proofs.CorrectionRun
import LeastSquares.Proofs.Corrections
import LeastSquares.Proofs.Corrector
import LeastSquares.Proofs.Cost
import LeastSquares.Proofs.Course
import LeastSquares.Proofs.DenseForm
import LeastSquares.Proofs.Descent
import LeastSquares.Proofs.Differences
import LeastSquares.Proofs.DoglegDescent
import LeastSquares.Proofs.DoglegLengths
import LeastSquares.Proofs.DoglegReuse
import LeastSquares.Proofs.Edits
import LeastSquares.Proofs.Effects
import LeastSquares.Proofs.Elimination
import LeastSquares.Proofs.EliminationOrder
import LeastSquares.Proofs.EliminationVectors
import LeastSquares.Proofs.EliminationWalk
import LeastSquares.Proofs.EvaluationLayout
import LeastSquares.Proofs.EvaluationModes
import LeastSquares.Proofs.Evaluator
import LeastSquares.Proofs.Exploration
import LeastSquares.Proofs.Factorizations
import LeastSquares.Proofs.Gradient
import LeastSquares.Proofs.GradientCheck
import LeastSquares.Proofs.GradientReports
import LeastSquares.Proofs.Graph
import LeastSquares.Proofs.GroupSizes
import LeastSquares.Proofs.History
import LeastSquares.Proofs.IndependentSets
import LeastSquares.Proofs.InnerOrder
import LeastSquares.Proofs.IterativeSolvers
import LeastSquares.Proofs.Jacobian
import LeastSquares.Proofs.LevenbergMarquardt
import LeastSquares.Proofs.LineSearch
import LeastSquares.Proofs.LinearSolvers
import LeastSquares.Proofs.Loop
import LeastSquares.Proofs.Losses
import LeastSquares.Proofs.Manifold
import LeastSquares.Proofs.Matrices
import LeastSquares.Proofs.Measured
import LeastSquares.Proofs.Minimizer
import LeastSquares.Proofs.Moves
import LeastSquares.Proofs.NormalEquations
import LeastSquares.Proofs.Objective
import LeastSquares.Proofs.Operation
import LeastSquares.Proofs.OptionBounds
import LeastSquares.Proofs.OrderChecks
import LeastSquares.Proofs.Peeling
import LeastSquares.Proofs.Placement
import LeastSquares.Proofs.Posed
import LeastSquares.Proofs.Probing
import LeastSquares.Proofs.Problem
import LeastSquares.Proofs.Products
import LeastSquares.Proofs.Program
import LeastSquares.Proofs.Proposals
import LeastSquares.Proofs.Quadratic
import LeastSquares.Proofs.QuasiNewton
import LeastSquares.Proofs.Radii
import LeastSquares.Proofs.Reach
import LeastSquares.Proofs.Reachable
import LeastSquares.Proofs.Real
import LeastSquares.Proofs.ReducedForms
import LeastSquares.Proofs.ReducedOperator
import LeastSquares.Proofs.ReducedSystem
import LeastSquares.Proofs.Reduction
import LeastSquares.Proofs.ReflectionSolver
import LeastSquares.Proofs.Reflections
import LeastSquares.Proofs.Removal
import LeastSquares.Proofs.Reports
import LeastSquares.Proofs.ResidualOrder
import LeastSquares.Proofs.Restriction
import LeastSquares.Proofs.RobustCurvature
import LeastSquares.Proofs.RobustGradient
import LeastSquares.Proofs.Rotation
import LeastSquares.Proofs.RowOrder
import LeastSquares.Proofs.RunCompletion
import LeastSquares.Proofs.SchurComplement
import LeastSquares.Proofs.SchurRows
import LeastSquares.Proofs.SchurSolver
import LeastSquares.Proofs.Slices
import LeastSquares.Proofs.SolutionSizes
import LeastSquares.Proofs.SolveCompletion
import LeastSquares.Proofs.SolveCosts
import LeastSquares.Proofs.SolveFrame
import LeastSquares.Proofs.SolveManifolds
import LeastSquares.Proofs.SparseFactors
import LeastSquares.Proofs.SparsityReuse
import LeastSquares.Proofs.Stacked
import LeastSquares.Proofs.StateLayout
import LeastSquares.Proofs.StepAcceptance
import LeastSquares.Proofs.Sweep
import LeastSquares.Proofs.SystemSizes
import LeastSquares.Proofs.TangentGradient
import LeastSquares.Proofs.Traversal
import LeastSquares.Proofs.TrustRegion
import LeastSquares.Proofs.TwoLoops
import LeastSquares.Proofs.Updates
import LeastSquares.Scalar
import LeastSquares.Solve.Assembly
import LeastSquares.Solve.Buckets
import LeastSquares.Solve.Error
import LeastSquares.Solve.Options
import LeastSquares.Solve.Reduction
import LeastSquares.Solve.ResidualOrder
import LeastSquares.Solve.Solver
import LeastSquares.Solve.Summary
import LeastSquares.Total
