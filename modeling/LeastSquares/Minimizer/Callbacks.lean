import LeastSquares.Minimizer.World

/-!
# Callbacks

Every record of a minimizer goes through a pipeline of stages before the
minimizer goes on: accepted states are written into the problem, the record
is shown as progress, it is written to the log, and then users' callbacks
see it with the state. A stage is present only if it was asked for. The
first stage that does not want to continue ends the pipeline, and with it
the minimization.

Progress is shown to people and nothing can read it back, so that stage
leaves the world as it is.

## Main definitions

* `Callback` — a user's callback.
* `Pipeline` — the stages.
* `Pipeline.run` — what the stages make of a record.
-/

namespace LeastSquares

/-- What a callback wants of the minimizer. -/
inductive Decision where
  | continue
  /-- Stop and keep the values that the problem has. -/
  | abort
  /-- Stop and take the values over. -/
  | succeed
deriving DecidableEq, Repr, Inhabited

namespace Decision

/-- All decisions. -/
def all : List Decision := [.continue, abort, succeed]

/-- The name by which a decision is asked for. -/
def name : Decision → String
  | .continue => "continue"
  | abort => "abort"
  | succeed => "success"

instance : Named Decision := ⟨all, name⟩

end Decision

/-- A user's callback. It shares its state with the users' cost functions. -/
abbrev Callback (α σ : Type) [Scalar α] := IterationRecord α → Vec α → σ → Decision × σ

/-- A stage of a pipeline. -/
inductive Stage (α σ : Type) [Scalar α] where
  /-- Writes the state of a successful iteration into the problem. -/
  | updateState (program : Program)
  | showProgress (kind : MinimizerKind)
  /-- Writes the record to the log, as a table for this kind of minimizer. -/
  | writeLog (kind : MinimizerKind)
  | user (callback : Callback α σ)

/-- The stages that a record goes through. -/
structure Pipeline (α σ : Type) [Scalar α] where
  update : Option Program := none
  progress : Option MinimizerKind := none
  log : Option MinimizerKind := none
  user : List (Callback α σ) := []

namespace Stage

variable {α σ : Type} [Scalar α] [ScalarText α]

/-- What a stage does with a record and the state it belongs to. A state that
the problem cannot take ends the minimization. -/
def run (stage : Stage α σ) (record : IterationRecord α) (x : Vec α) : Run α σ Decision :=
  match stage with
  | .updateState program => fun w =>
      if record.successful then
        match program.scatter x w.problem with
        | .ok problem => .ok .continue { w with problem }
        | .error _ => .ok .abort w
      else .ok .continue w
  | .showProgress _ => pure .continue
  | .writeLog kind => fun w =>
      .ok .continue { w with log := w.log.map fun lines => lines ++ record.lines kind }
  | .user callback => fun w =>
      let (decision, after) := callback record x w.tally.user
      .ok decision { w with tally := { w.tally with user := after } }

/-- What a list of stages does, up to the first one that does not
continue. -/
def runAll (record : IterationRecord α) (x : Vec α) : List (Stage α σ) → Run α σ Decision
  | [] => pure .continue
  | stage :: rest => do
      match ← stage.run record x with
      | .continue => runAll record x rest
      | decision => pure decision

end Stage

namespace Pipeline

variable {α σ : Type} [Scalar α]

/-- The stages in order. -/
def stages (p : Pipeline α σ) : List (Stage α σ) :=
  p.update.toList.map Stage.updateState ++ p.progress.toList.map Stage.showProgress ++
    p.log.toList.map Stage.writeLog ++ p.user.map Stage.user

/-- Number of stages. -/
def size (p : Pipeline α σ) : Nat := p.stages.length

/-- Whether there are no stages. -/
def isEmpty (p : Pipeline α σ) : Bool := p.size == 0

/-- What the stages make of a record and the state it belongs to. -/
def run [ScalarText α] (p : Pipeline α σ) (record : IterationRecord α) (x : Vec α) :
    Run α σ Decision :=
  Stage.runAll record x p.stages

end Pipeline

end LeastSquares
