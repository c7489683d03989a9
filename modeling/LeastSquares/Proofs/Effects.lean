import LeastSquares.Minimizer.World

/-!
# Computations with effects

A computation of this library runs in a state and ends early at a fault. Two
kinds of statements are made about it. `Returns` says what holds of value and
state if the computation returns, and `Succeeds` says that it returns and
what holds then. Both follow the computation step by step: a sequence of two
steps satisfies a condition if the first one leads to where the second one
does.

## Main definitions

* `Returns`, `Succeeds` — conditions on value and state after a computation.

## Main results

* `returns_bind`, `succeeds_bind` — computations one after the other.
* `returns_run_bind`, `succeeds_run_bind` — the same if the first one can
  fail in words.
-/

namespace LeastSquares

variable {ε δ S β γ : Type}

/-- If the computation returns, value and state after it satisfy a
condition. -/
def Returns (x : EStateM ε S β) (s : S) (Q : β → S → Prop) : Prop :=
  ∀ b t, x s = .ok b t → Q b t

/-- The computation returns, and value and state after it satisfy a
condition. -/
def Succeeds (x : EStateM ε S β) (s : S) (Q : β → S → Prop) : Prop :=
  ∃ b t, x s = .ok b t ∧ Q b t

theorem Returns.mono {x : EStateM ε S β} {s : S} {P Q : β → S → Prop}
    (h : Returns x s P) (hPQ : ∀ b t, P b t → Q b t) : Returns x s Q :=
  fun b t hx => hPQ b t (h b t hx)

theorem Succeeds.mono {x : EStateM ε S β} {s : S} {P Q : β → S → Prop}
    (h : Succeeds x s P) (hPQ : ∀ b t, P b t → Q b t) : Succeeds x s Q := by
  obtain ⟨b, t, hx, hP⟩ := h
  exact ⟨b, t, hx, hPQ b t hP⟩

theorem Succeeds.returns {x : EStateM ε S β} {s : S} {Q : β → S → Prop}
    (h : Succeeds x s Q) : Returns x s Q := by
  intro b t hx
  obtain ⟨c, u, hc, hQ⟩ := h
  rw [hx] at hc
  cases hc
  exact hQ

theorem Succeeds.and {x : EStateM ε S β} {s : S} {P Q : β → S → Prop} (h : Succeeds x s P)
    (hQ : Returns x s Q) : Succeeds x s fun b t => P b t ∧ Q b t := by
  obtain ⟨b, t, hx, hP⟩ := h
  exact ⟨b, t, hx, hP, hQ b t hx⟩

/-- A computation returns if a test of value and state after it, which is
false if it does not, is true. -/
theorem exists_of_test {x : EStateM ε S β} {s : S} (test : β → S → Bool)
    (h : (match x s with
      | .ok b t => test b t
      | .error _ _ => false) = true) : ∃ b t, x s = .ok b t ∧ test b t = true := by
  split at h
  · rename_i b t hx
    exact ⟨b, t, hx, h⟩
  · cases h

/-! ## Single steps -/

@[simp] theorem returns_pure {b : β} {s : S} {Q : β → S → Prop} :
    Returns (pure b : EStateM ε S β) s Q ↔ Q b s := by
  constructor
  · intro h
    exact h b s rfl
  · intro h b' t hx
    cases hx
    exact h

theorem eStateM_bind_apply (x : EStateM ε S β) (f : β → EStateM ε S γ) (s : S) :
    (x >>= f) s = match x s with
      | .ok b t => f b t
      | .error e t => .error e t := rfl

@[simp] theorem returns_bind {x : EStateM ε S β} {f : β → EStateM ε S γ} {s : S}
    {Q : γ → S → Prop} :
    Returns (x >>= f) s Q ↔ Returns x s fun b t => Returns (f b) t Q := by
  constructor
  · intro h b t hx c u hf
    refine h c u ?_
    rw [eStateM_bind_apply, hx]
    exact hf
  · intro h c u hxf
    rw [eStateM_bind_apply] at hxf
    cases hx : x s with
    | ok b t =>
        rw [hx] at hxf
        exact h b t hx c u hxf
    | error e t =>
        rw [hx] at hxf
        cases hxf

@[simp] theorem returns_map {x : EStateM ε S β} {f : β → γ} {s : S} {Q : γ → S → Prop} :
    Returns (f <$> x) s Q ↔ Returns x s fun b t => Q (f b) t := by
  rw [show f <$> x = x >>= fun b => pure (f b) from rfl, returns_bind]
  simp only [returns_pure]

@[simp] theorem returns_throw {e : ε} {s : S} {Q : β → S → Prop} :
    Returns (throw e : EStateM ε S β) s Q := by
  intro b t hx
  cases hx

@[simp] theorem returns_get {s : S} {Q : S → S → Prop} :
    Returns (get : EStateM ε S S) s Q ↔ Q s s := by
  constructor
  · intro h
    exact h s s rfl
  · intro h b t hx
    cases hx
    exact h

@[simp] theorem returns_modify {f : S → S} {s : S} {Q : PUnit → S → Prop} :
    Returns (modify f : EStateM ε S PUnit) s Q ↔ Q ⟨⟩ (f s) := by
  constructor
  · intro h
    exact h ⟨⟩ (f s) rfl
  · intro h b t hx
    cases hx
    exact h

@[simp] theorem succeeds_pure {b : β} {s : S} {Q : β → S → Prop} :
    Succeeds (pure b : EStateM ε S β) s Q ↔ Q b s := by
  constructor
  · rintro ⟨b', t, hx, h⟩
    cases hx
    exact h
  · exact fun h => ⟨b, s, rfl, h⟩

@[simp] theorem succeeds_bind {x : EStateM ε S β} {f : β → EStateM ε S γ} {s : S}
    {Q : γ → S → Prop} :
    Succeeds (x >>= f) s Q ↔ Succeeds x s fun b t => Succeeds (f b) t Q := by
  constructor
  · rintro ⟨c, u, hxf, hQ⟩
    rw [eStateM_bind_apply] at hxf
    cases hx : x s with
    | ok b t =>
        rw [hx] at hxf
        exact ⟨b, t, hx, c, u, hxf, hQ⟩
    | error e t =>
        rw [hx] at hxf
        cases hxf
  · rintro ⟨b, t, hx, c, u, hf, hQ⟩
    refine ⟨c, u, ?_, hQ⟩
    rw [eStateM_bind_apply, hx]
    exact hf

@[simp] theorem succeeds_map {x : EStateM ε S β} {f : β → γ} {s : S} {Q : γ → S → Prop} :
    Succeeds (f <$> x) s Q ↔ Succeeds x s fun b t => Q (f b) t := by
  rw [show f <$> x = x >>= fun b => pure (f b) from rfl, succeeds_bind]
  simp only [succeeds_pure]

/-! ## Computations that can fail in words -/

@[simp] theorem returns_run_pure {b : β} {s : S} {Q : Except δ β → S → Prop} :
    Returns (pure b : ExceptT δ (EStateM ε S) β).run s Q ↔ Q (.ok b) s :=
  returns_pure

@[simp] theorem returns_run_throw {e : δ} {s : S} {Q : Except δ β → S → Prop} :
    Returns (throw e : ExceptT δ (EStateM ε S) β).run s Q ↔ Q (.error e) s :=
  returns_pure

@[simp] theorem returns_run_mk {x : EStateM ε S (Except δ β)} {s : S}
    {Q : Except δ β → S → Prop} : Returns (ExceptT.mk x).run s Q ↔ Returns x s Q := Iff.rfl

@[simp] theorem returns_run_lift {x : EStateM ε S β} {s : S} {Q : Except δ β → S → Prop} :
    Returns (ExceptT.lift x : ExceptT δ (EStateM ε S) β).run s Q ↔
      Returns x s fun b t => Q (.ok b) t :=
  returns_map

theorem returns_run_bind {x : ExceptT δ (EStateM ε S) β} {f : β → ExceptT δ (EStateM ε S) γ}
    {s : S} {Q : Except δ γ → S → Prop} :
    Returns (x >>= f).run s Q ↔ Returns x.run s fun r t =>
      match r with
      | .ok b => Returns (f b).run t Q
      | .error e => Q (.error e) t := by
  rw [ExceptT.run_bind, returns_bind]
  constructor
  · intro h
    refine h.mono ?_
    rintro (e | b) t hb
    · show Q (Except.error e) t
      exact returns_pure.mp hb
    · exact hb
  · intro h
    refine h.mono ?_
    rintro (e | b) t hb
    · change Returns (pure (Except.error e)) t Q
      exact returns_pure.mpr hb
    · exact hb

@[simp] theorem succeeds_run_pure {b : β} {s : S} {Q : Except δ β → S → Prop} :
    Succeeds (pure b : ExceptT δ (EStateM ε S) β).run s Q ↔ Q (.ok b) s :=
  succeeds_pure

@[simp] theorem succeeds_run_throw {e : δ} {s : S} {Q : Except δ β → S → Prop} :
    Succeeds (throw e : ExceptT δ (EStateM ε S) β).run s Q ↔ Q (.error e) s :=
  succeeds_pure

@[simp] theorem succeeds_run_mk {x : EStateM ε S (Except δ β)} {s : S}
    {Q : Except δ β → S → Prop} : Succeeds (ExceptT.mk x).run s Q ↔ Succeeds x s Q := Iff.rfl

@[simp] theorem succeeds_run_lift {x : EStateM ε S β} {s : S} {Q : Except δ β → S → Prop} :
    Succeeds (ExceptT.lift x : ExceptT δ (EStateM ε S) β).run s Q ↔
      Succeeds x s fun b t => Q (.ok b) t :=
  succeeds_map

theorem succeeds_run_bind {x : ExceptT δ (EStateM ε S) β}
    {f : β → ExceptT δ (EStateM ε S) γ} {s : S} {Q : Except δ γ → S → Prop} :
    Succeeds (x >>= f).run s Q ↔ Succeeds x.run s fun r t =>
      match r with
      | .ok b => Succeeds (f b).run t Q
      | .error e => Q (.error e) t := by
  rw [ExceptT.run_bind, succeeds_bind]
  constructor
  · intro h
    refine h.mono ?_
    rintro (e | b) t hb
    · show Q (Except.error e) t
      exact succeeds_pure.mp hb
    · exact hb
  · intro h
    refine h.mono ?_
    rintro (e | b) t hb
    · change Succeeds (pure (Except.error e)) t Q
      exact succeeds_pure.mpr hb
    · exact hb

/-! ## Computations that can come to nothing -/

theorem succeeds_optionT_bind {x : OptionT (EStateM ε S) β} {f : β → OptionT (EStateM ε S) γ}
    {s : S} {Q : Option γ → S → Prop} :
    Succeeds (x >>= f).run s Q ↔ Succeeds x.run s fun r t =>
      match r with
      | some b => Succeeds (f b).run t Q
      | none => Q none t := by
  rw [OptionT.run_bind, Option.elimM, succeeds_bind]
  constructor
  · intro h
    refine h.mono ?_
    rintro (_ | b) t hb
    · show Q none t
      exact succeeds_pure.mp hb
    · exact hb
  · intro h
    refine h.mono ?_
    rintro (_ | b) t hb
    · change Succeeds (pure none) t Q
      exact succeeds_pure.mpr hb
    · exact hb

/-! ## The world -/

namespace Run

variable {α σ : Type} [Scalar α]

/-- A world after one more look at the clock. -/
def tick (w : World α σ) : World α σ := { w with ticks := w.ticks + 1 }

@[simp] theorem returns_now {w : World α σ} {Q : Nat → World α σ → Prop} :
    Returns Run.now w Q ↔ Q (w.clock w.ticks) (tick w) := by
  constructor
  · intro h
    exact h _ _ rfl
  · intro h b t hx
    cases hx
    exact h

@[simp] theorem returns_since {start : Nat} {w : World α σ} {Q : Nat → World α σ → Prop} :
    Returns (Run.since start) w Q ↔ Q (w.clock w.ticks - start) (tick w) := by
  simp only [Run.since, returns_bind, returns_now, returns_pure]

@[simp] theorem returns_ofCalls {c : Calls σ β} {w : World α σ} {Q : β → World α σ → Prop} :
    Returns (Run.ofCalls c) w Q ↔ Returns c w.tally fun b t => Q b { w with tally := t } := by
  constructor
  · intro h b t hc
    exact h b { w with tally := t } (by simp only [Run.ofCalls, hc])
  · intro h b v hw
    cases hc : c w.tally with
    | ok d t =>
        simp only [Run.ofCalls, hc] at hw
        cases hw
        exact h b t hc
    | error f t =>
        simp only [Run.ofCalls, hc] at hw
        cases hw

@[simp] theorem returns_ofFault {x : Except Fault β} {w : World α σ}
    {Q : β → World α σ → Prop} :
    Returns (Run.ofFault x) w Q ↔ ∀ b, x = .ok b → Q b w := by
  cases x with
  | error f =>
      constructor
      · intro _ b h
        cases h
      · intro _
        exact returns_throw
  | ok b =>
      constructor
      · intro h c hc
        cases hc
        exact returns_pure.mp h
      · intro h
        exact returns_pure.mpr (h b rfl)

theorem succeeds_now {w : World α σ} {Q : Nat → World α σ → Prop}
    (h : Q (w.clock w.ticks) (tick w)) : Succeeds Run.now w Q := ⟨_, _, rfl, h⟩

theorem succeeds_since {start : Nat} {w : World α σ} {Q : Nat → World α σ → Prop}
    (h : Q (w.clock w.ticks - start) (tick w)) : Succeeds (Run.since start) w Q := ⟨_, _, rfl, h⟩

theorem succeeds_ofCalls {c : Calls σ β} {w : World α σ} {Q : β → World α σ → Prop}
    (h : Succeeds c w.tally fun b t => Q b { w with tally := t }) :
    Succeeds (Run.ofCalls c) w Q := by
  obtain ⟨b, t, hc, hQ⟩ := h
  exact ⟨b, { w with tally := t }, by simp only [Run.ofCalls, hc], hQ⟩

theorem succeeds_ofFault {x : Except Fault β} {w : World α σ} {Q : β → World α σ → Prop} {b : β}
    (h : x = .ok b) (hQ : Q b w) : Succeeds (Run.ofFault x) w Q := by
  rw [h]
  exact succeeds_pure.mpr hQ

@[simp] theorem returns_setProblem {p : Problem α σ} {w : World α σ}
    {Q : PUnit → World α σ → Prop} :
    Returns (Run.setProblem p) w Q ↔ Q ⟨⟩ { w with problem := p } :=
  returns_modify

section Problems

variable {c : Problem α σ → Calls σ (InPlace δ β (Problem α σ))} {w : World α σ}
  {Q : Except δ β → World α σ → Prop}

@[simp] theorem returns_onProblem : Returns (Run.onProblem c) w Q ↔
    Returns (c w.problem) w.tally fun r t => Q r.1 { w with problem := r.2, tally := t } := by
  rw [Run.onProblem, returns_bind, returns_get, returns_bind, returns_ofCalls]
  simp only [returns_bind, returns_setProblem, returns_pure]

theorem succeeds_onProblem (h : Succeeds (c w.problem) w.tally fun r t =>
    Q r.1 { w with problem := r.2, tally := t }) : Succeeds (Run.onProblem c) w Q := by
  obtain ⟨r, t, hc, hQ⟩ := h
  refine ⟨r.1, { w with problem := r.2, tally := t }, ?_, hQ⟩
  show (Run.ofCalls (c w.problem) >>= _) w = _
  rw [eStateM_bind_apply, Run.ofCalls, hc]
  rfl

end Problems

end Run

end LeastSquares
