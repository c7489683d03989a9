import LeastSquares.Proofs.Effects
import Mathlib.Data.List.Forall2

/-!
# Going through a list

An operation that can fail is applied to the members of a list in turn. It
went through if every member has a result, and the results are those of the
members one by one. In a computation with effects an invariant of the state
is carried along.

## Main results

* `mapM_eq_ok_iff`, `exists_mapM_eq_ok` — results of a pure operation.
* `Returns.mapM`, `Succeeds.mapM` — results of a computation.
-/

namespace LeastSquares

variable {ε S β γ : Type}

theorem except_pure_eq_ok {b c : β} : (pure b : Except ε β) = .ok c ↔ b = c := by
  constructor
  · intro h
    cases h
    rfl
  · rintro rfl
    rfl

theorem except_bind_eq_ok {x : Except ε β} {f : β → Except ε γ} {c : γ} :
    x >>= f = .ok c ↔ ∃ b, x = .ok b ∧ f b = .ok c := by
  cases x with
  | error e => simp [bind, Except.bind]
  | ok b => simp [bind, Except.bind]

/-- A result that was let through by a test. -/
theorem eq_of_ite_ok {p : Prop} [Decidable p] {e : ε} {b c : β}
    (h : (if p then .ok b else .error e : Except ε β) = .ok c) : b = c := by
  split at h
  · exact Except.ok.inj h
  · cases h

theorem except_map_eq_ok {x : Except ε β} {f : β → γ} {c : γ} :
    x.map f = .ok c ↔ ∃ b, x = .ok b ∧ f b = c := by
  cases x with
  | error e => simp [Except.map]
  | ok b => simp [Except.map]

theorem except_toOption_eq_some {x : Except ε β} {b : β} : x.toOption = some b ↔ x = .ok b := by
  cases x <;> simp [Except.toOption]

/-- The results are those of the members. -/
theorem mapM_eq_ok_iff {f : β → Except ε γ} {l : List β} {r : List γ} :
    l.mapM f = .ok r ↔ List.Forall₂ (fun b c => f b = .ok c) l r := by
  induction l generalizing r with
  | nil =>
      rw [List.mapM_nil, List.forall₂_nil_left_iff]
      exact ⟨fun h => by cases h; rfl, fun h => by rw [h]; rfl⟩
  | cons b l ih =>
      rw [List.mapM_cons, List.forall₂_cons_left_iff]
      simp only [except_bind_eq_ok, ih]
      constructor
      · rintro ⟨c, hc, r', hr, h⟩
        cases h
        exact ⟨c, r', hc, hr, rfl⟩
      · rintro ⟨c, r', hc, hr, rfl⟩
        exact ⟨c, hc, r', hr, rfl⟩

theorem exists_forall₂ {R : β → γ → Prop} {l : List β} (h : ∀ b ∈ l, ∃ c, R b c) :
    ∃ r, List.Forall₂ R l r := by
  induction l with
  | nil => exact ⟨[], .nil⟩
  | cons b l ih =>
      obtain ⟨c, hc⟩ := h b (by simp)
      obtain ⟨r, hr⟩ := ih fun b' hb' => h b' (List.mem_cons_of_mem b hb')
      exact ⟨c :: r, .cons hc hr⟩

/-- There are results if every member has one. -/
theorem exists_mapM_eq_ok {f : β → Except ε γ} {l : List β} (h : ∀ b ∈ l, ∃ c, f b = .ok c) :
    ∃ r, l.mapM f = .ok r := by
  obtain ⟨r, hr⟩ := exists_forall₂ h
  exact ⟨r, mapM_eq_ok_iff.mpr hr⟩

theorem exists_right_of_forall₂ {R : β → γ → Prop} {l : List β} {r : List γ}
    (h : List.Forall₂ R l r) : ∀ b ∈ l, ∃ c ∈ r, R b c := by
  induction h with
  | nil => simp
  | cons hbc _ ih =>
      intro b hb
      rcases List.mem_cons.mp hb with rfl | hb
      · exact ⟨_, List.mem_cons_self, hbc⟩
      · obtain ⟨c, hc, h⟩ := ih b hb
        exact ⟨c, List.mem_cons_of_mem _ hc, h⟩

theorem exists_left_of_forall₂ {R : β → γ → Prop} {l : List β} {r : List γ}
    (h : List.Forall₂ R l r) : ∀ c ∈ r, ∃ b ∈ l, R b c :=
  exists_right_of_forall₂ h.flip

theorem exists_getElem?_of_forall₂ {R : β → γ → Prop} {l : List β} {r : List γ} {i : Nat} {b : β}
    (h : List.Forall₂ R l r) (hb : l[i]? = some b) : ∃ c, r[i]? = some c ∧ R b c := by
  induction h generalizing i with
  | nil => cases hb
  | cons hbc _ ih =>
      cases i with
      | zero =>
          cases hb
          exact ⟨_, rfl, hbc⟩
      | succ i => exact ih hb

theorem map_eq_map_of_forall₂ {δ : Type} {R : β → γ → Prop} {f : β → δ} {g : γ → δ} {l : List β}
    {r : List γ} (h : List.Forall₂ R l r) (hR : ∀ b c, R b c → f b = g c) :
    l.map f = r.map g := by
  induction h with
  | nil => rfl
  | cons hbc _ ih => rw [List.map_cons, List.map_cons, hR _ _ hbc, ih]

/-- What two lists have to do with a third, they have to do with each other. -/
theorem forall₂_of_common {δ : Type} {R : β → γ → Prop} {Q : β → δ → Prop} {T : γ → δ → Prop}
    {l : List β} {r : List γ} {q : List δ} (hr : List.Forall₂ R l r) (hq : List.Forall₂ Q l q)
    (h : ∀ b c d, R b c → Q b d → T c d) : List.Forall₂ T r q := by
  induction hr generalizing q with
  | nil =>
      cases hq
      exact .nil
  | cons hbc _ ih =>
      cases hq with
      | cons hbd hq => exact .cons (h _ _ _ hbc hbd) (ih hq)

theorem forall₂_zip_right {δ : Type} {R : β → γ → Prop} {l : List β} {r : List γ}
    (h : List.Forall₂ R l r) (q : List δ) :
    List.Forall₂ (fun b c => R b.1 c.1 ∧ b.2 = c.2) (l.zip q) (r.zip q) := by
  induction h generalizing q with
  | nil => exact .nil
  | cons hbc _ ih =>
      cases q with
      | nil => exact .nil
      | cons d q => exact .cons ⟨hbc, rfl⟩ (ih q)

theorem forall₂_zip {δ : Type} {R : β → γ → Prop} {Q : β → δ → Prop} {l : List β} {r : List γ}
    {q : List δ} (hr : List.Forall₂ R l r) (hq : List.Forall₂ Q l q) :
    List.Forall₂ (fun b c => R b c.1 ∧ Q b c.2) l (r.zip q) := by
  induction hr generalizing q with
  | nil => exact .nil
  | cons hbc _ ih =>
      cases hq with
      | cons hbd hq => exact .cons ⟨hbc, hbd⟩ (ih hq)

/-- Traversals of corresponding lists by steps that are the same are the
same. -/
theorem mapM_congr_forall₂ {m : Type → Type} [Monad m] [LawfulMonad m] {δ : Type} {R : β → γ → Prop}
    {f : β → m δ} {g : γ → m δ} {l : List β} {r : List γ} (h : List.Forall₂ R l r)
    (hR : ∀ b c, R b c → f b = g c) : l.mapM f = r.mapM g := by
  induction h with
  | nil => rfl
  | cons hbc _ ih => rw [List.mapM_cons, List.mapM_cons, hR _ _ hbc, ih]

/-- What is done with a result at once can be done after the traversal. -/
theorem mapM_bind_pure {m : Type → Type} [Monad m] [LawfulMonad m] {δ : Type} (f : β → m γ)
    (k : β → γ → δ) (l : List β) :
    (l.mapM fun b => f b >>= fun c => pure (k b c)) =
      (l.mapM f >>= fun r => pure (List.zipWith k l r)) := by
  induction l with
  | nil => simp only [List.mapM_nil, pure_bind, List.zipWith_nil_left]
  | cons b l ih =>
      simp only [List.mapM_cons, ih, bind_assoc, pure_bind, List.zipWith_cons_cons]

/-- A traversal that fails does so at some member. -/
theorem exists_of_mapM_eq_error {f : β → Except ε γ} {l : List β} {e : ε}
    (h : l.mapM f = .error e) : ∃ b ∈ l, f b = .error e := by
  induction l with
  | nil => cases h
  | cons b l ih =>
      rw [List.mapM_cons] at h
      cases hb : f b with
      | error e' =>
          rw [hb] at h
          cases h
          exact ⟨b, by simp, hb⟩
      | ok c =>
          rw [hb] at h
          cases hl : l.mapM f with
          | error e' =>
              rw [hl] at h
              cases h
              obtain ⟨b', hb', he⟩ := ih hl
              exact ⟨b', List.mem_cons_of_mem b hb', he⟩
          | ok r =>
              rw [hl] at h
              cases h

theorem mapM_congr_mem {f g : β → Except ε γ} {l : List β} (h : ∀ b ∈ l, f b = g b) :
    l.mapM f = l.mapM g := by
  induction l with
  | nil => rfl
  | cons b l ih =>
      rw [List.mapM_cons, List.mapM_cons, h b (by simp),
        ih fun b' hb' => h b' (List.mem_cons_of_mem b hb')]

/-- All results are there. -/
theorem mapM_id_eq_some_iff {l : List (Option β)} {r : List β} :
    l.mapM id = some r ↔ l = r.map some := by
  induction l generalizing r with
  | nil => cases r <;> simp
  | cons o l ih =>
      rw [List.mapM_cons]
      cases o with
      | none => cases r <;> simp
      | some b =>
          show ((l.mapM id).bind fun r' => some (b :: r')) = some r ↔ _
          simp only [Option.bind_eq_some_iff, ih, Option.some.injEq]
          cases r with
          | nil => simp
          | cons c r => simp [and_comm]

theorem exists_of_forall₂_zip {δ : Type} {R : β → γ → δ → Prop} {l : List β}
    {answers : List (Option γ)} {r : List δ} (hlen : answers.length = l.length)
    (h : List.Forall₂ (fun c d => ∃ o, c.2 = some o ∧ R c.1 o d) (l.zip answers) r) :
    ∃ outs : List γ, answers = outs.map some ∧
      List.Forall₂ (fun c d => R c.1 c.2 d) (l.zip outs) r := by
  induction l generalizing answers r with
  | nil =>
      cases List.length_eq_zero_iff.mp hlen
      cases h
      exact ⟨[], rfl, .nil⟩
  | cons b l ih =>
      obtain ⟨answer, answers, rfl⟩ := List.exists_cons_of_length_eq_add_one hlen
      cases h with
      | cons hd hr =>
          obtain ⟨o, rfl, ho⟩ := hd
          obtain ⟨outs, rfl, hall⟩ := ih (Nat.succ.inj hlen) hr
          exact ⟨o :: outs, rfl, .cons ho hall⟩

/-- What stands between two lists, one by one, can be listed. -/
theorem exists_forall₂_zip {δ : Type} {R : β → γ → δ → Prop} {l : List β} {q : List δ}
    (h : List.Forall₂ (fun b d => ∃ c, R b c d) l q) :
    ∃ r : List γ, r.length = l.length ∧ List.Forall₂ (fun c d => R c.1 c.2 d) (l.zip r) q := by
  induction h with
  | nil => exact ⟨[], rfl, .nil⟩
  | cons hd _ ih =>
      obtain ⟨c, hc⟩ := hd
      obtain ⟨r, hlen, hall⟩ := ih
      exact ⟨c :: r, congrArg (· + 1) hlen, .cons hc hall⟩

/-- What is listed between two lists stands between their members. -/
theorem forall₂_of_forall₂_zip {δ : Type} {R : β → γ → Prop} {Q : β → γ → δ → Prop} {l : List β}
    {r : List γ} {q : List δ} (hr : List.Forall₂ R l r)
    (hq : List.Forall₂ (fun c d => Q c.1 c.2 d) (l.zip r) q) :
    List.Forall₂ (fun b d => ∃ c, R b c ∧ Q b c d) l q := by
  induction hr generalizing q with
  | nil =>
      cases hq
      exact .nil
  | cons hbc _ ih =>
      cases hq with
      | cons hd hq => exact .cons ⟨_, hbc, hd⟩ (ih hq)

/-- All answers are there, and something can be made of each. -/
theorem mapM_zipWith_eq_some_iff {δ : Type} {k : β → γ → Option δ} {l : List β}
    {answers : List (Option γ)} {r : List δ} (hlen : answers.length = l.length) :
    (List.zipWith (fun b (answer : Option γ) => answer.bind (k b)) l answers).mapM id = some r ↔
      ∃ outs : List γ, answers = outs.map some ∧
        List.Forall₂ (fun c d => k c.1 c.2 = some d) (l.zip outs) r := by
  rw [mapM_id_eq_some_iff, ← List.map_uncurry_zip_eq_zipWith]
  constructor
  · intro h
    rw [← List.forall₂_eq_eq_eq, List.forall₂_map_left_iff, List.forall₂_map_right_iff] at h
    exact exists_of_forall₂_zip (R := fun b o d => k b o = some d) hlen
      (h.imp fun _ _ heq => Option.bind_eq_some_iff.mp heq)
  · rintro ⟨outs, rfl, hall⟩
    rw [List.map_uncurry_zip_eq_zipWith, List.zipWith_map_right, ← List.map_uncurry_zip_eq_zipWith]
    exact map_eq_map_of_forall₂ hall fun _ _ h => h

/-! ## With effects -/

variable {f : β → EStateM ε S γ} {I : S → Prop} {P : β → γ → Prop} {s : S}

theorem Returns.mapM {l : List β}
    (h : ∀ b ∈ l, ∀ t, I t → Returns (f b) t fun c u => P b c ∧ I u) (hs : I s) :
    Returns (l.mapM f) s fun r t => List.Forall₂ P l r ∧ I t := by
  induction l generalizing s with
  | nil => exact returns_pure.mpr ⟨.nil, hs⟩
  | cons b l ih =>
      rw [List.mapM_cons, returns_bind]
      refine (h b (by simp) s hs).mono ?_
      rintro c t ⟨hc, ht⟩
      rw [returns_bind]
      refine (ih (fun b' hb' => h b' (List.mem_cons_of_mem b hb')) ht).mono ?_
      rintro r u ⟨hr, hu⟩
      exact returns_pure.mpr ⟨.cons hc hr, hu⟩

theorem Succeeds.mapM {l : List β}
    (h : ∀ b ∈ l, ∀ t, I t → Succeeds (f b) t fun c u => P b c ∧ I u) (hs : I s) :
    Succeeds (l.mapM f) s fun r t => List.Forall₂ P l r ∧ I t := by
  induction l generalizing s with
  | nil => exact succeeds_pure.mpr ⟨.nil, hs⟩
  | cons b l ih =>
      rw [List.mapM_cons, succeeds_bind]
      refine (h b (by simp) s hs).mono ?_
      rintro c t ⟨hc, ht⟩
      rw [succeeds_bind]
      refine (ih (fun b' hb' => h b' (List.mem_cons_of_mem b hb')) ht).mono ?_
      rintro r u ⟨hr, hu⟩
      exact succeeds_pure.mpr ⟨.cons hc hr, hu⟩

/-- A traversal whose steps can come to nothing does not break if they do
not. -/
theorem Succeeds.mapM_optionT {f : β → OptionT (EStateM ε S) γ} {l : List β}
    (h : ∀ b ∈ l, ∀ t, Succeeds (f b).run t fun r _ => ∀ c, r = some c → P b c) :
    Succeeds (l.mapM f).run s fun r _ => ∀ cs, r = some cs → List.Forall₂ P l cs := by
  induction l generalizing s with
  | nil =>
      refine succeeds_pure.mpr fun cs hcs => ?_
      cases hcs
      exact .nil
  | cons b l ih =>
      rw [List.mapM_cons, succeeds_optionT_bind]
      refine (h b (by simp) s).mono ?_
      rintro (_ | c) t hc
      · exact nofun
      · dsimp only
        rw [succeeds_optionT_bind]
        refine (ih fun b' hb' => h b' (List.mem_cons_of_mem b hb')).mono ?_
        rintro (_ | cs) t' hcs
        · exact nofun
        · refine succeeds_pure.mpr fun ds hds => ?_
          cases hds
          exact .cons (hc c rfl) (hcs cs rfl)

/-- A traversal whose steps return the same from every state does so, too. -/
theorem exists_mapM_of_forall₂ {l : List β} {r : List γ}
    (h : List.Forall₂ (fun b c => ∀ s, ∃ s', f b s = .ok c s') l r) (s : S) :
    ∃ s', l.mapM f s = .ok r s' := by
  induction h generalizing s with
  | nil => exact ⟨s, rfl⟩
  | cons hb _ ih =>
      obtain ⟨t, ht⟩ := hb s
      obtain ⟨u, hu⟩ := ih t
      refine ⟨u, ?_⟩
      rw [List.mapM_cons, eStateM_bind_apply, ht]
      dsimp only
      rw [eStateM_bind_apply, hu]
      rfl

/-- If every step of a traversal takes a step of another one with it, then so
does the whole traversal, and the results correspond one by one. -/
theorem mapM_eq_ok_of_steps {δ : Type} {g : β → EStateM ε S δ} {R : β → δ → γ → Prop} {l : List β}
    {r : List γ} {s s' : S} (h : ∀ b ∈ l, ∀ c t t', f b t = .ok c t' →
      ∃ d, g b t = .ok d t' ∧ R b d c) (hf : l.mapM f s = .ok r s') :
    ∃ q : List δ, l.mapM g s = .ok q s' ∧ q.length = l.length ∧
      List.Forall₂ (fun c d => R c.1 c.2 d) (l.zip q) r := by
  induction l generalizing r s with
  | nil =>
      cases hf
      exact ⟨[], rfl, rfl, .nil⟩
  | cons b l ih =>
      rw [List.mapM_cons, eStateM_bind_apply] at hf
      cases hb : f b s with
      | error e t =>
          rw [hb] at hf
          cases hf
      | ok c t =>
          rw [hb] at hf
          dsimp only at hf
          rw [eStateM_bind_apply] at hf
          cases hl : l.mapM f t with
          | error e u =>
              rw [hl] at hf
              cases hf
          | ok r' u =>
              rw [hl] at hf
              cases hf
              obtain ⟨d, hd, hR⟩ := h b (by simp) c s t hb
              obtain ⟨q, hq, hlen, hall⟩ :=
                ih (fun b' hb' => h b' (List.mem_cons_of_mem b hb')) hl
              refine ⟨d :: q, ?_, congrArg (· + 1) hlen, .cons hR hall⟩
              rw [List.mapM_cons, eStateM_bind_apply, hd]
              dsimp only
              rw [eStateM_bind_apply, hq]
              rfl

end LeastSquares
