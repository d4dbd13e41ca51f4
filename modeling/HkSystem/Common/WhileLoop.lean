import Mathlib.Data.Nat.Notation
/-!
# While loops

A loop over a state with a condition and a body, run for a number of turns. The
body may end the program. Three rules: what the body keeps holds when the loop
returns (`loop_inv`); a loop whose body lowers a measure returns
(`loop_returns`); a loop that is kept inside its condition never does
(`loop_running`).
-/

namespace HkSystem

namespace While

/-- How far a program has got. -/
inductive Outcome (σ : Type) where
  | returned (s : σ)
  /-- The program has ended itself. -/
  | exited
  /-- The turns are used up. -/
  | running

variable {σ : Type}

/-- The loop, for so many turns at most. -/
def loop (cond : σ → Bool) (body : σ → Option σ) : ℕ → σ → Outcome σ
  | 0, s => if cond s then .running else .returned s
  | turns + 1, s =>
    if cond s then
      match body s with
      | none => .exited
      | some s' => loop cond body turns s'
    else .returned s

variable {cond : σ → Bool} {body : σ → Option σ} {s s' : σ} {turns : ℕ}

/-- Outside its condition a loop is over. -/
theorem loop_of_not (h : cond s = false) : loop cond body turns s = .returned s := by
  cases turns <;> simp [loop, h]

/-- One turn. -/
theorem loop_turn (h : cond s = true) (hbody : body s = some s') :
    loop cond body (turns + 1) s = loop cond body turns s' := by
  rw [loop, if_pos h, hbody]

/-- **The invariant rule.** -/
theorem loop_inv (Inv : σ → Prop)
    (hbody : ∀ s s', Inv s → cond s = true → body s = some s' → Inv s') (hs : Inv s)
    (h : loop cond body turns s = .returned s') :
    Inv s' ∧ cond s' = false := by
  induction turns generalizing s with
  | zero =>
    rw [loop] at h
    split at h
    · cases h
    · next hcond =>
      cases h
      exact ⟨hs, Bool.eq_false_iff.2 hcond⟩
  | succ turns ih =>
    rw [loop] at h
    split at h
    · next hcond =>
      split at h
      · cases h
      · next s₁ hs₁ => exact ih (hbody s s₁ hs hcond hs₁) h
    · next hcond =>
      cases h
      exact ⟨hs, Bool.eq_false_iff.2 hcond⟩

/-- **The measure rule**: the loop returns, if it is given enough turns. -/
theorem loop_returns (Inv : σ → Prop) (measure : σ → ℕ)
    (hbody : ∀ s, Inv s → cond s = true →
      ∃ s', body s = some s' ∧ Inv s' ∧ measure s' < measure s)
    (hs : Inv s) (hturns : measure s ≤ turns) :
    ∃ s', loop cond body turns s = .returned s' := by
  induction turns generalizing s with
  | zero =>
    cases hcond : cond s with
    | false => exact ⟨s, loop_of_not hcond⟩
    | true =>
      obtain ⟨s₁, -, -, hlt⟩ := hbody s hs hcond
      omega
  | succ turns ih =>
    cases hcond : cond s with
    | false => exact ⟨s, loop_of_not hcond⟩
    | true =>
      obtain ⟨s₁, hs₁, hinv, hlt⟩ := hbody s hs hcond
      rw [loop_turn hcond hs₁]
      exact ih hinv (by omega)

/-- **The rule of loops that do not end.** -/
theorem loop_running (Inv : σ → Prop)
    (hbody : ∀ s, Inv s → cond s = true ∧ ∃ s', body s = some s' ∧ Inv s') (hs : Inv s) :
    loop cond body turns s = .running := by
  induction turns generalizing s with
  | zero => rw [loop, if_pos (hbody s hs).1]
  | succ turns ih =>
    obtain ⟨hcond, s₁, hs₁, hinv⟩ := hbody s hs
    rw [loop_turn hcond hs₁, ih hinv]

end While

end HkSystem
