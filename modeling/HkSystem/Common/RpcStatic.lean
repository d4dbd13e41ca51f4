import HkSystem.Common.RpcRun
import Mathlib.Algebra.BigOperators.Group.Finset.Basic
/-!
# Facts read off the code

Bounds on an assembly that its code shows without running it. If every path through
the code takes at most so many moves, so does every turn of the nested calls
(`Assembly.AtMost.clock_le`). A property of every step that a thread's code may take on
the memory stays one of what is left of the code in every run (`Assembly.Every.of_mem`).
So if every step keeps to a relation, every move does (`Assembly.Respects.of_mem`); and
if every step does the same to memories that agree, so does every move
(`Assembly.Sees.of_mem`). An interface that no code calls never gets a message, and its
thread never moves (`Assembly.Below.passed`).
-/

namespace HkSystem

namespace Rpc

variable {π ν σ : Type} {A : Assembly π ν σ} {rank : π → ℕ} {cost : π → ν → ℕ} {turn : ℕ → ℕ}

/-! ## How many moves a turn takes -/

/-- Every path through the code takes at most so many moves, with what the callees
take. -/
inductive Code.AtMost (cost : π → ν → ℕ) : ℕ → Code π ν σ → Prop
  | ret {n : ℕ} (v : ν) : AtMost cost n (.ret v)
  | act {n : ℕ} {update : σ → σ} {next : σ → Code π ν σ} :
      (∀ s, AtMost cost n (next s)) → AtMost cost (n + 1) (.act update next)
  | call {n : ℕ} {p : π} {v : ν} {next : ν → Code π ν σ} :
      (∀ v, AtMost cost n (next v)) → AtMost cost (n + (cost p v + 4)) (.call p v next)
  | fault {n : ℕ} : AtMost cost n .fault

theorem Code.AtMost.mono {n k : ℕ} {code : Code π ν σ} (h : code.AtMost cost n) (hle : n ≤ k) :
    code.AtMost cost k := by
  induction h generalizing k with
  | ret v => exact .ret v
  | act _ ih =>
    obtain ⟨k, rfl⟩ := Nat.exists_eq_add_of_le' (Nat.le_of_add_left_le hle)
    exact .act fun s => ih s (by omega)
  | @call n p v next _ ih =>
    obtain ⟨k, rfl⟩ := Nat.exists_eq_add_of_le' (show cost p v + 4 ≤ k by omega)
    exact .call fun v => ih v (by omega)
  | fault => exact .fault

theorem Code.AtMost.call_le {n k : ℕ} {p : π} {v : ν} {next : ν → Code π ν σ}
    (hle : n + (cost p v + 4) ≤ k) (h : ∀ v, (next v).AtMost cost n) :
    (Code.call p v next).AtMost cost k :=
  (Code.AtMost.call h).mono hle

theorem Code.AtMost.exec_le {callee : π → ν → σ → Option (ν × σ × ℕ)} {n : ℕ}
    {code : Code π ν σ} (h : code.AtMost cost n)
    (hcallee : ∀ p v s r, callee p v s = some r → r.2.2 ≤ cost p v) {s : σ} {r : ν × σ × ℕ}
    (hr : code.exec callee s = some r) : r.2.2 ≤ n := by
  induction h generalizing s r with
  | ret v =>
    cases hr
    exact Nat.zero_le _
  | act _ ih =>
    obtain ⟨r', hr', rfl⟩ := Option.map_eq_some_iff.1 hr
    exact Nat.add_le_add_right (ih _ hr') 1
  | call _ ih =>
    obtain ⟨q, hq, hr⟩ := Option.bind_eq_some_iff.1 hr
    obtain ⟨r', hr', rfl⟩ := Option.map_eq_some_iff.1 hr
    exact Nat.add_le_add (ih _ hr') (Nat.add_le_add_right (hcallee _ _ _ _ hq) 4)
  | fault => cases hr

/-- The bounds on the handlers, and on each turn of the client. -/
structure Assembly.AtMost (A : Assembly π ν σ) (cost : π → ν → ℕ) (turn : ℕ → ℕ) : Prop where
  serve : ∀ i p v, (A.serve i p v).AtMost cost (cost p v)
  client : ∀ i, (A.client i).AtMost cost (turn i)

theorem Assembly.AtMost.evalTo_le (hA : A.AtMost cost turn) (i : ℕ) :
    ∀ depth p v s r, A.evalTo i depth p v s = some r → r.2.2 ≤ cost p v := by
  intro depth
  induction depth with
  | zero =>
    intro p v s r hr
    cases hr
  | succ depth ih =>
    intro p v s r hr
    exact (hA.serve i p v).exec_le ih hr

/-- **Every turn takes at most so many moves**, and one to go on to the next. -/
theorem Assembly.AtMost.clock_le (hA : A.AtMost cost turn) (s₀ : σ) :
    ∀ n, A.clock rank s₀ n ≤ ∑ i ∈ Finset.range n, (turn i + 1) := by
  intro n
  induction n with
  | zero => exact Nat.zero_le _
  | succ n ih =>
    have hturn : A.turnMoves rank s₀ n ≤ turn n := by
      rw [Assembly.turnMoves]
      rcases hat : (A.atTurn rank s₀ n).bind ((A.client n).exec (A.evalCount rank n)) with _ | r
      · exact Nat.zero_le _
      · obtain ⟨s, -, hexec⟩ := Option.bind_eq_some_iff.1 hat
        exact (hA.client n).exec_le (fun p v s r hr => hA.evalTo_le n _ p v s r hr) hexec
    rw [Assembly.clock, Finset.sum_range_succ]
    omega

/-! ## What the code of a thread shows -/

/-- Every step on the memory has the property: what it does, and what comes after it. -/
inductive Code.Every (P : (σ → σ) → (σ → Code π ν σ) → Prop) : Code π ν σ → Prop
  | ret (v : ν) : Every P (.ret v)
  | act {update : σ → σ} {next : σ → Code π ν σ} :
      P update next → (∀ s, Every P (next s)) → Every P (.act update next)
  | call {p : π} {v : ν} {next : ν → Code π ν σ} :
      (∀ v, Every P (next v)) → Every P (.call p v next)
  | fault : Every P .fault

/-- So has every step it has still to make. -/
def Thread.Every (P : (σ → σ) → (σ → Code π ν σ) → Prop) : Thread π ν σ → Prop
  | .idle => True
  | .busy code => code.Every P
  | .waiting _ next => ∀ v, (next v).Every P

/-- Each thread's code has the thread's property. -/
structure Assembly.Every (A : Assembly π ν σ)
    (P : Option π → (σ → σ) → (σ → Code π ν σ) → Prop) : Prop where
  client : ∀ i, (A.client i).Every (P none)
  serve : ∀ i p v, (A.serve i p v).Every (P (some p))

variable {P : Option π → (σ → σ) → (σ → Code π ν σ) → Prop} {c c' : Config π ν σ} {t : Option π}
  {s₀ : σ}

theorem Assembly.Every.start (hA : A.Every P) (s₀ : σ) (u : Option π) :
    ((A.start s₀).thread u).Every (P u) := by
  cases u with
  | none => exact hA.client 0
  | some p => trivial

variable [DecidableEq π]

/-- A thread's new state has its property, and the others are as they were. -/
theorem every_update (h : ∀ u, (c.thread u).Every (P u)) {new : Thread π ν σ}
    (hnew : new.Every (P t)) (u : Option π) :
    (Function.update c.thread t new u).Every (P u) := by
  exact (Function.forall_update_iff c.thread fun u thread => thread.Every (P u)).2
    ⟨hnew, fun u _ => h u⟩ u

theorem Assembly.Every.move (hA : A.Every P) (h : ∀ u, (c.thread u).Every (P u))
    (hmove : A.move c t = some c') : ∀ u, (c'.thread u).Every (P u) := by
  have ht := h t
  unfold Assembly.move at hmove
  split at hmove
  next hidle =>
    split at hmove
    · cases hmove
    · split at hmove
      · cases hmove
      · cases hmove
        exact every_update h (hA.serve ..)
  next v hbusy =>
    split at hmove
    · cases hmove
      exact every_update h (hA.client _)
    · cases hmove
      exact every_update h trivial
  next update next hbusy =>
    rw [hbusy] at ht
    cases hmove
    cases ht with
    | act _ hnext => exact every_update h (hnext _)
  next p v next hbusy =>
    rw [hbusy] at ht
    cases hmove
    cases ht with
    | call hnext => exact every_update h hnext
  next => cases hmove
  next p next hwait =>
    rw [hwait] at ht
    split at hmove
    · cases hmove
    · cases hmove
      exact every_update h (ht _)

/-- **In every run, what is left of each thread's code has the thread's property.** -/
theorem Assembly.Every.of_mem (hA : A.Every P) {ts : List (Option π)}
    {e : Event (Config π ν σ) (Option π) Bool} (he : e ∈ A.threads.history (A.start s₀) ts)
    (u : Option π) : (e.pre.thread u).Every (P u) := by
  have hstep : ∀ c t, (∀ u, (c.thread u).Every (P u)) →
      ∀ u, ((A.threads.step c t).1.thread u).Every (P u) := by
    intro c t h
    rcases hmove : A.move c t with _ | c'
    · simpa [Assembly.threads, hmove] using h
    · simpa [Assembly.threads, hmove] using hA.move h hmove
  exact (Machine.inv_of_mem (hA.start s₀) hstep he).1 u

/-- **A thread moves by a step on the memory, or the same whatever the memory holds.** -/
theorem step_cases (A : Assembly π ν σ) (c : Config π ν σ) (t : Option π) :
    (∃ update next, c.thread t = .busy (.act update next) ∧ ∀ s,
        A.threads.step { c with mem := s } t =
          ({ c with
              mem := update s
              thread := Function.update c.thread t (.busy (next s)) }, true)) ∨
      ∀ s, A.threads.step { c with mem := s } t =
        ({ (A.threads.step c t).1 with mem := s }, (A.threads.step c t).2) := by
  rcases hthread : c.thread t with _ | code | ⟨p, next⟩
  · right
    cases t with
    | none => simp [Assembly.threads, Assembly.move, hthread]
    | some p => cases hcalls : c.calls p <;> simp [Assembly.threads, Assembly.move, hthread, hcalls]
  · cases code with
    | act update next =>
      exact Or.inl ⟨update, next, rfl, fun s => by simp [Assembly.threads, Assembly.move, hthread]⟩
    | ret v =>
      right
      cases t <;> simp [Assembly.threads, Assembly.move, hthread]
    | call p v next =>
      right
      simp [Assembly.threads, Assembly.move, hthread]
    | fault =>
      right
      simp [Assembly.threads, Assembly.move, hthread]
  · right
    cases hreply : c.reply t <;> simp [Assembly.threads, Assembly.move, hthread, hreply]

/-! ## What a thread may do to the memory -/

/-- Every step on the memory is in the relation. -/
abbrev Code.Respects (R : σ → σ → Prop) (code : Code π ν σ) : Prop :=
  code.Every fun update _ => ∀ s, R s (update s)

/-- Each thread's code keeps to the thread's relation. -/
abbrev Assembly.Respects (A : Assembly π ν σ) (R : Option π → σ → σ → Prop) : Prop :=
  A.Every fun t update _ => ∀ s, R t s (update s)

/-- **In every run, every move keeps to the relation of its thread.** -/
theorem Assembly.Respects.of_mem {R : Option π → σ → σ → Prop} (hA : A.Respects R)
    (hrefl : ∀ t s, R t s s) {ts : List (Option π)} {e : Event (Config π ν σ) (Option π) Bool}
    (he : e ∈ A.threads.history (A.start s₀) ts) : R e.call e.pre.mem e.post.mem := by
  have hthread := Assembly.Every.of_mem hA he e.call
  obtain ⟨-, hpost⟩ := Machine.step_of_mem he
  rw [hpost]
  rcases step_cases A e.pre e.call with ⟨update, next, hbusy, hstep⟩ | hstep
  · rw [hbusy] at hthread
    cases hthread with
    | act hupdate _ =>
      rw [hstep e.pre.mem]
      exact hupdate _
  · rw [hstep e.pre.mem]
    exact hrefl _ _

/-! ## What a thread may see of the memory -/

/-- Every step on the memory does the same to two memories that agree, for the relation,
and goes on the same. -/
abbrev Code.Sees (E : σ → σ → Prop) (code : Code π ν σ) : Prop :=
  code.Every fun update next => ∀ s s', E s s' → E (update s) (update s') ∧ next s = next s'

/-- Each thread's code sees of the memory what the thread's relation compares. -/
abbrev Assembly.Sees (A : Assembly π ν σ) (E : Option π → σ → σ → Prop) : Prop :=
  A.Every fun t update next => ∀ s s', E t s s' → E t (update s) (update s') ∧ next s = next s'

/-- **In every run, every move is the one the thread would make with any memory that agrees
for it**, and leaves memories that agree. -/
theorem Assembly.Sees.of_mem {E : Option π → σ → σ → Prop} (hA : A.Sees E) {ts : List (Option π)}
    {e : Event (Config π ν σ) (Option π) Bool} (he : e ∈ A.threads.history (A.start s₀) ts)
    {s : σ} (hs : E e.call e.pre.mem s) :
    ∃ s', A.threads.step { e.pre with mem := s } e.call = ({ e.post with mem := s' }, e.answer) ∧
      E e.call e.post.mem s' := by
  have hthread := Assembly.Every.of_mem hA he e.call
  obtain ⟨hans, hpost⟩ := Machine.step_of_mem he
  rcases step_cases A e.pre e.call with ⟨update, next, hbusy, hstep⟩ | hstep
  · rw [hbusy] at hthread
    cases hthread with
    | act hsees _ =>
      obtain ⟨hagree, hnext⟩ := hsees _ _ hs
      have hown := hstep e.pre.mem
      refine ⟨update s, ?_, ?_⟩
      · rw [hstep s, hans, hpost, hown, ← hnext]
      · rw [hpost, hown]
        exact hagree
  · have hown := hstep e.pre.mem
    refine ⟨s, ?_, ?_⟩
    · rw [hstep s, hans, hpost, hown]
    · rw [hpost, hown]
      exact hs

/-! ## What nobody calls -/

/-- All code calls interfaces of a rank below `r` only. -/
structure Assembly.Below (A : Assembly π ν σ) (rank : π → ℕ) (r : ℕ) : Prop where
  client : ∀ i, (A.client i).Below rank r
  serve : ∀ i p v, (A.serve i p v).Below rank r

/-- So does what a thread has still to do. -/
def Thread.Below (rank : π → ℕ) (r : ℕ) : Thread π ν σ → Prop
  | .idle => True
  | .busy code => code.Below rank r
  | .waiting _ next => ∀ v, (next v).Below rank r

/-- No thread is going to call the interface, and none has. -/
structure Uncalled (rank : π → ℕ) (r : ℕ) (p : π) (c : Config π ν σ) : Prop where
  below : ∀ u, (c.thread u).Below rank r
  calls : c.calls p = []
  idle : c.thread (some p) = .idle

variable {r : ℕ} {p : π}

theorem Uncalled.move_eq_none (h : Uncalled rank r p c) : A.move c (some p) = none := by
  simp only [Assembly.move, h.idle, h.calls]

/-- A thread other than the interface's gets on. -/
theorem Uncalled.update (h : Uncalled rank r p c) (hne : t ≠ some p) {new : Thread π ν σ}
    (hthread : c'.thread = Function.update c.thread t new) (hnew : new.Below rank r)
    (hcalls : c'.calls p = []) : Uncalled rank r p c' := by
  refine ⟨?_, hcalls, ?_⟩
  · rw [hthread]
    exact (Function.forall_update_iff c.thread fun _ thread => thread.Below rank r).2
      ⟨hnew, fun u _ => h.below u⟩
  · rw [hthread, Function.update_of_ne hne.symm, h.idle]

theorem Uncalled.move (h : Uncalled rank r p c) (hA : A.Below rank r) (hp : r ≤ rank p)
    (hmove : A.move c t = some c') : Uncalled rank r p c' := by
  have hne : t ≠ some p := by
    rintro rfl
    rw [h.move_eq_none] at hmove
    cases hmove
  have ht := h.below t
  unfold Assembly.move at hmove
  split at hmove
  next hidle =>
    split at hmove
    · cases hmove
    next q =>
      have hpq : p ≠ q := fun heq => hne (congrArg some heq.symm)
      split at hmove
      · cases hmove
      · cases hmove
        exact h.update hne rfl (hA.serve ..) ((Function.update_of_ne hpq ..).trans h.calls)
  next v hbusy =>
    split at hmove
    · cases hmove
      exact h.update hne rfl (hA.client _) h.calls
    · cases hmove
      exact h.update hne rfl trivial h.calls
  next update next hbusy =>
    rw [hbusy] at ht
    cases hmove
    cases ht with
    | act hnext => exact h.update hne rfl (hnext _) h.calls
  next q v next hbusy =>
    rw [hbusy] at ht
    cases hmove
    cases ht with
    | call hq hnext =>
      -- the callee's rank is below `r`, so it is another interface
      have hpq : p ≠ q := by
        rintro rfl
        omega
      exact h.update hne rfl hnext ((Function.update_of_ne hpq ..).trans h.calls)
  next => cases hmove
  next q next hwait =>
    rw [hwait] at ht
    split at hmove
    · cases hmove
    · cases hmove
      exact h.update hne rfl (ht _) h.calls

/-- **In every run, an interface that nobody calls is passed over.** -/
theorem Assembly.Below.passed (hA : A.Below rank r) (hp : r ≤ rank p) (s₀ : σ)
    (ts : List (Option π)) : A.move (A.threads.final (A.start s₀) ts) (some p) = none := by
  have hstart : Uncalled rank r p (A.start s₀) := by
    refine ⟨fun u => ?_, rfl, rfl⟩
    cases u with
    | none => exact hA.client 0
    | some q => trivial
  have hfinal : Uncalled rank r p (A.threads.final (A.start s₀) ts) := by
    refine Machine.inv_final hstart fun c t h => ?_
    rcases hmove : A.move c t with _ | c'
    · simpa [Assembly.threads, hmove] using h
    · simpa [Assembly.threads, hmove] using h.move hA hp hmove
  exact hfinal.move_eq_none

end Rpc

end HkSystem
