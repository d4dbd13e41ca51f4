import Mathlib.Data.List.Basic
import Mathlib.Data.List.Infix
/-!
# Machines driven by calls

A component that answers calls is a deterministic machine: a call takes
its state to the next one and gives an answer. A run is a list of calls;
its `history` records, for every call, the state before, the answer and
the state after, so that a law about every step of a run is a law about
every member of the history.
-/

namespace HkSystem

/-- A deterministic machine answering calls of type `ι` in `ω`. -/
structure Machine (σ ι ω : Type*) where
  /-- The state after a call, and what the call answers. -/
  step : σ → ι → σ × ω

/-- One call of a run, with the states around it. -/
structure Event (σ ι ω : Type*) where
  pre : σ
  call : ι
  answer : ω
  post : σ

namespace Machine

variable {σ ι ω : Type*} (M : Machine σ ι ω)

/-- The state a list of calls leads to. -/
def final (s : σ) (cs : List ι) : σ := cs.foldl (fun s c => (M.step s c).1) s

/-- The call `c` made in state `s`. -/
def event (s : σ) (c : ι) : Event σ ι ω := ⟨s, c, (M.step s c).2, (M.step s c).1⟩

/-- The calls of a run, each with its answer and the states around it. -/
def history : σ → List ι → List (Event σ ι ω)
  | _, [] => []
  | s, c :: cs => M.event s c :: history (M.step s c).1 cs

/-- A state some list of calls leads to. -/
def Reachable (s₀ s : σ) : Prop := ∃ cs, M.final s₀ cs = s

variable {M} {s s₀ : σ} {c : ι} {cs ds : List ι} {e : Event σ ι ω}

@[simp] theorem final_nil : M.final s [] = s := rfl

@[simp] theorem final_cons : M.final s (c :: cs) = M.final (M.step s c).1 cs := rfl

theorem final_append : M.final s (cs ++ ds) = M.final (M.final s cs) ds := by
  simp [final, List.foldl_append]

@[simp] theorem history_nil : M.history s [] = [] := rfl

@[simp] theorem history_cons :
    M.history s (c :: cs) = M.event s c :: M.history (M.step s c).1 cs := rfl

theorem history_append :
    M.history s (cs ++ ds) = M.history s cs ++ M.history (M.final s cs) ds := by
  induction cs generalizing s with
  | nil => rfl
  | cons c cs ih => simp only [List.cons_append, history_cons, final_cons, ih]

/-- A call of a run is made in the state its earlier calls lead to. -/
theorem mem_history_iff :
    e ∈ M.history s cs ↔ ∃ xs ys, cs = xs ++ e.call :: ys ∧ e.pre = M.final s xs ∧
      e.answer = (M.step e.pre e.call).2 ∧ e.post = (M.step e.pre e.call).1 := by
  induction cs generalizing s with
  | nil => simp
  | cons c cs ih =>
    rw [history_cons, List.mem_cons, ih]
    constructor
    · rintro (rfl | ⟨xs, ys, rfl, hpre, hans, hpost⟩)
      · exact ⟨[], cs, rfl, rfl, rfl, rfl⟩
      · exact ⟨c :: xs, ys, rfl, hpre, hans, hpost⟩
    · rintro ⟨xs, ys, hcs, hpre, hans, hpost⟩
      rcases xs with - | ⟨x, xs⟩
      · obtain ⟨rfl, rfl⟩ := List.cons.inj hcs
        left
        obtain ⟨p, c, a, q⟩ := e
        simp only [final_nil] at hpre
        subst hpre
        simp_all [event]
      · obtain ⟨rfl, rfl⟩ := List.cons.inj hcs
        exact Or.inr ⟨xs, ys, rfl, hpre, hans, hpost⟩

/-- What comes before a call of a run is the history of the calls before it. -/
theorem history_split {before after : List (Event σ ι ω)}
    (h : M.history s cs = before ++ e :: after) :
    ∃ xs ys, cs = xs ++ e.call :: ys ∧ before = M.history s xs ∧ e.pre = M.final s xs := by
  induction before generalizing s cs with
  | nil =>
    cases cs with
    | nil => cases h
    | cons c cs =>
      obtain ⟨rfl, -⟩ := List.cons.inj h
      exact ⟨[], cs, rfl, rfl, rfl⟩
  | cons e' before ih =>
    cases cs with
    | nil => cases h
    | cons c cs =>
      obtain ⟨rfl, hrest⟩ := List.cons.inj h
      obtain ⟨xs, ys, rfl, rfl, hpre⟩ := ih hrest
      exact ⟨c :: xs, ys, rfl, rfl, hpre⟩

theorem mem_of_split {before after : List (Event σ ι ω)}
    (h : M.history s cs = before ++ e :: after) : e ∈ M.history s cs := by
  rw [h]
  exact List.mem_append_right _ (List.mem_cons_self ..)

/-- The last call of a run is made where the others lead. -/
theorem event_mem_concat : M.event (M.final s cs) c ∈ M.history s (cs ++ [c]) := by
  rw [history_append]
  exact List.mem_append_right _ (List.mem_cons_self ..)

/-- Every call of a run is a step of the machine. -/
theorem step_of_mem (h : e ∈ M.history s cs) :
    e.answer = (M.step e.pre e.call).2 ∧ e.post = (M.step e.pre e.call).1 := by
  obtain ⟨-, -, -, -, hans, hpost⟩ := mem_history_iff.1 h
  exact ⟨hans, hpost⟩

theorem eq_event_of_mem (h : e ∈ M.history s cs) : e = M.event e.pre e.call := by
  obtain ⟨hans, hpost⟩ := step_of_mem h
  obtain ⟨p, c, a, q⟩ := e
  simp_all [event]

/-- Every call on the list is a call of the run. -/
theorem exists_event_of_mem (h : c ∈ cs) : ∃ e ∈ M.history s cs, e.call = c := by
  obtain ⟨xs, ys, rfl⟩ := List.append_of_mem h
  refine ⟨M.event (M.final s xs) c, ?_, rfl⟩
  exact mem_history_iff.2 ⟨xs, ys, rfl, rfl, rfl, rfl⟩

/-- **The invariant rule**: what holds at the start and survives every
call holds wherever a run leads. -/
theorem inv_final {Inv : σ → Prop} (h₀ : Inv s) (hstep : ∀ s c, Inv s → Inv (M.step s c).1) :
    Inv (M.final s cs) := by
  induction cs generalizing s with
  | nil => exact h₀
  | cons c cs ih => exact ih (hstep s c h₀)

/-- The same, for the states around each call of the run. -/
theorem inv_of_mem {Inv : σ → Prop} (h₀ : Inv s) (hstep : ∀ s c, Inv s → Inv (M.step s c).1)
    (h : e ∈ M.history s cs) : Inv e.pre ∧ Inv e.post := by
  obtain ⟨xs, ys, -, hpre, -, hpost⟩ := mem_history_iff.1 h
  have hI : Inv e.pre := hpre ▸ inv_final h₀ hstep
  exact ⟨hI, hpost ▸ hstep _ _ hI⟩

theorem Reachable.inv {Inv : σ → Prop} (h₀ : Inv s₀)
    (hstep : ∀ s c, Inv s → Inv (M.step s c).1) (h : M.Reachable s₀ s) : Inv s := by
  obtain ⟨cs, rfl⟩ := h
  exact inv_final h₀ hstep

/-- The calls of a prefix of a run are calls of the run. -/
theorem mem_history_of_prefix (hp : ds <+: cs) (h : e ∈ M.history s ds) : e ∈ M.history s cs := by
  obtain ⟨ys, rfl⟩ := hp
  rw [history_append]
  exact List.mem_append_left _ h

/-- **The simulation rule**: if every call of the one machine can be answered the
same way by a call of the other from related states, every run of the one is
a run of the other. -/
theorem exists_simulation {τ κ : Type*} {N : Machine τ κ ω} {R : σ → τ → Prop}
    (hstep : ∀ s t c, R s t →
      ∃ d, R (M.step s c).1 (N.step t d).1 ∧ (M.step s c).2 = (N.step t d).2) :
    ∀ (cs : List ι) {s : σ} {t : τ}, R s t →
      ∃ ds, R (M.final s cs) (N.final t ds) ∧
        (M.history s cs).map (·.answer) = (N.history t ds).map (·.answer) := by
  intro cs
  induction cs with
  | nil =>
    intro s t h
    exact ⟨[], h, rfl⟩
  | cons c cs ih =>
    intro s t h
    obtain ⟨d, hnext, hans⟩ := hstep s t c h
    obtain ⟨ds, hfinal, hanswers⟩ := ih hnext
    refine ⟨d :: ds, hfinal, ?_⟩
    rw [history_cons, history_cons, List.map_cons, List.map_cons, hanswers]
    exact congrArg (· :: _) hans

/-- **The purging rule**: calls that change nothing can be left out of a run. The others
find the same states and get the same answers. -/
theorem history_filter {keep : ι → Bool} (hpure : ∀ s c, keep c = false → (M.step s c).1 = s) :
    M.history s (cs.filter keep) = (M.history s cs).filter fun e => keep e.call := by
  induction cs generalizing s with
  | nil => rfl
  | cons c cs ih =>
    rcases hkeep : keep c with _ | _
    · rw [List.filter_cons_of_neg (by simp [hkeep]), history_cons,
        List.filter_cons_of_neg (by simp [event, hkeep]), hpure s c hkeep, ih]
    · rw [List.filter_cons_of_pos hkeep, history_cons, history_cons,
        List.filter_cons_of_pos (by simp [event, hkeep]), ih]

theorem final_filter {keep : ι → Bool} (hpure : ∀ s c, keep c = false → (M.step s c).1 = s) :
    M.final s (cs.filter keep) = M.final s cs := by
  induction cs generalizing s with
  | nil => rfl
  | cons c cs ih =>
    rcases hkeep : keep c with _ | _
    · rw [List.filter_cons_of_neg (by simp [hkeep]), final_cons, hpure s c hkeep, ih]
    · rw [List.filter_cons_of_pos hkeep, final_cons, final_cons, ih]

end Machine

/-! ## Looking back -/

section Since

variable {α : Type*} {P Q : α → Prop} {l : List α} {a : α}

/-- Some entry of a record had `P`, and none has had `Q` since. -/
def Since (P Q : α → Prop) (l : List α) : Prop :=
  ∃ before a after, l = before ++ a :: after ∧ P a ∧ ∀ a' ∈ after, ¬ Q a'

theorem not_since_nil : ¬ Since P Q [] := by
  rintro ⟨before, a, after, h, -⟩
  exact absurd h (by simp)

theorem Since.exists (h : Since P Q l) : ∃ a ∈ l, P a := by
  obtain ⟨before, a, after, rfl, hP, -⟩ := h
  exact ⟨a, List.mem_append_right _ (List.mem_cons_self ..), hP⟩

theorem since_congr {P' : α → Prop} (h : ∀ a ∈ l, P a ↔ P' a) : Since P Q l ↔ Since P' Q l := by
  constructor
  · rintro ⟨before, a, after, rfl, hP, hQ⟩
    exact ⟨before, a, after, rfl, (h a (by simp)).1 hP, hQ⟩
  · rintro ⟨before, a, after, rfl, hP, hQ⟩
    exact ⟨before, a, after, rfl, (h a (by simp)).2 hP, hQ⟩

/-- The last entry sets it, or leaves it as it was. -/
theorem since_concat : Since P Q (l ++ [a]) ↔ P a ∨ (Since P Q l ∧ ¬ Q a) := by
  constructor
  · rintro ⟨before, b, after, h, hP, hQ⟩
    rcases List.eq_nil_or_concat after with rfl | ⟨after, c, rfl⟩
    · obtain ⟨-, heq⟩ := List.append_inj' h rfl
      exact Or.inl (List.singleton_inj.1 heq ▸ hP)
    · rw [List.concat_eq_append, ← List.cons_append, ← List.append_assoc] at h
      obtain ⟨rfl, heq⟩ := List.append_inj' h rfl
      rw [List.concat_eq_append, List.forall_mem_append, ← List.singleton_inj.1 heq] at hQ
      exact Or.inr ⟨⟨before, b, after, rfl, hP, hQ.1⟩, hQ.2 a (List.mem_singleton.2 rfl)⟩
  · rintro (hP | ⟨⟨before, b, after, rfl, hP, hQ⟩, ha⟩)
    · exact ⟨l, a, [], rfl, hP, by simp⟩
    · refine ⟨before, b, after ++ [a], by simp, hP, fun c hc => ?_⟩
      rcases List.mem_append.1 hc with hmem | hlast
      · exact hQ c hmem
      · rw [List.mem_singleton.1 hlast]
        exact ha

end Since

end HkSystem
