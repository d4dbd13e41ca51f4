import HkSystem.Common.Machine
/-!
# Machines beside each other

A machine runs beside a second one that sees its state and writes only its own. The first
is not disturbed: its part of a run is its own run on its own calls
(`final_beside_fst`, `history_beside`).
-/

namespace HkSystem

namespace Machine

variable {σ τ ι κ ω : Type*}

/-- `M`, and beside it a machine that sees the state of `M`. -/
def beside (M : Machine σ ι ω) (N : σ → Machine τ κ ω) : Machine (σ × τ) (ι ⊕ κ) ω where
  step s
    | .inl c => (((M.step s.1 c).1, s.2), (M.step s.1 c).2)
    | .inr d => ((s.1, ((N s.1).step s.2 d).1), ((N s.1).step s.2 d).2)

/-- The calls that go to the first machine. -/
def firstCalls (cs : List (ι ⊕ κ)) : List ι := cs.filterMap Sum.getLeft?

/-- The first machine's part of an event, if it was its. -/
def firstEvent? (e : Event (σ × τ) (ι ⊕ κ) ω) : Option (Event σ ι ω) :=
  e.call.getLeft?.map fun c => ⟨e.pre.1, c, e.answer, e.post.1⟩

@[simp] theorem mem_firstCalls {cs : List (ι ⊕ κ)} {c : ι} : c ∈ firstCalls cs ↔ .inl c ∈ cs := by
  simp [firstCalls]

@[simp] theorem firstCalls_map_inl (cs : List ι) :
    firstCalls (cs.map (Sum.inl : ι → ι ⊕ κ)) = cs := by
  rw [firstCalls, List.filterMap_map]
  exact List.filterMap_some

theorem firstCalls_flatten (css : List (List (ι ⊕ κ))) :
    firstCalls css.flatten = (css.map firstCalls).flatten := by
  rw [firstCalls, List.filterMap_flatten]
  rfl

variable {M : Machine σ ι ω} {N : σ → Machine τ κ ω} {s : σ × τ} {cs : List (ι ⊕ κ)}
  {e : Event (σ × τ) (ι ⊕ κ) ω}

/-- **The first machine makes its own run.** -/
theorem final_beside_fst :
    ((M.beside N).final s cs).1 = M.final s.1 (firstCalls cs) := by
  induction cs generalizing s with
  | nil => rfl
  | cons c cs ih =>
    rw [final_cons, ih]
    cases c <;> rfl

theorem history_beside :
    ((M.beside N).history s cs).filterMap firstEvent? = M.history s.1 (firstCalls cs) := by
  induction cs generalizing s with
  | nil => rfl
  | cons c cs ih =>
    cases c with
    | inl c =>
      have hfirst : firstEvent? ((M.beside N).event s (.inl c)) = some (M.event s.1 c) := rfl
      rw [history_cons, List.filterMap_cons_some hfirst, ih]
      rfl
    | inr d =>
      have hfirst : firstEvent? ((M.beside N).event s (.inr d)) = none := rfl
      rw [history_cons, List.filterMap_cons_none hfirst, ih]
      rfl

/-- Its answers are those of its own run. -/
theorem countP_history_beside (p : ω → Bool) :
    ((M.beside N).history s cs).countP (fun e => e.call.isLeft && p e.answer) =
      (M.history s.1 (firstCalls cs)).countP fun e => p e.answer := by
  rw [← history_beside (N := N), List.countP_filterMap]
  refine List.countP_congr fun e _ => ?_
  rcases h : e.call with c | d <;> simp [firstEvent?, h]

/-- A call of the first machine is one of its own run. -/
theorem event_mem_of_inl {c : ι} (he : e ∈ (M.beside N).history s cs) (hc : e.call = .inl c) :
    (⟨e.pre.1, c, e.answer, e.post.1⟩ : Event σ ι ω) ∈ M.history s.1 (firstCalls cs) := by
  rw [← history_beside (N := N)]
  refine List.mem_filterMap.2 ⟨e, he, ?_⟩
  rw [firstEvent?, hc]
  rfl

/-- It leaves the second as it is. -/
theorem post_snd_of_inl {c : ι} (he : e ∈ (M.beside N).history s cs) (hc : e.call = .inl c) :
    e.post.2 = e.pre.2 := by
  obtain ⟨-, hpost⟩ := step_of_mem he
  rw [hpost, hc]
  rfl

/-- A call of the second leaves the first as it is. -/
theorem post_fst_of_inr {d : κ} (he : e ∈ (M.beside N).history s cs) (hd : e.call = .inr d) :
    e.post.1 = e.pre.1 := by
  obtain ⟨-, hpost⟩ := step_of_mem he
  rw [hpost, hd]
  rfl

end Machine

end HkSystem
