import Mathlib.Data.List.Basic
/-!
# Lists of results that may fail

A list is gone through with a function that may fail: all of it succeeds if every
element does (`mapM_of_forall`), and one failure fails it (`mapM_of_none`). A table is
searched by its keys (`lookup_of_mem`).
-/

namespace HkSystem

namespace Fallible

variable {α β : Type*}

theorem mapM_of_forall {f : α → Option β} {g : α → β} {l : List α}
    (h : ∀ a ∈ l, f a = some (g a)) : l.mapM f = some (l.map g) := by
  induction l with
  | nil => rfl
  | cons a l ih =>
    rw [List.mapM_cons, h a (List.mem_cons_self ..), ih fun b hb => h b (List.mem_cons_of_mem _ hb)]
    rfl

theorem mapM_of_none {f : α → Option β} {l : List α} {a : α} (ha : a ∈ l) (h : f a = none) :
    l.mapM f = none := by
  induction l with
  | nil => cases ha
  | cons b l ih =>
    rw [List.mapM_cons]
    rcases List.mem_cons.1 ha with rfl | ha
    · rw [h]
      rfl
    · rw [ih ha]
      cases f b <;> rfl

/-- Under a key that is there once, the table has what was put there. -/
theorem lookup_of_mem [BEq α] [LawfulBEq α] {table : List (α × β)} {key : α} {value : β}
    (hnodup : (table.map Prod.fst).Nodup) (h : (key, value) ∈ table) :
    table.lookup key = some value := by
  induction table with
  | nil => cases h
  | cons entry table ih =>
    rw [List.map_cons, List.nodup_cons] at hnodup
    rcases List.mem_cons.1 h with rfl | h
    · exact List.lookup_cons_self
    · have hne : (key == entry.1) = false := by
        refine beq_eq_false_iff_ne.2 ?_
        rintro rfl
        exact hnodup.1 (List.mem_map.2 ⟨_, h, rfl⟩)
      rw [List.lookup_cons, hne]
      exact ih hnodup.2 h

end Fallible

end HkSystem
