import Mathlib.Data.Set.Card
import Mathlib.Data.Fintype.BigOperators
import Mathlib.Data.Fintype.Vector
import Mathlib.Algebra.BigOperators.Fin
import Mathlib.Algebra.BigOperators.Intervals
/-!
# Counting words

How many lists there are over an alphabet with a length between two bounds
(`card_lists`), and how many machine words (`card_uint32`).
-/

namespace HkSystem

namespace Counting

/-- A list with its length between two bounds is a length and a vector. -/
def listsEquiv (α : Type*) (low many : ℕ) :
    {l : List α // low ≤ l.length ∧ l.length < low + many} ≃
      Σ n : Fin many, List.Vector α (low + n) where
  toFun l := ⟨⟨l.1.length - low, by have := l.2; omega⟩, l.1, by have := l.2; simp; omega⟩
  invFun v := ⟨v.2.1, by
    have := v.1.2
    have := v.2.2
    omega⟩
  left_inv _ := rfl
  right_inv := by
    rintro ⟨⟨n, hn⟩, l, hl⟩
    have hlen : l.length - low = n := by
      simp only at hl
      omega
    subst hlen
    rfl

theorem card_lists (α : Type*) [Fintype α] (low many : ℕ) :
    Nat.card {l : List α // low ≤ l.length ∧ l.length < low + many} =
      ∑ n ∈ Finset.Ico low (low + many), Fintype.card α ^ n := by
  rw [Nat.card_congr (listsEquiv α low many), Nat.card_sigma, Finset.sum_Ico_eq_sum_range,
    Nat.add_sub_cancel_left, ← Fin.sum_univ_eq_sum_range (fun n => Fintype.card α ^ (low + n))]
  refine Finset.sum_congr rfl fun n _ => ?_
  rw [Nat.card_eq_fintype_card, card_vector]

theorem card_uint32 : Nat.card UInt32 = 2 ^ 32 := by
  have hfin : UInt32 ≃ Fin UInt32.size := ⟨UInt32.toFin, UInt32.ofFin, fun _ => rfl, fun _ => rfl⟩
  rw [Nat.card_congr hfin, Nat.card_fin]
  rfl

end Counting

end HkSystem
