import Mathlib.Data.List.Basic
/-!
# Codes no word of which begins another

A code is a map to strings. In one where no codeword begins another
(`BeginsNoOther`) a string has at most one reading, also where it is cut off: a
sequence of codewords, closed by a codeword that is told apart from those of
the sequence, is such a code again (`BeginsNoOther.sequence`).
-/

namespace HkSystem

namespace Code

variable {α β γ : Type} {enc : α → List β} {last : γ → List β}

/-- No codeword begins the codeword of something else. -/
def BeginsNoOther (enc : α → List β) : Prop := ∀ a b, enc a <+: enc b → a = b

/-- The codewords of two codes are told apart: neither begins the other. -/
def ToldApart (enc : α → List β) (last : γ → List β) : Prop :=
  ∀ a c, ¬ enc a <+: last c ∧ ¬ last c <+: enc a

theorem BeginsNoOther.injective (h : BeginsNoOther enc) : Function.Injective enc :=
  fun a b hab => h a b (hab ▸ List.prefix_refl (enc a))

/-- Codewords of one length. -/
theorem beginsNoOther_of_length {n : ℕ} (hlen : ∀ a, (enc a).length = n)
    (hinj : Function.Injective enc) : BeginsNoOther enc := by
  intro a b hab
  have hlength : (enc a).length = (enc b).length := by rw [hlen, hlen]
  exact hinj (hab.eq_of_length hlength)

/-- Of two codewords in front of the same string, one begins the other. -/
theorem comparable {u v s t : List β} (h : u ++ s <+: v ++ t) : u <+: v ∨ v <+: u :=
  List.prefix_or_prefix_of_prefix ((List.prefix_append u s).trans h) (List.prefix_append v t)

/-- **A sequence of codewords, closed by one of another kind.** -/
theorem BeginsNoOther.sequence (henc : BeginsNoOther enc) (hlast : BeginsNoOther last)
    (hapart : ToldApart enc last) :
    BeginsNoOther fun p : List α × γ => p.1.flatMap enc ++ last p.2 := by
  rintro ⟨as, c⟩ ⟨bs, d⟩ h
  -- the two sequences are read off from the front, codeword by codeword
  induction as generalizing bs with
  | nil =>
    cases bs with
    | nil =>
      have hcd : last c <+: last d := h
      rw [hlast c d hcd]
    | cons b bs =>
      simp only [List.flatMap_nil, List.nil_append, List.flatMap_cons, List.append_assoc] at h
      rw [← List.append_nil (last c)] at h
      rcases comparable h with hcb | hbc
      · exact absurd hcb (hapart b c).2
      · exact absurd hbc (hapart b c).1
  | cons a as ih =>
    simp only [List.flatMap_cons, List.append_assoc] at h
    cases bs with
    | nil =>
      have had : enc a <+: last d := (List.prefix_append (enc a) _).trans h
      exact absurd had (hapart a d).1
    | cons b bs =>
      simp only [List.flatMap_cons, List.append_assoc] at h
      have hab : a = b := by
        rcases comparable h with hab | hba
        · exact henc a b hab
        · exact (henc b a hba).symm
      subst hab
      have hrest : as.flatMap enc ++ last c <+: bs.flatMap enc ++ last d :=
        (List.prefix_append_right_inj (enc a)).1 h
      obtain ⟨rfl, rfl⟩ := Prod.mk.inj (ih bs hrest)
      rfl

end Code

end HkSystem
