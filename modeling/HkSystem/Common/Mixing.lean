import Mathlib.Algebra.Ring.Parity
import Mathlib.Data.Nat.ModEq
import Mathlib.Data.Nat.Prime.Basic
/-!
# Mixing steps

The steps byte-at-a-time hashes are made of, on words of any width: a word
added to its own left shift, and a word xored with its own right shift. Both
are injective. A fold whose step is injective in the running value, and in
the letter it absorbs, tells apart any two strings that differ in one place
(`foldl_set_ne`).
-/

namespace HkSystem

namespace Mixing

variable {w k : ℕ}

/-! ## Words -/

theorem toNat_add_shiftLeft (x : BitVec w) :
    (x + x <<< k).toNat = x.toNat * (1 + 2 ^ k) % 2 ^ w := by
  rw [BitVec.toNat_add, BitVec.toNat_shiftLeft, Nat.shiftLeft_eq, Nat.add_mod_mod, Nat.mul_add,
    Nat.mul_one]

/-- A word added to its own left shift is the word times an odd number, which
loses nothing modulo a power of two. -/
theorem add_shiftLeft_injective (hk : 0 < k) :
    Function.Injective fun x : BitVec w => x + x <<< k := by
  intro x y h
  have hodd : Odd (1 + 2 ^ k) := odd_one.add_even (even_two.pow_of_ne_zero hk.ne')
  have hgcd : Nat.gcd (2 ^ w) (1 + 2 ^ k) = 1 := (Nat.coprime_two_left.2 hodd).pow_left w
  have hmul : x.toNat * (1 + 2 ^ k) ≡ y.toNat * (1 + 2 ^ k) [MOD 2 ^ w] := by
    have hnat := congrArg BitVec.toNat h
    rw [toNat_add_shiftLeft, toNat_add_shiftLeft] at hnat
    exact hnat
  have hmod := Nat.ModEq.cancel_right_of_coprime hgcd hmul
  exact BitVec.eq_of_toNat_eq (hmod.eq_of_lt_of_lt x.isLt y.isLt)

/-- A word xored with its own right shift: the top bits stand as they were, and
each bit below is masked by one above it. -/
theorem xor_ushiftRight_injective (hk : 0 < k) :
    Function.Injective fun x : BitVec w => x ^^^ (x >>> k) := by
  intro x y h
  -- from the top bit down; `d` is the distance of the bit from the top
  have hbits : ∀ d i, w ≤ i + d → x.getLsbD i = y.getLsbD i := by
    intro d
    induction d using Nat.strong_induction_on with
    | _ d ih =>
      intro i hi
      rcases Nat.lt_or_ge i w with hlt | hge
      · have habove : x.getLsbD (k + i) = y.getLsbD (k + i) :=
          ih (d - k) (by omega) (k + i) (by omega)
        have hbit : (x ^^^ (x >>> k)).getLsbD i = (y ^^^ (y >>> k)).getLsbD i :=
          congrArg (BitVec.getLsbD · i) h
        rw [BitVec.getLsbD_xor, BitVec.getLsbD_xor, BitVec.getLsbD_ushiftRight,
          BitVec.getLsbD_ushiftRight, habove] at hbit
        exact Bool.xor_left_inj.1 hbit
      · rw [BitVec.getLsbD_of_ge x i hge, BitVec.getLsbD_of_ge y i hge]
  exact BitVec.eq_of_getLsbD_eq fun i _ => hbits w i (by omega)

/-- A rotation only moves the bits. -/
theorem rotateLeft_injective {w : ℕ} (hw : 0 < w) (n : ℕ) :
    Function.Injective fun x : BitVec w => x.rotateLeft n := by
  intro x y h
  have hn := Nat.mod_lt n hw
  refine BitVec.eq_of_getLsbD_eq fun i hi => ?_
  -- the place bit `i` has gone to
  obtain ⟨j, hj⟩ : ∃ j, ∀ z : BitVec w, (z.rotateLeft n).getLsbD j = z.getLsbD i := by
    rcases Nat.lt_or_ge (i + n % w) w with hlt | hge
    · refine ⟨i + n % w, fun z => ?_⟩
      rw [BitVec.getLsbD_rotateLeft, decide_eq_false (by omega), decide_eq_true hlt,
        Nat.add_sub_cancel, cond_false, Bool.true_and]
    · refine ⟨i + n % w - w, fun z => ?_⟩
      have hback : w - n % w + (i + n % w - w) = i := by omega
      rw [BitVec.getLsbD_rotateLeft, decide_eq_true (by omega), hback, cond_true]
  rw [← hj x, ← hj y]
  exact congrArg (·.getLsbD j) h

/-! ## Folds -/

variable {σ α : Type*} {step : σ → α → σ} {l : List α} {i : ℕ} {a b : α}

/-- A fold loses nothing of the value it starts from if no step does. -/
theorem foldl_injective (hstep : ∀ a, Function.Injective fun s => step s a) (l : List α) :
    Function.Injective fun s => l.foldl step s := by
  induction l with
  | nil => exact Function.injective_id
  | cons a l ih => exact ih.comp (hstep a)

/-- **One letter changed changes the fold**: the running values differ from that
letter on, and no later step brings them together. -/
theorem foldl_set_ne (hstep : ∀ a, Function.Injective fun s => step s a)
    (hletter : ∀ s, Function.Injective (step s)) (hget : l[i]? = some a) (hne : b ≠ a) (s : σ) :
    (l.set i b).foldl step s ≠ l.foldl step s := by
  induction l generalizing i s with
  | nil => cases hget
  | cons c l ih =>
    cases i with
    | zero =>
      obtain rfl : c = a := Option.some.inj hget
      intro heq
      exact hne (hletter s (foldl_injective hstep l heq))
    | succ i => exact ih hget (step s c)

end Mixing

end HkSystem
