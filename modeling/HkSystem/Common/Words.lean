import Mathlib.Tactic.Ring
import Mathlib.Data.Int.Basic
/-!
# Fixed-width conversions

The conversions C makes between `int`, `uint32_t`, `size_t` and `long`,
read off at the integers. Each lemma says what a conversion does to a
value below and above the sign change, which is the form `omega` uses.
-/

namespace HkSystem

namespace Words

/-- `(uint32_t)c`: a negative value comes out `2 ^ 32` higher. -/
theorem toNat_toUInt32 (c : Int32) :
    (c.toUInt32.toNat : ℤ) = if 0 ≤ c.toInt then c.toInt else c.toInt + 2 ^ 32 := by
  have h := BitVec.toInt_eq_toNat_cond c.toBitVec
  have hn : c.toBitVec.toNat = c.toUInt32.toNat := rfl
  have hlt := c.toUInt32.toNat_lt
  rw [Int32.toInt_toBitVec, hn] at h
  split at h <;> split <;> omega

/-- `(int)u`: a value with the top bit set comes out `2 ^ 32` lower. -/
theorem toInt_toInt32 (u : UInt32) :
    u.toInt32.toInt = if u.toNat < 2 ^ 31 then (u.toNat : ℤ) else u.toNat - 2 ^ 32 := by
  have h := BitVec.toInt_eq_toNat_cond u.toBitVec
  have hn : u.toBitVec.toNat = u.toNat := rfl
  have hlt := u.toNat_lt
  rw [hn] at h
  change u.toBitVec.toInt = _
  split at h <;> split <;> omega

/-- `(size_t)c` of an `int`: the sign is extended to 64 bits first. -/
def sizeT (c : Int32) : UInt64 := c.toInt64.toUInt64

theorem toNat_sizeT (c : Int32) :
    ((sizeT c).toNat : ℤ) = if 0 ≤ c.toInt then c.toInt else c.toInt + 2 ^ 64 := by
  have h := BitVec.toInt_eq_toNat_cond c.toInt64.toBitVec
  have hn : c.toInt64.toBitVec.toNat = (sizeT c).toNat := rfl
  have hlt := (sizeT c).toNat_lt
  rw [Int64.toInt_toBitVec, hn, Int32.toInt_toInt64] at h
  split at h <;> split <;> omega

/-- A small length passes through `int` unchanged. -/
theorem toNat_sizeT_ofNat {n : ℕ} (h : n < 2 ^ 31) : (sizeT (Int32.ofNat n)).toNat = n := by
  have hsize := toNat_sizeT (Int32.ofNat n)
  rw [Int32.toInt_ofNat_of_lt h] at hsize
  split at hsize <;> omega

/-- `(int)n` of a `size_t`: the low 32 bits, read as signed. -/
def intOfSize (n : UInt64) : Int32 := n.toUInt32.toInt32

theorem toInt_intOfSize (n : UInt64) :
    (intOfSize n).toInt =
      if n.toNat % 2 ^ 32 < 2 ^ 31 then ((n.toNat % 2 ^ 32 : ℕ) : ℤ)
      else ((n.toNat % 2 ^ 32 : ℕ) : ℤ) - 2 ^ 32 := by
  rw [intOfSize, toInt_toInt32, UInt64.toNat_toUInt32]

/-- Signed addition of one below the top of the range does not wrap. -/
theorem toInt_add_one {c : Int32} (h : c.toInt < 2 ^ 31 - 1) : (c + 1).toInt = c.toInt + 1 := by
  have hlo := c.le_toInt
  rw [Int32.toInt_add, Int32.toInt_one]
  exact Int.bmod_eq_of_le (by omega) (by omega)

/-! ## Words in memory -/

/-- The four bytes of a word in memory, the low one first. -/
def bytesLE (w : UInt32) : List UInt8 :=
  [w.toUInt8, (w >>> 8).toUInt8, (w >>> 16).toUInt8, (w >>> 24).toUInt8]

/-- The word that four bytes of memory hold. -/
def wordLE (b₀ b₁ b₂ b₃ : UInt8) : UInt32 :=
  .ofBitVec (b₃.toBitVec ++ b₂.toBitVec ++ b₁.toBitVec ++ b₀.toBitVec)

@[simp] theorem length_bytesLE (w : UInt32) : (bytesLE w).length = 4 := rfl

/-- A byte put after a bit vector. -/
theorem toNat_append_byte {n : ℕ} (x : BitVec n) (b : BitVec 8) :
    (x ++ b).toNat = x.toNat * 2 ^ 8 + b.toNat := by
  rw [BitVec.toNat_append, ← Nat.shiftLeft_add_eq_or_of_lt b.isLt, Nat.shiftLeft_eq]

/-- What is shifted away and what is below it do not meet. -/
theorem mul_pow_or {x y k : ℕ} (h : y < 2 ^ k) : x * 2 ^ k ||| y = x * 2 ^ k + y := by
  rw [← Nat.shiftLeft_eq, Nat.shiftLeft_add_eq_or_of_lt h]

theorem toNat_shiftLeft_byte (b : UInt8) {k : UInt32} (hk : k.toNat ≤ 24) :
    (b.toUInt32 <<< k).toNat = b.toNat * 2 ^ k.toNat := by
  have hb := b.toNat_lt
  have hpow : 2 ^ k.toNat ≤ 2 ^ 24 := Nat.pow_le_pow_right (by omega) hk
  have hlt : b.toNat * 2 ^ k.toNat < 2 ^ 32 :=
    calc b.toNat * 2 ^ k.toNat ≤ b.toNat * 2 ^ 24 := Nat.mul_le_mul_left _ hpow
      _ < 2 ^ 32 := by omega
  rw [UInt32.toNat_shiftLeft, UInt8.toNat_toUInt32, Nat.mod_eq_of_lt (by omega : k.toNat < 32),
    Nat.shiftLeft_eq, Nat.mod_eq_of_lt hlt]

theorem toNat_shiftRight_byte (w : UInt32) {k : UInt32} (hk : k.toNat < 32) :
    (w >>> k).toUInt8.toBitVec.toNat = w.toNat / 2 ^ k.toNat % 2 ^ 8 := by
  change (w >>> k).toUInt8.toNat = _
  rw [UInt32.toNat_toUInt8, UInt32.toNat_shiftRight, Nat.mod_eq_of_lt hk,
    Nat.shiftRight_eq_div_pow]

/-- **A word stored and loaded is the word.** -/
theorem wordLE_bytesLE (w : UInt32) :
    wordLE w.toUInt8 (w >>> 8).toUInt8 (w >>> 16).toUInt8 (w >>> 24).toUInt8 = w := by
  have hw := w.toNat_lt
  have h₀ : w.toUInt8.toBitVec.toNat = w.toNat % 2 ^ 8 := UInt32.toNat_toUInt8 w
  have h₁ : (w >>> 8).toUInt8.toBitVec.toNat = w.toNat / 2 ^ 8 % 2 ^ 8 :=
    toNat_shiftRight_byte w (by decide)
  have h₂ : (w >>> 16).toUInt8.toBitVec.toNat = w.toNat / 2 ^ 16 % 2 ^ 8 :=
    toNat_shiftRight_byte w (by decide)
  have h₃ : (w >>> 24).toUInt8.toBitVec.toNat = w.toNat / 2 ^ 24 % 2 ^ 8 :=
    toNat_shiftRight_byte w (by decide)
  apply UInt32.toNat_inj.1
  change BitVec.toNat _ = _
  rw [wordLE, UInt32.toBitVec_ofBitVec, toNat_append_byte, toNat_append_byte, toNat_append_byte,
    h₀, h₁, h₂, h₃]
  omega

theorem bytesLE_injective : Function.Injective bytesLE := by
  intro w w' h
  simp only [bytesLE, List.cons.injEq, and_true] at h
  obtain ⟨h₀, h₁, h₂, h₃⟩ := h
  rw [← wordLE_bytesLE w, h₀, h₁, h₂, h₃, wordLE_bytesLE w']

end Words

end HkSystem
