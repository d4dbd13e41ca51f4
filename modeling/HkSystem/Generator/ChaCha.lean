import HkSystem.Common.Rfc8439
import HkSystem.Generator.Model.Csprng
/-!
# The Generator's random source — against the standard

`chacha_permute_block` runs the twenty rounds of ChaCha20 and adds the input,
with one slip in `QR`: its last rotation but one takes `b` where the standard
takes `d`. It is no permutation any more (`not_injective_qrWords`), and it is
the standard's quarter round exactly where the two words are the same
(`qr_eq_iff`). The computation is the standard's exactly when they are the
same at each of the eighty quarter rounds; where the blocks agree, they are
the same at least in the last four (`chachaPermuteBlock_rfc8439`).
-/

namespace HkSystem

namespace Generator

open Rfc8439 (rotateLeft quarterArguments twentyRounds)

variable {a b c d : UInt32} {u v w : UInt32 × UInt32 × UInt32 × UInt32} {input : Vector UInt32 16}

/-- `QR`, on four words taken together. -/
def qrWords (w : UInt32 × UInt32 × UInt32 × UInt32) : UInt32 × UInt32 × UInt32 × UInt32 :=
  qr w.1 w.2.1 w.2.2.1 w.2.2.2

theorem quarterRound_eq_apply (out : Vector UInt32 16) (i j k l : Fin 16) :
    quarterRound out i j k l = Lane.apply qrWords out ⟨i, j, k, l⟩ := rfl

/-- One turn of the loop goes over the columns and the diagonals. -/
theorem doubleRound_eq (out : Vector UInt32 16) :
    doubleRound out = Lane.rounds qrWords (Rfc8439.columns ++ Rfc8439.diagonals) out := by
  simp only [doubleRound, quarterRound_eq_apply, Rfc8439.columns, Rfc8439.diagonals,
    List.cons_append, List.nil_append, Lane.rounds_cons, Lane.rounds_nil]

/-- The rounds of the code are the standard's, with `QR` in each. -/
theorem chachaPermuteBlock_eq (input : Vector UInt32 16) :
    chachaPermuteBlock input = Rfc8439.blockWith qrWords input := by
  rw [chachaPermuteBlock, Rfc8439.blockWith, twentyRounds, Lane.rounds_replicate]
  simp only [doubleRound_eq]

/-! ## The quarter round -/

/-- `ROTL` is the rotation. -/
theorem rotl_eq {k : UInt32} (hpos : 0 < k.toNat) (hlt : k.toNat < 32) :
    rotl a k = rotateLeft a k.toNat := by
  have hsub : (32 - k).toNat = 32 - k.toNat := by
    rw [UInt32.toNat_sub_of_le _ _ (UInt32.le_iff_toNat_le.2 hlt.le)]
    rfl
  -- C and the machine take the distance of a shift modulo 32
  have hmod : ∀ x : UInt32, x.toNat < 32 → (x.toBitVec % 32).toNat = x.toNat := by
    intro x hx
    rw [BitVec.toNat_umod]
    exact Nat.mod_eq_of_lt hx
  apply UInt32.toBitVec_inj.1
  rw [rotl, rotateLeft, UInt32.toBitVec_ofBitVec, BitVec.rotateLeft_def, UInt32.toBitVec_or,
    UInt32.toBitVec_shiftLeft, UInt32.toBitVec_shiftRight, BitVec.shiftLeft_eq',
    BitVec.ushiftRight_eq', hmod k hlt, hmod (32 - k) (by omega), hsub, Nat.mod_eq_of_lt hlt]

/-- What `QR` does until it rotates by eight: the words `a`, `b`, `c`, `d`. -/
def firstHalf (w : UInt32 × UInt32 × UInt32 × UInt32) : UInt32 × UInt32 × UInt32 × UInt32 :=
  let (a, b, c, d) := w
  let a := a + b
  let d := rotateLeft (d ^^^ a) 16
  let c := c + d
  let b := rotateLeft (b ^^^ c) 12
  (a + b, b, c, d)

/-- What it does from there, when it rotates `x`. -/
def secondHalf (x : UInt32) (w : UInt32 × UInt32 × UInt32 × UInt32) :
    UInt32 × UInt32 × UInt32 × UInt32 :=
  let (a, b, c, _) := w
  let d := rotateLeft x 8
  let c := c + d
  (a, rotateLeft (b ^^^ c) 7, c, d)

/-- The word the code rotates by eight is the one the standard rotates. -/
def RotatesSame (w : UInt32 × UInt32 × UInt32 × UInt32) : Prop :=
  (firstHalf w).2.1 = (firstHalf w).2.2.2 ^^^ (firstHalf w).1

instance : DecidablePred RotatesSame := fun _ => inferInstanceAs (Decidable (_ = _))

theorem quarterRound_eq (w : UInt32 × UInt32 × UInt32 × UInt32) :
    Rfc8439.quarterRound w = secondHalf ((firstHalf w).2.2.2 ^^^ (firstHalf w).1) (firstHalf w) := rfl

theorem qrWords_eq (w : UInt32 × UInt32 × UInt32 × UInt32) :
    qrWords w = secondHalf (firstHalf w).2.1 (firstHalf w) := by
  have hrot : ∀ a, rotl a 16 = rotateLeft a 16 ∧ rotl a 12 = rotateLeft a 12 ∧
      rotl a 8 = rotateLeft a 8 ∧ rotl a 7 = rotateLeft a 7 := fun a =>
    ⟨rotl_eq (by decide) (by decide), rotl_eq (by decide) (by decide),
      rotl_eq (by decide) (by decide), rotl_eq (by decide) (by decide)⟩
  simp only [qrWords, qr, hrot]
  rfl

/-- The second half gives back the word that was rotated, and `b`. -/
theorem eq_of_secondHalf_eq {x y : UInt32} (h : secondHalf x u = secondHalf y v) :
    x = y ∧ u.2.1 = v.2.1 := by
  obtain ⟨a, b, c, d⟩ := u
  obtain ⟨a', b', c', d'⟩ := v
  simp only [secondHalf, Prod.mk.injEq] at h
  obtain ⟨-, hb, hc, hd⟩ := h
  rw [hc] at hb
  exact ⟨Rfc8439.rotateLeft_injective 8 hd,
    (UInt32.xor_left_inj _).1 (Rfc8439.rotateLeft_injective 7 hb)⟩

/-- What comes out of `QR` can come out of the standard's quarter round only where
the two rotate the same word. -/
theorem rotatesSame_of_eq (h : qrWords u = Rfc8439.quarterRound v) : RotatesSame v := by
  rw [qrWords_eq, quarterRound_eq] at h
  obtain ⟨hrotated, hb⟩ := eq_of_secondHalf_eq h
  rw [RotatesSame, ← hb, hrotated]

/-- **`QR` is the standard's quarter round exactly where they rotate the same
word.** -/
theorem qr_eq_iff : qrWords w = Rfc8439.quarterRound w ↔ RotatesSame w := by
  constructor
  · exact rotatesSame_of_eq
  · intro h
    rw [qrWords_eq, quarterRound_eq, h]

/-- What was in `d` is only seen in the sum `c`. -/
theorem qr_forgets {c' d' : UInt32}
    (h : c + rotl (d ^^^ (a + b)) 16 = c' + rotl (d' ^^^ (a + b)) 16) :
    qr a b c d = qr a b c' d' := by
  simp only [qr, h]

/-- So `QR` is not a permutation. -/
theorem not_injective_qrWords : ¬ Function.Injective qrWords := by
  intro hinj
  have heq : qrWords (0, 0, 1, 0) = qrWords (0, 0, 0, 0x10000) := qr_forgets (by decide)
  exact absurd (hinj heq) (by decide)

/-! ## The block -/

/-- The four words of each diagonal at the end of the rounds are those its last
quarter round leaves. -/
theorem rotatesSame_last (h : chachaPermuteBlock input = Rfc8439.block input) :
    ∀ w ∈ (quarterArguments input).drop 76, RotatesSame w := by
  intro w hw
  rw [chachaPermuteBlock_eq, Rfc8439.block, Rfc8439.blockWith_inj, Rfc8439.twentyRounds_eq,
    Lane.rounds_append, Lane.rounds_append] at h
  have hdistinct : ∀ x ∈ Rfc8439.diagonals, x.Distinct := by decide
  rw [Rfc8439.drop_quarterArguments] at hw
  obtain ⟨x, hx, rfl⟩ := Lane.mem_arguments_of_pairwise Rfc8439.diagonals_pairwise hw
  have hwords : x.words _ = x.words _ := congrArg x.words h
  rw [Lane.words_rounds_of_pairwise hdistinct Rfc8439.diagonals_pairwise hx,
    Lane.words_rounds_of_pairwise hdistinct Rfc8439.diagonals_pairwise hx] at hwords
  exact rotatesSame_of_eq hwords

/-- **Where the code is ChaCha20.** It goes through the states of the standard
exactly when the word it rotates by eight is the standard's at each of the
eighty quarter rounds, and then it returns the standard's block. A block it
returns is the standard's only if that word is the same in the last four. -/
theorem chachaPermuteBlock_rfc8439 (input : Vector UInt32 16) :
    (Lane.states qrWords twentyRounds input = Lane.states Rfc8439.quarterRound twentyRounds input ↔
        ∀ w ∈ quarterArguments input, RotatesSame w) ∧
      ((∀ w ∈ quarterArguments input, RotatesSame w) →
        chachaPermuteBlock input = Rfc8439.block input) ∧
      (chachaPermuteBlock input = Rfc8439.block input →
        ∀ w ∈ (quarterArguments input).drop 76, RotatesSame w) := by
  refine ⟨?_, fun h => ?_, rotatesSame_last⟩
  · rw [Lane.states_eq_iff Rfc8439.distinct_of_mem]
    exact forall₂_congr fun w _ => qr_eq_iff
  · rw [chachaPermuteBlock_eq, Rfc8439.block, Rfc8439.blockWith_inj]
    exact Lane.rounds_congr fun w hw => qr_eq_iff.2 (h w hw)

/-- Zeros stay zeros, so that all words are the same. -/
theorem chachaPermuteBlock_zero :
    chachaPermuteBlock (.replicate 16 0) = Rfc8439.block (.replicate 16 0) := by
  have hall : (quarterArguments (.replicate 16 0)).all (fun w => decide (RotatesSame w)) = true := by
    decide +kernel
  exact (chachaPermuteBlock_rfc8439 _).2.1
    fun w hw => of_decide_eq_true (List.all_eq_true.1 hall w hw)

/-- The state of the standard's test vector is taken to another block. -/
theorem chachaPermuteBlock_ne :
    chachaPermuteBlock #v[0x61707865, 0x3320646e, 0x79622d32, 0x6b206574, 0x03020100, 0x07060504,
        0x0b0a0908, 0x0f0e0d0c, 0x13121110, 0x17161514, 0x1b1a1918, 0x1f1e1d1c, 0x00000001,
        0x09000000, 0x4a000000, 0x00000000] ≠
      Rfc8439.block #v[0x61707865, 0x3320646e, 0x79622d32, 0x6b206574, 0x03020100, 0x07060504,
        0x0b0a0908, 0x0f0e0d0c, 0x13121110, 0x17161514, 0x1b1a1918, 0x1f1e1d1c, 0x00000001,
        0x09000000, 0x4a000000, 0x00000000] := by
  decide +kernel

end Generator

end HkSystem
