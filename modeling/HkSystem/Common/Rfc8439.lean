import HkSystem.Common.Lanes
import HkSystem.Common.Mixing
/-!
# ChaCha20, after RFC 8439

The block function: ten double rounds of the quarter round, over the columns
and then over the diagonals of a four by four matrix of words, and the
addition of the input word by word. The rounds are given for any quarter
round, and the standard's is `quarterRound`.
-/

namespace HkSystem

namespace Rfc8439

/-- The rotation of a word to the left. -/
def rotateLeft (x : UInt32) (n : ℕ) : UInt32 := .ofBitVec (x.toBitVec.rotateLeft n)

/-- The quarter round (2.1). -/
def quarterRound (w : UInt32 × UInt32 × UInt32 × UInt32) : UInt32 × UInt32 × UInt32 × UInt32 :=
  let a := w.1
  let b := w.2.1
  let c := w.2.2.1
  let d := w.2.2.2
  let a := a + b
  let d := rotateLeft (d ^^^ a) 16
  let c := c + d
  let b := rotateLeft (b ^^^ c) 12
  let a := a + b
  let d := rotateLeft (d ^^^ a) 8
  let c := c + d
  let b := rotateLeft (b ^^^ c) 7
  (a, b, c, d)

section Lanes

local instance neZero_sixteen : NeZero 16 := ⟨by decide⟩

/-- The columns of the state (2.3). -/
def columns : List (Lane 16) :=
  [⟨0, 4, 8, 12⟩, ⟨1, 5, 9, 13⟩, ⟨2, 6, 10, 14⟩, ⟨3, 7, 11, 15⟩]

/-- Its diagonals (2.3). -/
def diagonals : List (Lane 16) :=
  [⟨0, 5, 10, 15⟩, ⟨1, 6, 11, 12⟩, ⟨2, 7, 8, 13⟩, ⟨3, 4, 9, 14⟩]

end Lanes

/-- The lanes of ten double rounds. -/
def twentyRounds : List (Lane 16) := (List.replicate 10 (columns ++ diagonals)).flatten

/-- The block function with a given quarter round. -/
def blockWith (q : UInt32 × UInt32 × UInt32 × UInt32 → UInt32 × UInt32 × UInt32 × UInt32)
    (input : Vector UInt32 16) : Vector UInt32 16 :=
  (Lane.rounds q twentyRounds input).zipWith (· + ·) input

/-- **The ChaCha20 block function** (2.3). -/
def block (input : Vector UInt32 16) : Vector UInt32 16 := blockWith quarterRound input

theorem rotateLeft_injective (n : ℕ) : Function.Injective fun x => rotateLeft x n :=
  fun _ _ h => UInt32.toBitVec_inj.1
    (Mixing.rotateLeft_injective (w := 32) (by decide) n (congrArg UInt32.toBitVec h))

/-- The words of the eighty quarter rounds. -/
def quarterArguments (input : Vector UInt32 16) : List (UInt32 × UInt32 × UInt32 × UInt32) :=
  Lane.arguments quarterRound twentyRounds input

/-- All rounds but the last. -/
def nineteenRounds : List (Lane 16) :=
  (List.replicate 9 (columns ++ diagonals)).flatten ++ columns

/-- The last round is over the diagonals. -/
theorem twentyRounds_eq : twentyRounds = nineteenRounds ++ diagonals := by
  decide

theorem distinct_of_mem : ∀ x ∈ twentyRounds, x.Distinct := by
  decide

/-- No word is on two diagonals. -/
theorem diagonals_pairwise : diagonals.Pairwise Lane.Disjoint := by
  decide

/-- The last four quarter rounds are those over the diagonals. -/
theorem drop_quarterArguments (input : Vector UInt32 16) :
    (quarterArguments input).drop 76 = Lane.arguments quarterRound diagonals
      (Lane.rounds quarterRound nineteenRounds input) := by
  rw [quarterArguments, twentyRounds_eq, Lane.arguments_append, List.drop_left']
  rw [Lane.length_arguments]
  decide

/-- Adding the input loses nothing. -/
theorem zipWith_add_inj {n : ℕ} {x y input : Vector UInt32 n} :
    x.zipWith (· + ·) input = y.zipWith (· + ·) input ↔ x = y := by
  constructor
  · intro h
    refine Vector.ext fun i hi => ?_
    have hword : (x.zipWith (· + ·) input)[i] = (y.zipWith (· + ·) input)[i] := by rw [h]
    rw [Vector.getElem_zipWith, Vector.getElem_zipWith] at hword
    exact (UInt32.add_left_inj _).1 hword
  · intro h
    rw [h]

/-- Two blocks are the same exactly when the rounds end in the same state. -/
theorem blockWith_inj {q q' : UInt32 × UInt32 × UInt32 × UInt32 → UInt32 × UInt32 × UInt32 × UInt32}
    {input : Vector UInt32 16} :
    blockWith q' input = blockWith q input ↔
      Lane.rounds q' twentyRounds input = Lane.rounds q twentyRounds input := zipWith_add_inj

/-- The test vector of 2.3.2. -/
example : block #v[0x61707865, 0x3320646e, 0x79622d32, 0x6b206574, 0x03020100, 0x07060504,
    0x0b0a0908, 0x0f0e0d0c, 0x13121110, 0x17161514, 0x1b1a1918, 0x1f1e1d1c, 0x00000001,
    0x09000000, 0x4a000000, 0x00000000] =
    #v[0xe4e7f110, 0x15593bd1, 0x1fdd0f50, 0xc47120a3, 0xc7f4d1c7, 0x0368c033, 0x9aaa2204,
      0x4e6cd4c3, 0x466482d2, 0x09aa9f07, 0x05d7c214, 0xa2028bd9, 0xd19c12b5, 0xb94e16de,
      0xe883d0cb, 0x4e3c50a2] := by
  decide +kernel

end Rfc8439

end HkSystem
