import HkSystem.Generator.ChaCha
import HkSystem.Generator.Stream
/-!
# Words that depend on each other

The slip in `QR` has a price. The last rotation but one takes `b`, so `b` can be read
off `d`, and of the four words a quarter round leaves, the second is a function of
the third and the fourth (`qrWords_dependent`). The last round goes over the
diagonals and the input is added to what it leaves, so four words of every block of
the stream can be told from eight others and from the words of the seed
(`stream_dependent`).
-/

namespace HkSystem

namespace Generator

open Rfc8439 (rotateLeft diagonals nineteenRounds)

/-- The rotation by eight is undone by one by twenty-four. -/
theorem rotateLeft_rotateLeft_eight (x : UInt32) : rotateLeft (rotateLeft x 8) 24 = x := by
  have hbits : (x.toBitVec.rotateLeft 8).rotateLeft 24 = x.toBitVec := by
    refine BitVec.eq_of_getLsbD_eq fun i hi => ?_
    rw [BitVec.getLsbD_rotateLeft, BitVec.getLsbD_rotateLeft, BitVec.getLsbD_rotateLeft]
    -- the low 24 bits come from above bit 8, the high ones from below it
    rcases Nat.lt_or_ge i 24 with h | h
    · simp [h, show ¬ 8 + i < 8 by omega, show 8 + i < 32 by omega]
    · simp [show ¬ i < 24 by omega, show i - 24 < 8 by omega, hi, show 24 + (i - 24) = i by omega]
  rw [rotateLeft, rotateLeft, UInt32.toBitVec_ofBitVec, hbits]

/-- The second word of a quarter round, from the third and the fourth. -/
def secondWord (c d : UInt32) : UInt32 := rotateLeft (rotateLeft d 24 ^^^ c) 7

/-- **`QR` leaves only three words that are free.** -/
theorem qrWords_dependent (w : UInt32 × UInt32 × UInt32 × UInt32) :
    (qrWords w).2.1 = secondWord (qrWords w).2.2.1 (qrWords w).2.2.2 := by
  rw [qrWords_eq]
  change rotateLeft ((firstHalf w).2.1 ^^^ _) 7 = rotateLeft (rotateLeft (rotateLeft _ 8) 24 ^^^ _) 7
  rw [rotateLeft_rotateLeft_eight]
  rfl

/-- **Four words of a block are determined by eight others and the input.** -/
theorem chachaPermuteBlock_dependent (input : Vector UInt32 16) {x : Lane 16} (hx : x ∈ diagonals) :
    (chachaPermuteBlock input).get x.j =
      secondWord ((chachaPermuteBlock input).get x.k - input.get x.k)
        ((chachaPermuteBlock input).get x.l - input.get x.l) + input.get x.j := by
  have hdistinct : ∀ x ∈ diagonals, x.Distinct := by decide
  have hget : ∀ p : Fin 16, (chachaPermuteBlock input).get p =
      (Lane.rounds qrWords Rfc8439.twentyRounds input).get p + input.get p := by
    intro p
    rw [chachaPermuteBlock_eq, Rfc8439.blockWith]
    exact Vector.getElem_zipWith ..
  have hwords := Lane.words_rounds_of_pairwise (q := qrWords)
    (s := Lane.rounds qrWords nineteenRounds input) hdistinct Rfc8439.diagonals_pairwise hx
  rw [← Lane.rounds_append, ← Rfc8439.twentyRounds_eq] at hwords
  have hdep := qrWords_dependent (x.words (Lane.rounds qrWords nineteenRounds input))
  rw [← hwords] at hdep
  rw [hget, hget, hget, UInt32.add_sub_cancel, UInt32.add_sub_cancel]
  exact congrArg (· + input.get x.j) hdep

/-- **The stream gives away a quarter of its words.** In every block, the word at the
second place of a diagonal is the one that the words at the third and the fourth
place determine, with the words of the seed at these places; only word 12 of the
seed is counted up from block to block. -/
theorem stream_dependent (init : Vector UInt32 16) (n : ℕ) {x : Lane 16} (hx : x ∈ diagonals) :
    streamWord init (16 * n + x.j) =
      secondWord (streamWord init (16 * n + x.k) - (blockInput init n).get x.k)
        (streamWord init (16 * n + x.l) - (blockInput init n).get x.l) +
          (blockInput init n).get x.j := by
  have hword : ∀ p : Fin 16, streamWord init (16 * n + p) =
      (chachaPermuteBlock (blockInput init n)).get p := by
    intro p
    have hdiv : (16 * n + p) / 16 = n := by omega
    have hmod : (16 * n + p) % 16 = p := by omega
    simp only [streamWord, hdiv, hmod]
  rw [hword, hword, hword]
  exact chachaPermuteBlock_dependent (blockInput init n) hx

/-- Word 21 of the stream, from words 26 and 31 and the seed. -/
theorem stream_dependent_second :
    streamWord (initialState fun _ => (0, 0)) 21 =
      secondWord
          (streamWord (initialState fun _ => (0, 0)) 26 -
            (blockInput (initialState fun _ => (0, 0)) 1).get 10)
          (streamWord (initialState fun _ => (0, 0)) 31 -
            (blockInput (initialState fun _ => (0, 0)) 1).get 15) +
        (blockInput (initialState fun _ => (0, 0)) 1).get 5 :=
  @stream_dependent (initialState fun _ => (0, 0)) 1 ⟨0, 5, 10, 15⟩ (by decide)

end Generator

end HkSystem
