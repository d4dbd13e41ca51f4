import Mathlib.Data.List.GetD
import HkSystem.Common.Counting
import HkSystem.Generator.Distinctness
/-!
# How many variants there are

Every number of junk instructions from 5 to 29, every choice of each of them and
every mask is drawn by some sequence of words (`choices_words`), and no two of these
draws give the same bytes. So what the engine can emit is known exactly, and counted
(`variety`).
-/

namespace HkSystem

namespace Generator

/-- The draws a call can come to. -/
def Draw.Possible (d : Draw) : Prop := 5 ≤ d.junk.length ∧ d.junk.length < 30

theorem possible_choices (draws : ℕ → UInt32) (k : ℕ) : (choices draws k).Possible := by
  have hlen : (choices draws k).junk.length = 5 + (draws k).toNat % 25 := by simp [choices]
  rw [Draw.Possible, hlen]
  omega

/-! ## Every possible draw is drawn -/

/-- A word that chooses the instruction. -/
def Junk.word : Junk → UInt32
  | .nop => 0
  | .cld => 1
  | .clc => 2
  | .xchg => 3

theorem Junk.ofDraw_word (j : Junk) : Junk.ofDraw j.word = j := by
  cases j <;> rfl

/-- Words that make the engine come to a draw: the number of junk instructions, the
instructions, and the mask. -/
def Draw.words (d : Draw) : List UInt32 :=
  UInt32.ofNat (d.junk.length - 5) :: (d.junk.map Junk.word ++ [d.mask])

/-- **A source that answers with them leads to the draw.** -/
theorem choices_words {d : Draw} (hd : d.Possible) :
    choices (fun k => d.words.getD k 0) 0 = d := by
  obtain ⟨hmin, hmax⟩ := hd
  obtain ⟨junk, mask⟩ := d
  simp only at hmin hmax
  have hturns : 5 + (UInt32.ofNat (junk.length - 5)).toNat % 25 = junk.length := by
    rw [UInt32.toNat_ofNat_of_lt' (show _ < 2 ^ 32 by omega)]
    omega
  have hword (i : ℕ) : (Draw.words ⟨junk, mask⟩).getD (0 + 1 + i) 0 =
      (junk.map Junk.word ++ [mask]).getD i 0 := by
    rw [Nat.zero_add, Nat.add_comm, Draw.words, List.getD_cons_succ]
  have hfirst : (Draw.words ⟨junk, mask⟩).getD 0 0 = UInt32.ofNat (junk.length - 5) := rfl
  simp only [choices, hword, hfirst, hturns]
  congr 1
  · refine List.ext_getElem (by simp) fun i hi hi' => ?_
    rw [List.getElem_map, List.getElem_range, List.getD_append _ _ _ _ (by simpa using hi'),
      List.getD_eq_getElem _ _ (by simpa using hi'), List.getElem_map, Junk.ofDraw_word]
  · rw [List.getD_append_right _ _ _ _ (by simp), List.length_map, Nat.sub_self]
    rfl

/-! ## What the engine can emit -/

/-- The byte strings a call of the engine can register and leave in `gen_buf`,
whatever its source answers. -/
def emitted (baseAddr : UInt64) (variantId complexity : Int32) (shared : Shared) :
    Set (List UInt8) :=
  {bytes | bytes.length < 2 ^ 31 ∧ ∃ (draws : ℕ → UInt32) (next : ℕ) (written : Shared),
    genApiRequestGeneration (ofSequence draws)
        (fun _ size shared => if size = Int32.ofNat bytes.length then some shared else none)
        baseAddr variantId complexity 0 shared = some (next, written) ∧
      written.genBuf.first bytes.length = bytes}

/-- Sizes of variables of type `int` are told apart. -/
theorem ofNat_inj {m n : ℕ} (hm : m < 2 ^ 31) (hn : n < 2 ^ 31)
    (h : Int32.ofNat m = Int32.ofNat n) : m = n := by
  have hint := congrArg Int32.toInt h
  rw [Int32.toInt_ofNat_of_lt hm, Int32.toInt_ofNat_of_lt hn] at hint
  exact Int.ofNat_inj.mp hint

theorem emitted_eq (baseAddr : UInt64) (variantId complexity : Int32) (shared : Shared) :
    emitted baseAddr variantId complexity shared = Draw.encode '' {d | d.Possible} := by
  ext bytes
  constructor
  · rintro ⟨hlen, draws, next, written, hrun, hbytes⟩
    obtain ⟨-, hmax⟩ := length_choices draws 0
    rw [engine_choices, Option.map_eq_some_iff] at hrun
    obtain ⟨registered, hadd, hpair⟩ := hrun
    obtain ⟨hsize, hwritten⟩ := Option.ite_none_right_eq_some.mp hadd
    have hnum := ofNat_inj (hmax.trans_lt (by decide)) hlen hsize
    refine ⟨choices draws 0, possible_choices draws 0, ?_⟩
    obtain ⟨-, hbuf⟩ := shared.first_withPayload (hmax.trans (by decide))
    rw [← hbytes, ← (Prod.mk.inj hpair).2, ← Option.some.inj hwritten, ← hnum, hbuf]
  · rintro ⟨d, hd, rfl⟩
    obtain ⟨-, hmax⟩ := length_choices (fun k => d.words.getD k 0) 0
    have hrun := engine_choices (fun k => d.words.getD k 0) 0
      (fun _ size shared => if size = Int32.ofNat d.encode.length then some shared else none)
      baseAddr variantId complexity shared
    rw [choices_words hd] at hmax hrun
    rw [if_pos rfl, Option.map_some] at hrun
    exact ⟨hmax.trans_lt (by decide), _, _, _, hrun,
      (shared.first_withPayload (hmax.trans (by decide))).2⟩

/-! ## Their number -/

instance : Fintype Junk := ⟨{.nop, .cld, .clc, .xchg}, fun j => by cases j <;> simp⟩

/-- A possible draw is a list of junk instructions and a mask. -/
def possibleEquiv :
    {d : Draw // d.Possible} ≃ {l : List Junk // 5 ≤ l.length ∧ l.length < 5 + 25} × UInt32 where
  toFun d := (⟨d.1.junk, d.2⟩, d.1.mask)
  invFun p := ⟨⟨p.1.1, p.2⟩, p.1.2⟩
  left_inv _ := rfl
  right_inv _ := rfl

/-- **The variety of variants.** A byte string can be emitted just if it is the
encoding of 5 to 29 junk instructions and a mask, whatever they are; and there are as
many such strings as ways to choose them. -/
theorem variety (baseAddr : UInt64) (variantId complexity : Int32) (shared : Shared) :
    (∀ bytes, bytes ∈ emitted baseAddr variantId complexity shared ↔
      ∃ (junk : List Junk) (mask : UInt32), 5 ≤ junk.length ∧ junk.length ≤ 29 ∧
        bytes = junk.flatMap Junk.encode ++ encodeLogic mask) ∧
    (emitted baseAddr variantId complexity shared).ncard =
      (∑ n ∈ Finset.Icc 5 29, 4 ^ n) * 2 ^ 32 := by
  constructor
  · intro bytes
    rw [emitted_eq]
    constructor
    · rintro ⟨d, hd, rfl⟩
      exact ⟨d.junk, d.mask, hd.1, Nat.le_of_lt_succ hd.2, rfl⟩
    · rintro ⟨junk, mask, hmin, hmax, rfl⟩
      exact ⟨⟨junk, mask⟩, ⟨hmin, Nat.lt_succ_of_le hmax⟩, rfl⟩
  · rw [emitted_eq, Set.ncard_image_of_injective _ beginsNoOther_encode.injective,
      ← Nat.card_coe_set_eq]
    calc Nat.card {d : Draw // d.Possible}
        = Nat.card {l : List Junk // 5 ≤ l.length ∧ l.length < 5 + 25} * Nat.card UInt32 := by
          rw [Nat.card_congr possibleEquiv, Nat.card_prod]
      _ = (∑ n ∈ Finset.Ico 5 (5 + 25), Fintype.card Junk ^ n) * 2 ^ 32 := by
          rw [Counting.card_lists, Counting.card_uint32]
      _ = (∑ n ∈ Finset.Icc 5 29, 4 ^ n) * 2 ^ 32 := rfl

end Generator

end HkSystem
