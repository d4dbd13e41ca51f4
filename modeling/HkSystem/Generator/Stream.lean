import HkSystem.Generator.Csprng
import Mathlib.Data.List.Nodup
import Mathlib.Tactic.Ring
/-!
# The Generator's random source — its stream

Four static variables stand for one sequence of words. Block `k` is what
`chacha_permute_block` makes of the initial state with `k` added to word 12,
and call `n` hands out word `n % 16` of block `n / 16` (`streamWord`). The
invariant `Buffered` says where the variables stand before call `n`: it is
kept by a call (`requestSecureRandom_buffered`), so it holds along a run of
any length, and the first call establishes it by reading the timestamp
counter.
-/

namespace HkSystem

namespace Generator

variable {rdtsc : ℕ → ℕ → UInt32 × UInt32} {init : Vector UInt32 16} {c : Csprng} {n : ℕ}

/-! ## The words and their blocks -/

/-- The state `initialize_hardware_entropy` sets up from its readings. -/
def initialState (rdtsc : ℕ → UInt32 × UInt32) : Vector UInt32 16 :=
  (initializeHardwareEntropy rdtsc .boot).chachaState

theorem twelve_lt_sixteen : 12 < 16 := by decide

/-- The initial state with `k` added to word 12. -/
def blockInput (init : Vector UInt32 16) (k : ℕ) : Vector UInt32 16 :=
  init.set 12 (init.get ⟨12, twelve_lt_sixteen⟩ + UInt32.ofNat k) twelve_lt_sixteen

/-- Word `n % 16` of block `n / 16`. -/
def streamWord (init : Vector UInt32 16) (n : ℕ) : UInt32 :=
  (chachaPermuteBlock (blockInput init (n / 16))).get ⟨n % 16, Nat.mod_lt n (by decide)⟩

theorem blockInput_zero (init : Vector UInt32 16) : blockInput init 0 = init := by
  refine Vector.ext fun i hi => ?_
  rw [blockInput, Vector.getElem_set]
  split
  · next h =>
    subst h
    exact UInt32.add_zero _
  · rfl

@[simp] theorem get_blockInput (init : Vector UInt32 16) (k : ℕ) :
    (blockInput init k).get 12 = init.get 12 + UInt32.ofNat k :=
  Vector.getElem_set_self _

/-- The counter, moved on by one. -/
theorem blockInput_succ (init : Vector UInt32 16) (k : ℕ) :
    (blockInput init k).set 12 ((blockInput init k).get 12 + 1) twelve_lt_sixteen =
      blockInput init (k + 1) := by
  have hcount : init.get 12 + UInt32.ofNat k + 1 = init.get 12 + UInt32.ofNat (k + 1) := by
    rw [UInt32.ofNat_add, UInt32.add_assoc]
    rfl
  rw [get_blockInput, hcount, blockInput, Vector.set_set]
  rfl

/-- Every word but the counter is the initial one. -/
theorem blockInput_get_of_ne (init : Vector UInt32 16) (k : ℕ) {i : Fin 16} (h : i ≠ 12) :
    (blockInput init k).get i = init.get i :=
  Vector.getElem_set_ne _ _ fun heq => h (Fin.ext heq.symm)

/-- **The first `2 ^ 32` inputs are pairwise distinct.** -/
theorem blockInput_injOn {i j : ℕ} (hi : i < 2 ^ 32) (hj : j < 2 ^ 32)
    (h : blockInput init i = blockInput init j) : i = j := by
  have hcount : init.get 12 + UInt32.ofNat i = init.get 12 + UInt32.ofNat j := by
    rw [← get_blockInput, ← get_blockInput, h]
  have hnat := congrArg UInt32.toNat ((UInt32.add_right_inj _).1 hcount)
  rwa [UInt32.toNat_ofNat_of_lt' hi, UInt32.toNat_ofNat_of_lt' hj] at hnat

/-- Block by block, the words of the stream are the blocks. -/
theorem map_streamWord (init : Vector UInt32 16) (k : ℕ) :
    (List.range (16 * k)).map (streamWord init) =
      (List.range k).flatMap fun i => (chachaPermuteBlock (blockInput init i)).toList := by
  induction k with
  | zero => rfl
  | succ k ih =>
    have hblock : (List.range 16).map (fun i => streamWord init (16 * k + i)) =
        (chachaPermuteBlock (blockInput init k)).toList := by
      refine List.ext_getElem (by simp) fun i hi _ => ?_
      have hlt : i < 16 := by simpa using hi
      have hdiv : (16 * k + i) / 16 = k := by omega
      have hmod : (16 * k + i) % 16 = i := by omega
      simp only [List.getElem_map, List.getElem_range, streamWord, hdiv, hmod,
        Vector.getElem_toList]
      rfl
    rw [Nat.mul_succ, List.range_add, List.map_append, List.map_map, ih, List.range_succ (n := k),
      List.flatMap_append, List.flatMap_singleton, ← hblock]
    rfl

/-! ## One call -/

/-- What a call gives to `chacha_permute_block`, if it refills the stream. -/
def Csprng.refillInput (rdtsc : ℕ → UInt32 × UInt32) (c : Csprng) : Option (Vector UInt32 16) :=
  if (c.entered rdtsc).chachaIndex = 16 then some (c.entered rdtsc).chachaState else none

/-- The variables before call `n`. Behind a block the buffered stream is used
up, and the state is already the next input. -/
structure Buffered (init : Vector UInt32 16) (n : ℕ) (c : Csprng) : Prop where
  ready : c.isCsprngReady = true
  state : c.chachaState = blockInput init ((n + 15) / 16)
  stream : n % 16 ≠ 0 → c.chachaStream = chachaPermuteBlock (blockInput init (n / 16))
  index : c.chachaIndex = if n % 16 = 0 then 16 else n % 16

/-- The variables when call `n` reads its word. -/
structure Filled (init : Vector UInt32 16) (n : ℕ) (c : Csprng) : Prop where
  ready : c.isCsprngReady = true
  state : c.chachaState = blockInput init (n / 16 + 1)
  stream : c.chachaStream = chachaPermuteBlock (blockInput init (n / 16))
  index : c.chachaIndex = n % 16

theorem Buffered.index_le (h : Buffered init n c) : c.chachaIndex ≤ 16 := by
  rw [h.index]
  split <;> omega

/-- The index says whether a block is used up. -/
theorem Buffered.index_eq_iff (h : Buffered init n c) : c.chachaIndex = 16 ↔ n % 16 = 0 := by
  rw [h.index]
  split <;> omega

theorem Buffered.entered (h : Buffered init n c) (r : ℕ → UInt32 × UInt32) :
    c.entered r = c := if_pos h.ready

theorem Buffered.filled (h : Buffered init n c) : Filled init n c.filled := by
  unfold Csprng.filled
  by_cases hn : n % 16 = 0
  · -- the block is used up, and the state is the input of the next one
    have hinput : (n + 15) / 16 = n / 16 := by omega
    rw [if_pos (h.index_eq_iff.2 hn)]
    refine ⟨h.ready, ?_, ?_, hn.symm⟩
    · rw [Csprng.refill, h.state, hinput]
      exact blockInput_succ init (n / 16)
    · rw [Csprng.refill, h.state, hinput]
  · have hinput : (n + 15) / 16 = n / 16 + 1 := by omega
    rw [if_neg fun hidx => hn (h.index_eq_iff.1 hidx)]
    exact ⟨h.ready, hinput ▸ h.state, h.stream hn, by rw [h.index, if_neg hn]⟩

/-- The word is read and the index moved on. -/
theorem Filled.next (h : Filled init n c) :
    Buffered init (n + 1) { c with chachaIndex := c.chachaIndex + 1 } := by
  refine ⟨h.ready, ?_, fun hn => ?_, ?_⟩
  · have hinput : (n + 1 + 15) / 16 = n / 16 + 1 := by omega
    rw [hinput]
    exact h.state
  · have hblock : (n + 1) / 16 = n / 16 := by omega
    rw [hblock]
    exact h.stream
  · have hindex := h.index
    show c.chachaIndex + 1 = _
    split <;> omega

/-- **A call hands out the next word**, and refills the stream when a block is
used up. -/
theorem requestSecureRandom_buffered {r : ℕ → UInt32 × UInt32}
    (h : Buffered init n (c.entered r)) :
    ∃ c', requestSecureRandom r c = some (streamWord init n, c') ∧ Buffered init (n + 1) c' ∧
      c.refillInput r = if n % 16 = 0 then some (blockInput init (n / 16)) else none := by
  have hfilled := h.filled
  refine ⟨_, ?_, hfilled.next, ?_⟩
  · have hread : (c.entered r).filled.chachaStream[(c.entered r).filled.chachaIndex]? =
        some (streamWord init n) := by
      rw [hfilled.stream, hfilled.index]
      exact Vector.getElem?_eq_getElem (Nat.mod_lt n (by decide))
    rw [requestSecureRandom_eq, hread, Option.map_some]
  · unfold Csprng.refillInput
    by_cases hn : n % 16 = 0
    · have hinput : (n + 15) / 16 = n / 16 := by omega
      rw [if_pos (h.index_eq_iff.2 hn), if_pos hn, h.state, hinput]
    · rw [if_neg fun hidx => hn (h.index_eq_iff.1 hidx), if_neg hn]

/-- The first call starts a stream. -/
theorem buffered_boot (r : ℕ → UInt32 × UInt32) :
    Buffered (initialState r) 0 (Csprng.boot.entered r) :=
  ⟨rfl, (blockInput_zero (initialState r)).symm, fun h => absurd rfl h, rfl⟩

/-! ## Any number of calls -/

/-- What a number of calls have handed out, the inputs of their refills, and the
variables behind them. -/
structure Requests where
  words : List UInt32
  inputs : List (Vector UInt32 16)
  csprng : Csprng

/-- The first `n` calls, each with the readings the counter would give it. -/
def requests (rdtsc : ℕ → ℕ → UInt32 × UInt32) : ℕ → Option Requests
  | 0 => some ⟨[], [], .boot⟩
  | n + 1 => do
    let t ← requests rdtsc n
    let (word, csprng) ← requestSecureRandom (rdtsc n) t.csprng
    some ⟨t.words ++ [word], t.inputs ++ (t.csprng.refillInput (rdtsc n)).toList, csprng⟩

/-- The inputs of the refills, once one more call has been made. -/
theorem inputs_succ (init : Vector UInt32 16) (n : ℕ) :
    (List.range ((n + 15) / 16)).map (blockInput init) ++
        (if n % 16 = 0 then some (blockInput init (n / 16)) else none).toList =
      (List.range ((n + 1 + 15) / 16)).map (blockInput init) := by
  by_cases hn : n % 16 = 0
  · have hbefore : (n + 15) / 16 = n / 16 := by omega
    have hafter : (n + 1 + 15) / 16 = n / 16 + 1 := by omega
    rw [if_pos hn, hbefore, hafter, List.range_succ, List.map_append]
    rfl
  · have hsame : (n + 1 + 15) / 16 = (n + 15) / 16 := by omega
    rw [if_neg hn, hsame, Option.toList_none, List.append_nil]

/-- **A run of calls.** -/
theorem requests_buffered (rdtsc : ℕ → ℕ → UInt32 × UInt32) (n : ℕ) :
    ∃ t, requests rdtsc n = some t ∧
      t.words = (List.range n).map (streamWord (initialState (rdtsc 0))) ∧
      t.inputs = (List.range ((n + 15) / 16)).map (blockInput (initialState (rdtsc 0))) ∧
      Buffered (initialState (rdtsc 0)) n (t.csprng.entered (rdtsc n)) ∧
      (n = 0 ∨ t.csprng.isCsprngReady) := by
  induction n with
  | zero => exact ⟨_, rfl, rfl, rfl, buffered_boot (rdtsc 0), Or.inl rfl⟩
  | succ n ih =>
    obtain ⟨t, ht, hwords, hinputs, hbuf, -⟩ := ih
    obtain ⟨c', hcall, hnext, hrefill⟩ := requestSecureRandom_buffered hbuf
    refine ⟨⟨t.words ++ [streamWord (initialState (rdtsc 0)) n],
      t.inputs ++ (t.csprng.refillInput (rdtsc n)).toList, c'⟩, ?_, ?_, ?_, ?_, Or.inr hnext.ready⟩
    · rw [requests, ht, Option.bind_eq_bind, Option.bind_some, hcall]
      rfl
    · rw [hwords, List.range_succ, List.map_append]
      rfl
    · rw [hinputs, hrefill]
      exact inputs_succ _ n
    · rw [hnext.entered]
      exact hnext

/-- The inputs of the first `2 ^ 32` refills differ. -/
theorem nodup_inputs (init : Vector UInt32 16) (k : ℕ) :
    (((List.range k).map (blockInput init)).take (2 ^ 32)).Nodup := by
  rw [← List.map_take, List.take_range]
  refine List.Nodup.map_on (fun i hi j hj h => ?_) List.nodup_range
  rw [List.mem_range] at hi hj
  exact blockInput_injOn (by omega) (by omega) h

/-- **The buffered source is the stream of blocks.** Whatever the timestamp
counter gives, every call returns, and call `n` returns word `n % 16` of the
block of the initial state with `n / 16` added to word 12. The words of `16 * k`
calls are `k` blocks one behind the other, so none is skipped or repeated. The
index stays inside `0..16`; after the first call has set up the state only its
word 12 changes; and the inputs of the first `2 ^ 32` refills differ. -/
theorem requestSecureRandom_stream (rdtsc : ℕ → ℕ → UInt32 × UInt32) :
    (∀ n, ∃ t, requests rdtsc n = some t ∧
      (∃ c', requestSecureRandom (rdtsc n) t.csprng =
        some (streamWord (initialState (rdtsc 0)) n, c')) ∧
      t.words = (List.range n).map (streamWord (initialState (rdtsc 0))) ∧
      t.csprng.chachaIndex ≤ 16 ∧
      (∀ i : Fin 16, i ≠ 12 → 0 < n →
        t.csprng.chachaState.get i = (initialState (rdtsc 0)).get i) ∧
      t.inputs = (List.range ((n + 15) / 16)).map (blockInput (initialState (rdtsc 0))) ∧
      (t.inputs.take (2 ^ 32)).Nodup) ∧
    ∀ k, ∃ t, requests rdtsc (16 * k) = some t ∧
      t.words = (List.range k).flatMap fun i =>
        (chachaPermuteBlock (blockInput (initialState (rdtsc 0)) i)).toList := by
  refine ⟨fun n => ?_, fun k => ?_⟩
  · obtain ⟨t, ht, hwords, hinputs, hbuf, hready⟩ := requests_buffered rdtsc n
    obtain ⟨c', hcall, -⟩ := requestSecureRandom_buffered hbuf
    refine ⟨t, ht, ⟨c', hcall⟩, hwords, ?_, fun i hi hn => ?_, hinputs, ?_⟩
    · rw [← chachaIndex_entered (rdtsc n)]
      exact hbuf.index_le
    · have henter : t.csprng.entered (rdtsc n) = t.csprng := if_pos (hready.resolve_left (by omega))
      have hstate := hbuf.state
      rw [henter] at hstate
      rw [hstate, blockInput_get_of_ne _ _ hi]
    · rw [hinputs]
      exact nodup_inputs _ _
  · obtain ⟨t, ht, hwords, -⟩ := requests_buffered rdtsc (16 * k)
    exact ⟨t, ht, hwords.trans (map_streamWord _ k)⟩

end Generator

end HkSystem
