import HkSystem.Common.Words
import HkSystem.Tpm.Model.Sha256
import Mathlib.Data.List.GetD
import Mathlib.Tactic.IntervalCases
/-!
# fTPM — the streaming SHA-256 is the standard's

`sha256_transform` is the standard's compression function on the buffer
(`sha256Transform_state`). A context that has absorbed a message holds it
as its complete blocks, hashed into the chaining state, and a tail shorter
than a block, in the buffer (`Absorbed`); one more byte keeps that, whether
or not it completes a block, and `sha256_final` turns it into the digest
through either padding branch.
-/

namespace HkSystem

namespace Tpm

open Fips180 (Words8 hashBytes compress schedule)

variable {ctx : Sha256Ctx} {data : Region 64} {x t m : List UInt8} {b : UInt8}

/-! ## The compression function -/

/-- The macro is a rotation, for the amounts it is used at. -/
theorem rotr_eq {x n : UInt32} (h₀ : 0 < n.toNat) (h : n.toNat < 32) :
    rotr x n = Fips180.rotr n.toNat x := by
  have hsub : (4294967296 - n.toNat) % 32 = 32 - n.toNat := by omega
  apply UInt32.toBitVec_inj.1
  apply BitVec.eq_of_toNat_eq
  simp [rotr, Fips180.rotr, BitVec.rotateRight_def, Nat.mod_eq_of_lt h, hsub]

theorem ep0_eq (x : UInt32) : ep0 x = Fips180.bigSigma0 x := by
  unfold ep0 Fips180.bigSigma0
  rw [rotr_eq (by decide) (by decide), rotr_eq (by decide) (by decide),
    rotr_eq (by decide) (by decide)]
  rfl

theorem ep1_eq (x : UInt32) : ep1 x = Fips180.bigSigma1 x := by
  unfold ep1 Fips180.bigSigma1
  rw [rotr_eq (by decide) (by decide), rotr_eq (by decide) (by decide),
    rotr_eq (by decide) (by decide)]
  rfl

theorem sig0_eq (x : UInt32) : sig0 x = Fips180.smallSigma0 x := by
  unfold sig0 Fips180.smallSigma0
  rw [rotr_eq (by decide) (by decide), rotr_eq (by decide) (by decide)]
  rfl

theorem sig1_eq (x : UInt32) : sig1 x = Fips180.smallSigma1 x := by
  unfold sig1 Fips180.smallSigma1
  rw [rotr_eq (by decide) (by decide), rotr_eq (by decide) (by decide)]
  rfl

/-- **The table is the standard's**: each entry is the fractional part of
the cube root of its prime. -/
theorem sha256K_eq : ∀ i < 64, sha256K.getD i 0 = Fips180.roundConstant i := by
  decide +kernel

/-- And so is the initial state. -/
theorem sha256Init_state : (sha256Init ctx).state = Fips180.initialHash := by
  have h : Fips180.initialHash = ⟨0x6a09e667, 0xbb67ae85, 0x3c6ef372, 0xa54ff53a, 0x510e527f,
      0x9b05688c, 0x1f83d9ab, 0x5be0cd19⟩ := by decide +kernel
  rw [h]
  rfl

theorem toNat_word (b₀ b₁ b₂ b₃ : UInt8) : (Fips180.word b₀ b₁ b₂ b₃).toNat =
    ((b₀.toNat * 2 ^ 8 + b₁.toNat) * 2 ^ 8 + b₂.toNat) * 2 ^ 8 + b₃.toNat := by
  change BitVec.toNat _ = _
  rw [Fips180.word, UInt32.toBitVec_ofBitVec, Words.toNat_append_byte, Words.toNat_append_byte,
    Words.toNat_append_byte]
  rfl

/-- Shifting four bytes into place puts them end to end. -/
theorem word_eq (b₀ b₁ b₂ b₃ : UInt8) :
    (b₀.toUInt32 <<< 24) ||| (b₁.toUInt32 <<< 16) ||| (b₂.toUInt32 <<< 8) ||| b₃.toUInt32 =
      Fips180.word b₀ b₁ b₂ b₃ := by
  have h₁ := b₁.toNat_lt
  have h₂ := b₂.toNat_lt
  have h₃ := b₃.toNat_lt
  have hs₀ : (b₀.toUInt32 <<< 24).toNat = b₀.toNat * 2 ^ 24 :=
    Words.toNat_shiftLeft_byte b₀ (by decide)
  have hs₁ : (b₁.toUInt32 <<< 16).toNat = b₁.toNat * 2 ^ 16 :=
    Words.toNat_shiftLeft_byte b₁ (by decide)
  have hs₂ : (b₂.toUInt32 <<< 8).toNat = b₂.toNat * 2 ^ 8 :=
    Words.toNat_shiftLeft_byte b₂ (by decide)
  -- each byte lies below the ones in front of it, so the disjunctions are sums
  have hor₁ : b₀.toNat * 2 ^ 24 ||| b₁.toNat * 2 ^ 16 =
      (b₀.toNat * 2 ^ 8 + b₁.toNat) * 2 ^ 16 := by
    rw [Words.mul_pow_or (by omega)]
    omega
  have hor₂ : (b₀.toNat * 2 ^ 8 + b₁.toNat) * 2 ^ 16 ||| b₂.toNat * 2 ^ 8 =
      ((b₀.toNat * 2 ^ 8 + b₁.toNat) * 2 ^ 8 + b₂.toNat) * 2 ^ 8 := by
    rw [Words.mul_pow_or (by omega)]
    omega
  apply UInt32.toNat_inj.1
  rw [toNat_word, UInt32.toNat_or, UInt32.toNat_or, UInt32.toNat_or, hs₀, hs₁, hs₂,
    UInt8.toNat_toUInt32, hor₁, hor₂, Words.mul_pow_or (by omega)]

theorem blockByte_eq {j : ℕ} (hj : j < 64) :
    blockByte data j = ((data.first 64).getD j 0).toUInt32 := by
  rw [blockByte, List.getD_eq_getElem?_getD, Region.getElem?_first le_rfl hj]

/-- The first loop reads the words of the block. -/
theorem getD_loadWords {i : ℕ} (hi : i < 16) :
    (loadWords data).getD i 0 = schedule (data.first 64) i := by
  rw [Fips180.schedule_of_lt hi, loadWords, List.getD_eq_getElem?_getD, List.getElem?_map,
    List.getElem?_range hi]
  simp only [Option.map_some, Option.getD_some]
  rw [blockByte_eq (by omega), blockByte_eq (by omega), blockByte_eq (by omega),
    blockByte_eq (by omega), word_eq]
  rfl

/-- The second loop, run as far as word `16 + n`, has computed the
schedule up to there. -/
theorem extendWords_upto : ∀ n : ℕ,
    let m := (List.range' 16 n).foldl (fun m i =>
      m ++ [sig1 (m.getD (i - 2) 0) + m.getD (i - 7) 0 + sig0 (m.getD (i - 15) 0) +
        m.getD (i - 16) 0]) (loadWords data)
    m.length = 16 + n ∧ ∀ i < 16 + n, m.getD i 0 = schedule (data.first 64) i := by
  intro n
  induction n with
  | zero => exact ⟨by simp [loadWords], fun i hi => getD_loadWords hi⟩
  | succ n ih =>
    obtain ⟨hlen, hget⟩ := ih
    rw [List.range'_concat, List.foldl_append, Nat.one_mul, List.foldl_cons, List.foldl_nil]
    refine ⟨by rw [List.length_append, hlen]; rfl, fun i hi => ?_⟩
    -- the words before stay, and the new one is built from words before it
    rcases Nat.lt_or_ge i (16 + n) with h | h
    · rw [List.getD_append _ _ _ _ (by rw [hlen]; exact h), hget i h]
    · have hin : i = 16 + n := by omega
      subst hin
      rw [List.getD_append_right _ _ _ _ (by rw [hlen]), hlen, Nat.sub_self,
        List.getD_cons_zero, Fips180.schedule_of_ge (by omega), hget _ (by omega),
        hget _ (by omega), hget _ (by omega), hget _ (by omega), sig0_eq, sig1_eq]

/-- **The message schedule is the standard's.** -/
theorem getD_extendWords {i : ℕ} (hi : i < 64) :
    (extendWords (loadWords data)).getD i 0 = schedule (data.first 64) i :=
  (extendWords_upto 48).2 i hi

theorem roundBody_eq {v : Words8} {i : ℕ} (hi : i < 64) :
    roundBody (extendWords (loadWords data)) v i = Fips180.round (data.first 64) v i := by
  unfold roundBody Fips180.round
  rw [getD_extendWords hi, sha256K_eq i hi, ep0_eq, ep1_eq]
  rfl

/-- The rounds, up to any one of the sixty-four. -/
theorem rounds_eq (v : Words8) : ∀ n ≤ 64,
    (List.range n).foldl (roundBody (extendWords (loadWords data))) v =
      (List.range n).foldl (Fips180.round (data.first 64)) v := by
  intro n hn
  induction n with
  | zero => rw [List.range_zero, List.foldl_nil, List.foldl_nil]
  | succ n ih =>
    rw [List.range_succ, List.foldl_append, List.foldl_append, ih (by omega), List.foldl_cons,
      List.foldl_nil, List.foldl_cons, List.foldl_nil, roundBody_eq (by omega)]

/-- **`sha256_transform` is the compression function.** -/
theorem sha256Transform_state :
    (sha256Transform ctx data).state = compress ctx.state (data.first 64) := by
  have hrounds := @rounds_eq data ctx.state 64 le_rfl
  simp only [sha256Transform, compress, Words8.add, hrounds]
  ext : 1 <;> exact UInt32.add_comm _ _

/-- And it changes nothing else. -/
theorem sha256Transform_eq :
    sha256Transform ctx data =
      ⟨ctx.data, ctx.datalen, ctx.bitlen, compress ctx.state (data.first 64)⟩ := by
  rw [← sha256Transform_state]
  unfold sha256Transform
  with_reducible rfl

/-! ## Absorbing a message -/

/-- **What a context holds of a message** `x ++ t`: the blocks `x` are in
the chaining state, the tail `t` is in the buffer. -/
structure Absorbed (ctx : Sha256Ctx) (x t : List UInt8) : Prop where
  blocks : ∃ n, x.length = 64 * n
  tail : t.length < 64
  datalen : ctx.datalen.toNat = t.length
  data : ctx.data.first t.length = t
  bitlen : ctx.bitlen = UInt64.ofNat (8 * x.length)
  state : ctx.state = hashBytes Fips180.initialHash x

theorem absorbed_init : Absorbed (sha256Init ctx) [] [] where
  blocks := ⟨0, rfl⟩
  tail := by decide
  datalen := rfl
  data := rfl
  bitlen := rfl
  state := by rw [sha256Init_state, Fips180.hashBytes_of_lt (by decide)]

/-- The index just past the end of the message. -/
theorem toNat_datalen_succ (h : Absorbed ctx x t) : (ctx.datalen + 1).toNat = t.length + 1 := by
  have ht := h.tail
  rw [UInt32.toNat_add, h.datalen]
  change (t.length + 1) % 2 ^ 32 = _
  omega

/-- **One byte more.** The store stays inside the buffer, and the context
holds the message with the byte at its end. -/
theorem updateByte_absorbed (h : Absorbed ctx x t) (b : UInt8) :
    ∃ ctx' x' t', updateByte ctx b = some ctx' ∧ x' ++ t' = x ++ t ++ [b] ∧
      Absorbed ctx' x' t' := by
  have ht := h.tail
  obtain ⟨n, hn⟩ := h.blocks
  obtain ⟨data', hset⟩ := Region.set?_isSome (r := ctx.data) (b := b) ht
  have hfirst : data'.first (t.length + 1) = t ++ [b] := by
    rw [Region.first_of_set? hset, h.data]
  have hlen := toNat_datalen_succ h
  unfold updateByte
  rw [h.datalen, hset, Option.bind_eq_bind, Option.bind_some]
  simp only [sha256Transform_eq]
  by_cases hfull : ctx.datalen + 1 = 64
  · -- the byte completes a block, which is hashed away
    have h64 : t.length + 1 = 64 := by rw [← hlen, hfull]; rfl
    rw [h64] at hfirst
    rw [if_pos hfull]
    refine ⟨_, x ++ (t ++ [b]), [], rfl, by simp, ?_⟩
    refine ⟨⟨n + 1, ?_⟩, by decide, rfl, rfl, ?_, ?_⟩
    · simp only [List.length_append, List.length_singleton]
      omega
    · simp only
      rw [h.bitlen, List.length_append, List.length_append, List.length_singleton, h64,
        Nat.mul_add, UInt64.ofNat_add]
      rfl
    · simp only
      rw [h.state, hfirst, Fips180.hashBytes_append n hn,
        Fips180.hashBytes_single (x := t ++ [b]) (by simpa using h64)]
  · -- the byte joins the tail
    have h64 : t.length + 1 ≠ 64 := by
      intro heq
      apply hfull
      apply UInt32.toNat_inj.1
      rw [hlen, heq]
      rfl
    rw [if_neg hfull]
    refine ⟨_, x, t ++ [b], rfl, by rw [List.append_assoc], ?_⟩
    refine ⟨⟨n, hn⟩, ?_, ?_, ?_, h.bitlen, h.state⟩
    · rw [List.length_append, List.length_singleton]
      omega
    · rw [List.length_append, List.length_singleton]
      exact hlen
    · rw [List.length_append, List.length_singleton]
      exact hfirst

/-- Step after step, where each step absorbs the bytes it is given. -/
theorem foldlM_absorbed {β : Type} {f : Sha256Ctx → β → Option Sha256Ctx}
    {bytes : β → List UInt8}
    (hf : ∀ {ctx x t} (b : β), Absorbed ctx x t → ∃ ctx' x' t', f ctx b = some ctx' ∧
      x' ++ t' = x ++ t ++ bytes b ∧ Absorbed ctx' x' t') :
    ∀ (l : List β) {ctx : Sha256Ctx} {x t : List UInt8}, Absorbed ctx x t →
      ∃ ctx' x' t', l.foldlM f ctx = some ctx' ∧ x' ++ t' = x ++ t ++ l.flatMap bytes ∧
        Absorbed ctx' x' t' := by
  intro l
  induction l with
  | nil =>
    intro ctx x t h
    exact ⟨ctx, x, t, rfl, by simp, h⟩
  | cons b l ih =>
    intro ctx x t h
    obtain ⟨ctx₁, x₁, t₁, hup, happ, h₁⟩ := hf b h
    obtain ⟨ctx₂, x₂, t₂, hup₂, happ₂, h₂⟩ := ih h₁
    refine ⟨ctx₂, x₂, t₂, ?_, ?_, h₂⟩
    · rw [List.foldlM_cons, hup]
      exact hup₂
    · rw [happ₂, happ, List.flatMap_cons, List.append_assoc]

/-- A chunk more. -/
theorem sha256Update_absorbed (bytes : List UInt8) (h : Absorbed ctx x t) :
    ∃ ctx' x' t', sha256Update ctx bytes = some ctx' ∧ x' ++ t' = x ++ t ++ bytes ∧
      Absorbed ctx' x' t' := by
  have hfold := foldlM_absorbed (fun b h => updateByte_absorbed h b) bytes h
  rwa [List.flatMap_singleton'] at hfold

/-- **Any list of chunks.** -/
theorem chunks_absorbed (chunks : List (List UInt8)) (h : Absorbed ctx x t) :
    ∃ ctx' x' t', chunks.foldlM sha256Update ctx = some ctx' ∧
      x' ++ t' = x ++ t ++ chunks.flatten ∧ Absorbed ctx' x' t' := by
  have hfold := foldlM_absorbed sha256Update_absorbed chunks h
  rwa [List.flatMap_id'] at hfold

/-! ## The last blocks -/

/-- A byte of a word, cut out by shifting and masking. -/
theorem stateByte_eq (w k : UInt32) (hk : k.toNat < 32) :
    ((w >>> k) &&& 0xff).toUInt8 = .ofBitVec (w.toBitVec.extractLsb' k.toNat 8) := by
  have hones : ∀ i (hi : i < 8), (255#8)[i] = true := by decide
  apply UInt8.toBitVec_inj.1
  apply BitVec.eq_of_getLsbD_eq
  intro i hi
  simp [hi, hones, Nat.mod_eq_of_lt hk]

theorem stateBytes_eq (w : UInt32) : stateBytes w = Fips180.wordBytes w := by
  unfold stateBytes
  rw [stateByte_eq w 24 (by decide), stateByte_eq w 16 (by decide), stateByte_eq w 8 (by decide),
    stateByte_eq w 0 (by decide)]
  simp [Fips180.wordBytes, List.range_succ]

/-- A byte of the bit count, cut out by shifting. -/
theorem bitlenByte_eq {l : ℕ} (hl : l < 2 ^ 64) (k : UInt64) (hk : k.toNat < 64) :
    (UInt64.ofNat l >>> k).toUInt8 = UInt8.ofNat (l / 2 ^ k.toNat) := by
  apply UInt8.toNat_inj.1
  rw [UInt64.toNat_toUInt8, UInt64.toNat_shiftRight, UInt64.toNat_ofNat_of_lt' hl,
    UInt8.toNat_ofNat', Nat.mod_eq_of_lt hk, Nat.shiftRight_eq_div_pow]

/-- The eight stores append the length to the first 56 bytes. -/
theorem storeBitlen_eq {l : ℕ} (hl : l < 2 ^ 64) :
    ∃ data', storeBitlen data (UInt64.ofNat l) = some data' ∧
      data'.first 64 = data.first 56 ++ Fips180.lengthBytes l := by
  obtain ⟨d₁, h₁⟩ := Region.set?_isSome (r := data) (i := 63)
    (b := (UInt64.ofNat l).toUInt8) (by decide)
  obtain ⟨d₂, h₂⟩ := Region.set?_isSome (r := d₁) (i := 62)
    (b := (UInt64.ofNat l >>> 8).toUInt8) (by decide)
  obtain ⟨d₃, h₃⟩ := Region.set?_isSome (r := d₂) (i := 61)
    (b := (UInt64.ofNat l >>> 16).toUInt8) (by decide)
  obtain ⟨d₄, h₄⟩ := Region.set?_isSome (r := d₃) (i := 60)
    (b := (UInt64.ofNat l >>> 24).toUInt8) (by decide)
  obtain ⟨d₅, h₅⟩ := Region.set?_isSome (r := d₄) (i := 59)
    (b := (UInt64.ofNat l >>> 32).toUInt8) (by decide)
  obtain ⟨d₆, h₆⟩ := Region.set?_isSome (r := d₅) (i := 58)
    (b := (UInt64.ofNat l >>> 40).toUInt8) (by decide)
  obtain ⟨d₇, h₇⟩ := Region.set?_isSome (r := d₆) (i := 57)
    (b := (UInt64.ofNat l >>> 48).toUInt8) (by decide)
  obtain ⟨d₈, h₈⟩ := Region.set?_isSome (r := d₇) (i := 56)
    (b := (UInt64.ofNat l >>> 56).toUInt8) (by decide)
  refine ⟨d₈, ?_, ?_⟩
  · simp only [storeBitlen, Option.bind_eq_bind, h₁, h₂, h₃, h₄, h₅, h₆, h₇, h₈, Option.bind_some]
  -- what each store puts down is a byte of `l`
  have hzero : (UInt64.ofNat l).toUInt8 = UInt8.ofNat l := by
    rw [UInt64.toUInt8_ofNat']
  rw [hzero] at h₁
  rw [bitlenByte_eq hl 8 (by decide)] at h₂
  rw [bitlenByte_eq hl 16 (by decide)] at h₃
  rw [bitlenByte_eq hl 24 (by decide)] at h₄
  rw [bitlenByte_eq hl 32 (by decide)] at h₅
  rw [bitlenByte_eq hl 40 (by decide)] at h₆
  rw [bitlenByte_eq hl 48 (by decide)] at h₇
  rw [bitlenByte_eq hl 56 (by decide)] at h₈
  have hlen : (data.first 56 ++ Fips180.lengthBytes l).length = 64 := by
    rw [List.length_append, Region.length_first (by decide), Fips180.length_lengthBytes]
  have hiff := Region.first_eq_iff (r := d₈) (l := data.first 56 ++ Fips180.lengthBytes l)
    (by rw [hlen])
  rw [hlen] at hiff
  refine hiff.2 fun j hj => ?_
  rw [Region.get?_of_set? h₈, Region.get?_of_set? h₇, Region.get?_of_set? h₆,
    Region.get?_of_set? h₅, Region.get?_of_set? h₄, Region.get?_of_set? h₃,
    Region.get?_of_set? h₂, Region.get?_of_set? h₁]
  -- below 56 no store has hit; from there on each byte is the last store to it
  rcases Nat.lt_or_ge j 56 with h | h
  · rw [if_neg (by omega), if_neg (by omega), if_neg (by omega), if_neg (by omega),
      if_neg (by omega), if_neg (by omega), if_neg (by omega), if_neg (by omega),
      List.getElem?_append_left (by rw [Region.length_first (by decide)]; exact h),
      Region.getElem?_first (by decide) h]
  · rw [List.getElem?_append_right (by rw [Region.length_first (by decide)]; exact h),
      Region.length_first (by decide)]
    interval_cases j <;> simp [Fips180.lengthBytes, List.range_succ]

/-- The zero bytes the standard puts between `0x80` and the length. -/
theorem zeroBytes_eq {n : ℕ} (hx : x.length = 64 * n) (ht : t.length < 64) :
    Fips180.zeroBits (8 * (x ++ t).length) / 8 =
      if t.length < 56 then 55 - t.length else 119 - t.length := by
  rw [Fips180.zeroBits_eq, List.length_append, hx]
  split <;> omega

/-- The bit count of the whole message, from that of its blocks. -/
theorem bitlen_eq (h : Absorbed ctx x t) :
    ctx.bitlen + (ctx.datalen * 8).toUInt64 = UInt64.ofNat (8 * (x ++ t).length) := by
  have ht := h.tail
  have hmul : (ctx.datalen * 8).toNat = t.length * 8 := by
    rw [UInt32.toNat_mul, h.datalen]
    change (t.length * 8) % 2 ^ 32 = _
    omega
  apply UInt64.toNat_inj.1
  rw [UInt64.toNat_add, UInt32.toNat_toUInt64, hmul, h.bitlen, UInt64.toNat_ofNat',
    UInt64.toNat_ofNat', List.length_append]
  omega

/-- The second half turns a padded buffer into the digest. -/
theorem outputHash_eq (ctx : Sha256Ctx) {l : ℕ} (hl : l < 2 ^ 64)
    (hbit : ctx.bitlen + (ctx.datalen * 8).toUInt64 = UInt64.ofNat l) :
    ∃ ctx', outputHash ctx =
      some (ctx', (compress ctx.state (ctx.data.first 56 ++ Fips180.lengthBytes l)).bytes) := by
  obtain ⟨d, hstore, hfirst⟩ := @storeBitlen_eq ctx.data l hl
  refine ⟨sha256Transform { ctx with data := d, bitlen := UInt64.ofNat l } d, ?_⟩
  simp only [outputHash, hbit, hstore, Option.bind_eq_bind, Option.bind_some, sha256Transform_eq,
    hfirst, stateBytes_eq]
  rfl

/-- What is left of the first `k` bytes after that index. -/
theorem toNat_rest (h : Absorbed ctx x t) {k : UInt32} (hk : t.length < k.toNat) :
    (k - (ctx.datalen + 1)).toNat = k.toNat - (t.length + 1) := by
  have hi := toNat_datalen_succ h
  rw [UInt32.toNat_sub_of_le _ _ (by rw [UInt32.le_iff_toNat_le, hi]; exact hk), hi]

/-- Storing `0x80` after the tail, then zeros up to `k`, stays inside the
buffer and makes its first `k` bytes. -/
theorem pad_upto (h : Absorbed ctx x t) {k : UInt32} (hk : t.length < k.toNat)
    (h64 : k.toNat ≤ 64) :
    ∃ d₁ d₂ : Region 64, ctx.data.set? ctx.datalen.toNat 0x80 = some d₁ ∧
      d₁.fill? (ctx.datalen + 1).toNat (k - (ctx.datalen + 1)).toNat 0 = some d₂ ∧
      d₂.first k.toNat = t ++ 0x80 :: List.replicate (k.toNat - 1 - t.length) 0 := by
  rw [toNat_rest h hk, toNat_datalen_succ h, h.datalen]
  obtain ⟨d₁, h₁⟩ := Region.set?_isSome (r := ctx.data) (b := 0x80) h.tail
  obtain ⟨d₂, h₂⟩ := Region.fill?_isSome (r := d₁) (b := 0)
    (show t.length + 1 + (k.toNat - (t.length + 1)) ≤ 64 by omega)
  refine ⟨d₁, d₂, h₁, h₂, ?_⟩
  have hfirst := Region.first_of_fill? h₂
  rw [Region.first_of_set? h₁, h.data, Nat.add_sub_cancel' hk] at hfirst
  rw [hfirst, List.append_assoc, Nat.sub_sub, Nat.add_comm 1]
  rfl

/-- **The last block, where the length fits after the tail.** -/
theorem sha256Final_short (h : Absorbed ctx x t) (hlen : (x ++ t).length < 2 ^ 61)
    (ht : t.length < 56) : ∃ ctx', sha256Final ctx = some (ctx', Fips180.sha256 (x ++ t)) := by
  obtain ⟨n, hn⟩ := h.blocks
  obtain ⟨d₁, d₂, h₁, h₂, hfirst⟩ := pad_upto h (k := 56) ht (by decide)
  have hlt : ctx.datalen < 56 := by
    rw [UInt32.lt_iff_toNat_lt, h.datalen]
    exact ht
  have hbit := bitlen_eq h
  change d₂.first 56 = t ++ 0x80 :: List.replicate (55 - t.length) 0 at hfirst
  have hpad : padTail ctx = some { ctx with data := d₂ } := by
    simp only [padTail, h₁, Option.bind_eq_bind, Option.bind_some, if_pos hlt, h₂]
  have hmsg : Fips180.pad (x ++ t) =
      x ++ (d₂.first 56 ++ Fips180.lengthBytes (8 * (x ++ t).length)) := by
    rw [Fips180.pad, zeroBytes_eq hn h.tail, if_pos ht, hfirst]
    simp
  obtain ⟨ctx', hout⟩ := outputHash_eq { ctx with data := d₂ } (by omega) hbit
  refine ⟨ctx', ?_⟩
  rw [sha256Final, hpad, Option.bind_eq_bind, Option.bind_some, hout, Fips180.sha256, hmsg,
    Fips180.hashBytes_append n hn, Fips180.hashBytes_single, h.state]
  rw [List.length_append, Region.length_first (by decide), Fips180.length_lengthBytes]

/-- **The last two blocks, where it does not.** -/
theorem sha256Final_long (h : Absorbed ctx x t) (hlen : (x ++ t).length < 2 ^ 61)
    (ht : 56 ≤ t.length) : ∃ ctx', sha256Final ctx = some (ctx', Fips180.sha256 (x ++ t)) := by
  obtain ⟨n, hn⟩ := h.blocks
  obtain ⟨d₁, d₂, h₁, h₂, hfirst⟩ := pad_upto h (k := 64) h.tail (by decide)
  obtain ⟨d₃, h₃⟩ := Region.fill?_isSome (r := d₂) (b := 0) (show 0 + 56 ≤ 64 by decide)
  have hge : ¬ ctx.datalen < 56 := by
    rw [UInt32.lt_iff_toNat_lt, h.datalen]
    exact Nat.not_lt.2 ht
  have hbit := bitlen_eq h
  change d₂.first 64 = t ++ 0x80 :: List.replicate (63 - t.length) 0 at hfirst
  have hzeros : d₃.first 56 = List.replicate 56 0 := Region.first_of_fill? h₃
  have hpad : padTail ctx =
      some ⟨d₃, ctx.datalen, ctx.bitlen, compress ctx.state (d₂.first 64)⟩ := by
    simp only [padTail, h₁, Option.bind_eq_bind, Option.bind_some, if_neg hge, h₂,
      sha256Transform_eq, h₃]
  have hsplit : List.replicate (119 - t.length) (0 : UInt8) =
      List.replicate (63 - t.length) 0 ++ List.replicate 56 0 := by
    have ht64 := h.tail
    rw [List.replicate_append_replicate]
    congr 1
    omega
  -- The zeros run over the end of the first block: 63 - |t| of them, then 56.
  have hmsg : Fips180.pad (x ++ t) =
      x ++ (d₂.first 64 ++ (d₃.first 56 ++ Fips180.lengthBytes (8 * (x ++ t).length))) := by
    rw [Fips180.pad, zeroBytes_eq hn h.tail, if_neg (Nat.not_lt.2 ht), hsplit, hfirst, hzeros]
    simp
  obtain ⟨ctx', hout⟩ := outputHash_eq ⟨d₃, _, _, _⟩ (by omega) hbit
  refine ⟨ctx', ?_⟩
  rw [sha256Final, hpad, Option.bind_eq_bind, Option.bind_some, hout, Fips180.sha256, hmsg,
    Fips180.hashBytes_append n hn, Fips180.hashBytes_block (Region.length_first (by decide)),
    Fips180.hashBytes_single, h.state]
  rw [List.length_append, Region.length_first (by decide), Fips180.length_lengthBytes]

/-- Whatever has been absorbed, `sha256_final` returns its digest. -/
theorem sha256Final_absorbed (h : Absorbed ctx x t) (hlen : (x ++ t).length < 2 ^ 61) :
    ∃ ctx', sha256Final ctx = some (ctx', Fips180.sha256 (x ++ t)) := by
  rcases Nat.lt_or_ge t.length 56 with ht | ht
  · exact sha256Final_short h hlen ht
  · exact sha256Final_long h hlen ht

/-! ## The whole stream -/

/-- From `sha256_init`, some context is reached that has absorbed the chunks. -/
theorem stream_absorbed (ctx : Sha256Ctx) (chunks : List (List UInt8)) :
    ∃ ctx' x t, chunks.foldlM sha256Update (sha256Init ctx) = some ctx' ∧
      x ++ t = chunks.flatten ∧ Absorbed ctx' x t :=
  chunks_absorbed chunks absorbed_init

/-- The digest of a stream is that of the concatenation. -/
theorem sha256Stream_eq (ctx : Sha256Ctx) {chunks : List (List UInt8)}
    (hlen : chunks.flatten.length < 2 ^ 61) :
    ∃ ctx', sha256Stream ctx chunks = some (ctx', Fips180.sha256 chunks.flatten) := by
  obtain ⟨ctx₁, x, t, hup, happ, h⟩ := stream_absorbed ctx chunks
  rw [← happ] at hlen ⊢
  rw [sha256Stream, hup]
  exact sha256Final_absorbed h hlen

/-- **Streaming SHA-256 is SHA-256.** From any context, initialising it,
updating it with each chunk and finalising returns the digest of the
concatenation, however the message is split; no store leaves the block
buffer, and between two calls fewer than 64 of its bytes are in use. -/
theorem sha256Stream_correct (ctx : Sha256Ctx) (chunks : List (List UInt8))
    (hlen : chunks.flatten.length < 2 ^ 61) :
    (∃ ctx', sha256Stream ctx chunks = some (ctx', Fips180.sha256 chunks.flatten)) ∧
      (Fips180.sha256 chunks.flatten).length = 32 ∧
      (∀ ctx₂ chunks₂, chunks₂.flatten = chunks.flatten →
        (sha256Stream ctx₂ chunks₂).map Prod.snd = (sha256Stream ctx chunks).map Prod.snd) ∧
      ∀ done, done <+: chunks → ∃ ctx', done.foldlM sha256Update (sha256Init ctx) = some ctx' ∧
        ctx'.datalen < 64 := by
  obtain ⟨ctx₁, h₁⟩ := sha256Stream_eq ctx hlen
  refine ⟨⟨ctx₁, h₁⟩, Fips180.length_sha256 _, ?_, fun done _ => ?_⟩
  · intro ctx₂ chunks₂ hsplit
    rw [← hsplit] at hlen
    obtain ⟨ctx₃, h₃⟩ := sha256Stream_eq ctx₂ hlen
    rw [h₁, h₃, hsplit, Option.map_some, Option.map_some]
  · obtain ⟨ctx', x, t, hup, -, h⟩ := stream_absorbed ctx done
    refine ⟨ctx', hup, ?_⟩
    rw [UInt32.lt_iff_toNat_lt, h.datalen]
    exact h.tail

theorem sha256Stream_abc :
    (sha256Stream ⟨.zero, 0, 0, Fips180.initialHash⟩ [[0x61], [0x62, 0x63]]).map Prod.snd =
      some (Fips180.sha256 [0x61, 0x62, 0x63]) := by
  obtain ⟨⟨ctx', h⟩, -⟩ := sha256Stream_correct ⟨.zero, 0, 0, Fips180.initialHash⟩
    [[0x61], [0x62, 0x63]] (by decide)
  rw [h, Option.map_some]
  simp only [List.flatten_cons, List.flatten_nil, List.cons_append, List.nil_append]

end Tpm

end HkSystem
