import HkSystem.Tpm.Sha256
import HkSystem.Tpm.Model.Device
/-!
# The fTPM — its signature

Both calls always return, whatever the stack held. What they compute is
`signatureOf`: the first four bytes of the HMAC-SHA256 of the four bytes of
the hash, read as a little-endian word.
-/

namespace HkSystem

namespace Tpm

variable {pad : UInt8}

/-! ## The keyed blocks -/

/-- The keyed block after `n` turns of the loop. -/
theorem padKey_loop (key : Region 32) {n : ℕ} (hn : n ≤ 32) {k : Region 64}
    (hk : ∀ i, i < 64 → k.get? i = some pad) :
    ∃ k', (List.range n).foldlM (fun k i => do
        let b ← k.get? i
        let c ← key.get? i
        k.set? i (b ^^^ c)) k = some k' ∧
      ∀ i, i < 64 → k'.get? i = if i < n then (key.get? i).map (pad ^^^ ·) else some pad := by
  induction n with
  | zero => exact ⟨k, rfl, by simpa using hk⟩
  | succ n ih =>
    obtain ⟨k₁, hloop, hget⟩ := ih (by omega)
    have hpad : k₁.get? n = some pad := by rw [hget n (by omega), if_neg (by omega)]
    obtain ⟨c, hc⟩ : ∃ c, key.get? n = some c := ⟨_, Region.get?_of_lt (by omega)⟩
    obtain ⟨k₂, hset⟩ := Region.set?_isSome (r := k₁) (b := pad ^^^ c) (show n < 64 by omega)
    refine ⟨k₂, ?_, fun i hi => ?_⟩
    · rw [List.range_succ, List.foldlM_append, hloop]
      simp [hpad, hc, hset]
    · rw [Region.get?_of_set? hset, hget i hi]
      rcases Nat.lt_trichotomy i n with h | h | h
      · rw [if_neg (by omega), if_pos h, if_pos (by omega)]
      · subst h
        rw [if_pos rfl, if_pos (by omega), hc, Option.map_some]
      · rw [if_neg (by omega), if_neg (by omega), if_neg (by omega)]

/-- A key of 32 bytes is filled up, not hashed. -/
theorem keyBlock_first (key : Region 32) :
    Fips180.keyBlock (key.first 32) = key.first 32 ++ List.replicate 32 0 := by
  have hlen : (key.first 32).length = 32 := Region.length_first le_rfl
  rw [Fips180.keyBlock, hlen, if_pos (by decide), hlen]

/-- The keyed block is the key filled up with zeros, xored with the pad. -/
theorem padKey_eq (key : Region 32) (pad : UInt8) :
    ∃ k, padKey key pad = some k ∧
      k.first 64 = (Fips180.keyBlock (key.first 32)).map (· ^^^ pad) := by
  obtain ⟨k₀, hfill⟩ := Region.fill?_isSome (r := (Region.zero : Region 64)) (b := pad)
    (show 0 + 64 ≤ 64 by decide)
  have hk₀ : ∀ i, i < 64 → k₀.get? i = some pad := fun i hi => by
    rw [Region.get?_of_fill? hfill, if_pos (by omega)]
  obtain ⟨k, hloop, hget⟩ := padKey_loop key le_rfl hk₀
  refine ⟨k, by rw [padKey, hfill, Option.bind_eq_bind, Option.bind_some, hloop], ?_⟩
  have hlen : ((Fips180.keyBlock (key.first 32)).map (· ^^^ pad)).length = 64 := by
    rw [List.length_map, keyBlock_first, List.length_append, Region.length_first le_rfl,
      List.length_replicate]
  have hiff := Region.first_eq_iff (r := k)
    (l := (Fips180.keyBlock (key.first 32)).map (· ^^^ pad)) (by rw [hlen])
  rw [hlen] at hiff
  refine hiff.2 fun i hi => ?_
  rw [hget i hi, keyBlock_first, List.getElem?_map]
  -- the loop reaches the first 32 bytes; the rest keep the pad
  rcases Nat.lt_or_ge i 32 with h | h
  · rw [if_pos h, List.getElem?_append_left (by rw [Region.length_first le_rfl]; exact h),
      Region.getElem?_first le_rfl h]
    congr 1
    exact funext fun b => UInt8.xor_comm pad b
  · rw [if_neg (by omega),
      List.getElem?_append_right (by rw [Region.length_first le_rfl]; exact h),
      Region.length_first le_rfl, List.getElem?_replicate, if_pos (by omega), Option.map_some,
      UInt8.zero_xor]

/-! ## The signature -/

/-- The first four bytes of a byte string, as a little-endian word. -/
def firstWord (bytes : List UInt8) : UInt32 :=
  Words.wordLE (bytes.getD 0 0) (bytes.getD 1 0) (bytes.getD 2 0) (bytes.getD 3 0)

/-- **What the device signs**: HMAC-SHA256 of the hash, cut to a word. -/
def signatureOf (key : Region 32) (data : UInt32) : UInt32 :=
  firstWord (Fips180.hmac (key.first 32) (Words.bytesLE data))

theorem truncate_eq : ∀ {bytes : List UInt8}, 4 ≤ bytes.length →
    truncate bytes = some (firstWord bytes)
  | _ :: _ :: _ :: _ :: _, _ => rfl

/-- **The device computes the truncated HMAC**, whatever its stack held. -/
theorem computeHmacSha256Trunc_eq (ctx : Sha256Ctx) (key : Region 32) (data : UInt32) :
    computeHmacSha256Trunc ctx key data = some (signatureOf key data) := by
  obtain ⟨kIpad, hipad, hi⟩ := padKey_eq key 0x36
  obtain ⟨kOpad, hopad, ho⟩ := padKey_eq key 0x5c
  have hI : (kIpad.first 64).length = 64 := Region.length_first le_rfl
  have hO : (kOpad.first 64).length = 64 := Region.length_first le_rfl
  -- the outer hash starts from whatever the inner one left in the context
  obtain ⟨ctx₁, hinner⟩ := @sha256Stream_eq ctx [kIpad.first 64, Words.bytesLE data]
    (by simp [hI])
  obtain ⟨ctx₂, houter⟩ := @sha256Stream_eq ctx₁
    [kOpad.first 64, Fips180.sha256 [kIpad.first 64, Words.bytesLE data].flatten]
    (by simp [hO])
  simp only [computeHmacSha256Trunc, hipad, hopad, Option.bind_eq_bind, Option.bind_some, hinner,
    houter]
  rw [truncate_eq (by rw [Fips180.length_sha256]; decide), signatureOf, Fips180.hmac, ← hi, ← ho]
  simp only [List.flatten_cons, List.flatten_nil, List.append_nil]

/-- A value the device has computed is the signature. -/
theorem signatureOf_eq (ctx : Sha256Ctx) {key : Region 32} {data signature : UInt32}
    (h : computeHmacSha256Trunc ctx key data = some signature) :
    signatureOf key data = signature := by
  rw [computeHmacSha256Trunc_eq, Option.some.injEq] at h
  exact h

/-- Signing returns the signature. -/
theorem cryptoApiSignData_eq (ctx : Sha256Ctx) (key : Region 32) (rawHash : UInt32) :
    cryptoApiSignData ctx key rawHash = some (signatureOf key rawHash) :=
  computeHmacSha256Trunc_eq ctx key rawHash

/-- **Verifying compares with the signature.** -/
theorem cryptoApiVerifySignature_eq (ctx : Sha256Ctx) (key : Region 32)
    (dataHash signature : UInt32) :
    cryptoApiVerifySignature ctx key dataHash signature =
      some (if signature = signatureOf key dataHash then 1 else 0) := by
  rw [cryptoApiVerifySignature, computeHmacSha256Trunc_eq, Option.bind_eq_bind, Option.bind_some]
  split <;> rfl

/-- **The fTPM signs by truncated HMAC-SHA256**: under any key, its signature of a
hash is the first four bytes of the HMAC of the hash's four bytes, and it
verifies that signature and no other. -/
theorem signs_truncated_hmac (ctx : Sha256Ctx) (key : Region 32) (rawHash : UInt32) :
    cryptoApiSignData ctx key rawHash =
        some (firstWord (Fips180.hmac (key.first 32) (Words.bytesLE rawHash))) ∧
      ∀ signature, ∃ isVerified,
        cryptoApiVerifySignature ctx key rawHash signature = some isVerified ∧
          (isVerified = 1 ↔
            signature = firstWord (Fips180.hmac (key.first 32) (Words.bytesLE rawHash))) := by
  refine ⟨cryptoApiSignData_eq ctx key rawHash, fun signature => ?_⟩
  refine ⟨_, cryptoApiVerifySignature_eq ctx key rawHash signature, ?_⟩
  rw [← signatureOf]
  split
  · next hvalid => exact ⟨fun _ => hvalid, fun _ => rfl⟩
  · next hinvalid => exact ⟨fun h => absurd h (by decide), fun h => absurd h hinvalid⟩

end Tpm

end HkSystem
