import HkSystem.Dispatcher.Supplies
/-!
# Tampering in transit

The Repository signs the hash of what is in `gen_buf`; the Dispatcher hashes
what it finds in `guest_ram`. A single byte that differs between them gives
another hash, whatever the length and the place, since no step of the hash
forgets anything. The fTPM signs a hash of 32 bits into 32 bits, so what is
left for an attacker is a collision of its signatures (`tampering_detected`).
-/

namespace HkSystem

variable {m n len i : ℕ} {original : Region m} {altered : Region n} {b : UInt8}

/-- Two regions differ at `i`, and nowhere else below `len`. -/
structure TamperedAt (original : Region m) (altered : Region n) (len i : ℕ) : Prop where
  inside : i < len
  changed : altered.get? i ≠ original.get? i
  kept : ∀ j, j < len → j ≠ i → altered.get? j = original.get? j

/-- The altered bytes are the original ones with one of them set. -/
theorem TamperedAt.first_eq (h : TamperedAt original altered len i) (hm : len ≤ m) (hn : len ≤ n)
    (hb : altered.get? i = some b) : altered.first len = (original.first len).set i b := by
  have hset : ((original.first len).set i b).length = len := by
    rw [List.length_set, Region.length_first hm]
  have hiff := Region.first_eq_iff (r := altered) (l := (original.first len).set i b)
    (by rw [hset]; exact hn)
  rw [hset] at hiff
  refine hiff.2 fun j hj => ?_
  rw [List.getElem?_set, Region.length_first hm]
  by_cases hji : i = j
  · subst hji
    rw [if_pos rfl, if_pos hj, hb]
  · rw [if_neg hji, Region.getElem?_first hm hj, h.kept j hj (Ne.symm hji)]

/-- **The change shows in the hash.** -/
theorem TamperedAt.digest_ne (h : TamperedAt original altered len i) (hm : len ≤ m)
    (hn : len ≤ n) :
    OneAtATime.digest (altered.first len) ≠ OneAtATime.digest (original.first len) := by
  have hi := h.inside
  have hne := h.changed
  obtain ⟨a, ha⟩ : ∃ a, original.get? i = some a := ⟨_, Region.get?_of_lt (by omega)⟩
  obtain ⟨b, hb⟩ : ∃ b, altered.get? i = some b := ⟨_, Region.get?_of_lt (by omega)⟩
  have hab : b ≠ a := by
    rw [ha, hb] at hne
    exact fun hab => hne (congrArg some hab)
  rw [h.first_eq hm hn hb]
  exact OneAtATime.digest_set_ne ((Region.getElem?_first hm hi).trans ha) hab

/-- As the two components compute it. -/
theorem TamperedAt.hashes_ne {len : UInt64} (h : TamperedAt original altered len.toNat i)
    (hm : len.toNat ≤ m) (hn : len.toNat ≤ n) :
    ∃ hash hash', Repository.computeJenkinsHash original len = some hash ∧
      Dispatcher.computeIntegrityHash altered len = some hash' ∧ hash' ≠ hash :=
  ⟨_, _, OneAtATime.hashLoop_eq hm, OneAtATime.hashLoop_eq hn, h.digest_ne hm hn⟩

/-- The Repository signs what fits `gen_buf`, and commits it. -/
theorem slot_of_addVariant {ctx : Tpm.Sha256Ctx} {key : Region 32} {variantId size : Int32}
    {shared shared' : Shared}
    (hadd : Repository.repoWriteApiAddVariant (Tpm.cryptoApiSignData ctx key) variantId size
      shared = some shared') :
    (Words.sizeT size).toNat ≤ 16777216 ∧
      shared'.secureStorage = ⟨variantId.toUInt32, size.toUInt32, Tpm.signatureOf key
        (OneAtATime.digest (shared.genBuf.first (Words.sizeT size).toNat))⟩ := by
  rcases Nat.lt_or_ge 16777216 (Words.sizeT size).toNat with hlong | hfit
  · rw [Repository.repoWriteApiAddVariant_of_lt hlong] at hadd
    cases hadd
  · rw [Repository.repoWriteApiAddVariant_ftpm ctx key hfit] at hadd
    obtain rfl := Option.some.inj hadd
    exact ⟨hfit, rfl⟩

/-- A registered variant is blocked if `guest_ram` has another signature than the
one that was made. -/
theorem blocked_or_collides {ctx : Tpm.Sha256Ctx} (ctx' : Tpm.Sha256Ctx) {key : Region 32}
    {variantId size : Int32} {shared shared' : Shared} {s : Dispatcher.State}
    (hadd : Repository.repoWriteApiAddVariant (Tpm.cryptoApiSignData ctx key) variantId size
      shared = some shared') (hslot : s.shared.secureStorage = shared'.secureStorage) :
    Tpm.signatureOf key (OneAtATime.digest
        (s.shared.guestRam.first (Words.sizeT size).toNat)) =
      Tpm.signatureOf key (OneAtATime.digest (shared.genBuf.first (Words.sizeT size).toNat)) ∨
    Dispatcher.executeSecureRuntimeInjection (Tpm.cryptoApiVerifySignature ctx' key) s variantId =
      (s, .blocked variantId) := by
  obtain ⟨hfit, hregistered⟩ := slot_of_addVariant hadd
  rw [← hslot] at hregistered
  have hvid : s.shared.secureStorage.vid.toInt32 = variantId := by
    rw [hregistered, Int32.toInt32_toUInt32]
  have hlen : s.shared.secureStorage.payloadLen = (Words.sizeT size).toNat := by
    rw [hregistered, Repository.payloadLen_committed]
  refine or_iff_not_imp_left.2 fun hsig => ?_
  -- the size fits `guest_ram` too, so the check ends, and it fails
  refine Dispatcher.injection_of_blocked hvid (fun hatt => hsig ?_) fun hstuck => ?_
  · obtain ⟨-, -, hvalid⟩ := (Dispatcher.attested_iff ctx' key).1 hatt
    rw [hlen, hregistered] at hvalid
    exact hvalid.symm
  · obtain ⟨-, hlong⟩ := (Dispatcher.stuck_iff ctx' key).1 hstuck
    omega

/-- **Single-byte tampering is detected.** A payload of any length, changed in
one byte, has another hash in the Dispatcher than the one the Repository
took. So, once a variant is registered, one byte changed in `guest_ram` has
the variant blocked with nothing changed, unless the fTPM signs both hashes
alike. -/
theorem tampering_detected :
    (∀ {m n : ℕ} (original : Region m) (altered : Region n) (len : UInt64) (i : ℕ),
      len.toNat ≤ m → len.toNat ≤ n → TamperedAt original altered len.toNat i →
        ∃ hash hash', Repository.computeJenkinsHash original len = some hash ∧
          Dispatcher.computeIntegrityHash altered len = some hash' ∧ hash' ≠ hash) ∧
    ∀ (ctx ctx' : Tpm.Sha256Ctx) (key : Region 32) (variantId size : Int32)
      (shared shared' : Shared) (s : Dispatcher.State) (i : ℕ),
      Repository.repoWriteApiAddVariant (Tpm.cryptoApiSignData ctx key) variantId size shared =
          some shared' →
        s.shared.secureStorage = shared'.secureStorage →
        TamperedAt shared.genBuf s.shared.guestRam (Words.sizeT size).toNat i →
          ∃ hash hash',
            Repository.computeJenkinsHash shared.genBuf (Words.sizeT size) = some hash ∧
              Dispatcher.computeIntegrityHash s.shared.guestRam (Words.sizeT size) = some hash' ∧
              hash' ≠ hash ∧
              (Tpm.signatureOf key hash' = Tpm.signatureOf key hash ∨
                Dispatcher.executeSecureRuntimeInjection (Tpm.cryptoApiVerifySignature ctx' key) s
                  variantId = (s, .blocked variantId)) := by
  refine ⟨fun original altered len i hm hn h => h.hashes_ne hm hn, ?_⟩
  intro ctx ctx' key variantId size shared shared' s i hadd hslot htamper
  obtain ⟨hfit, -⟩ := slot_of_addVariant hadd
  exact ⟨_, _, OneAtATime.hashLoop_eq hfit, OneAtATime.hashLoop_eq (by omega),
    htamper.digest_ne hfit (by omega), blocked_or_collides ctx' hadd hslot⟩

/-- `XOR EAX, EAX; RET` is signed, and `guest_ram` holds `XOR ECX, ECX; RET`. -/
theorem tamperedAt_clear :
    TamperedAt (Region.ofList Dispatcher.clearEax : Region 16777216)
      (Region.ofList Dispatcher.clearEcx : Region 67108864) (Words.sizeT 3).toNat 1 := by
  have hthree : (Words.sizeT 3).toNat = 3 := by decide
  rw [hthree]
  refine ⟨by decide, ?_, fun j hj hne => ?_⟩
  · rw [Region.get?_of_lt (by decide), Region.get?_of_lt (by decide)]
    exact fun h => absurd (Option.some.inj h) (by decide)
  · obtain rfl | rfl : j = 0 ∨ j = 2 := by omega
    · rw [Region.get?_of_lt (by decide), Region.get?_of_lt (by decide)]
      rfl
    · rw [Region.get?_of_lt (by decide), Region.get?_of_lt (by decide)]
      rfl

/-- The fTPM's signatures of the two hashes differ, so it is blocked. -/
theorem tampering_detected_clear :
    (∃ hash hash', Repository.computeJenkinsHash
        (Region.ofList Dispatcher.clearEax : Region 16777216) (Words.sizeT 3) = some hash ∧
      Dispatcher.computeIntegrityHash (Region.ofList Dispatcher.clearEcx : Region 67108864)
        (Words.sizeT 3) = some hash' ∧ hash' ≠ hash) ∧
    Dispatcher.executeSecureRuntimeInjection
        (Tpm.cryptoApiVerifySignature zeroWorld.verifyStack Tpm.tpmSecretKey)
        Dispatcher.afterBlocked 2 = (Dispatcher.afterBlocked, .blocked 2) := by
  refine ⟨tampering_detected.1 _ _ _ 1 (by decide) (by decide) tamperedAt_clear, ?_⟩
  obtain ⟨hash, hash', hsigned, hfound, -, hsig | hblocked⟩ := tampering_detected.2
    zeroWorld.signStack zeroWorld.verifyStack Tpm.tpmSecretKey 2 3
    { Dispatcher.afterSwap.shared with
      guestRam := .ofList Dispatcher.clearEcx, genBuf := .ofList Dispatcher.clearEax } _
    Dispatcher.afterBlocked 1
    (Dispatcher.addVariant_registered zeroWorld 2 (by decide)) rfl tamperedAt_clear
  · obtain ⟨-, rfl⟩ := OneAtATime.hashLoop_eq_some_iff.1 hsigned
    obtain ⟨-, rfl⟩ := OneAtATime.hashLoop_eq_some_iff.1 hfound
    exact absurd hsig.symm Dispatcher.signatureOf_clear_ne
  · exact hblocked

end HkSystem
