import HkSystem.Dispatcher.Model.Monitor
import HkSystem.Tpm.Device
/-!
# The injection — what it decides, and what it lets through

`executeSecureRuntimeInjection` has four ends. `Attested` and `Stuck` say
from the state before it which one is taken, and the lemmas of the first
section are all that is used of the function afterwards.

The second section asks what the installed bytes depend on. The hash covers
the `size` bytes the metadata names; the copy is always 4096 bytes long. So
for a payload shorter than that, whatever else lies in `guest_ram` reaches
the executable arena with it.
-/

namespace HkSystem

namespace Dispatcher

variable {verifySignature : UInt32 → UInt32 → Option Int32} {s : State} {variantId : Int32}

/-! ## The four ends -/

/-- The metadata names the variant, and the fTPM accepts its signature on the
hash of the payload. -/
structure Attested (verifySignature : UInt32 → UInt32 → Option Int32) (shared : Shared)
    (variantId : Int32) : Prop where
  vid : shared.secureStorage.vid.toInt32 = variantId
  verified : ∃ hash isVerified,
    OneAtATime.hashLoop shared.guestRam shared.secureStorage.payloadLen = some hash ∧
      verifySignature hash shared.secureStorage.signature = some isVerified ∧ isVerified ≠ 0

/-- The metadata names the variant, but its size does not fit `guest_ram` or
the fTPM never answers. -/
structure Stuck (verifySignature : UInt32 → UInt32 → Option Int32) (shared : Shared)
    (variantId : Int32) : Prop where
  vid : shared.secureStorage.vid.toInt32 = variantId
  unanswered : ∀ hash,
    OneAtATime.hashLoop shared.guestRam shared.secureStorage.payloadLen = some hash →
      verifySignature hash shared.secureStorage.signature = none

/-- The state after a copy into the arena. -/
def State.install (s : State) (arena : Region 4096) (variantId : Int32) : State :=
  { s with
    workerArena := arena
    currentActiveVariant := variantId
    totalMutationsCount := s.totalMutationsCount + 1 }

theorem injection_of_mismatch (h : s.shared.secureStorage.vid.toInt32 ≠ variantId) :
    executeSecureRuntimeInjection verifySignature s variantId =
      (s, .mismatch variantId s.shared.secureStorage.vid.toInt32) := by
  simp only [executeSecureRuntimeInjection, if_pos h]

/-- **Attested code is copied in**, and both counters move. -/
theorem injection_of_attested (h : Attested verifySignature s.shared variantId) :
    ∃ arena, Region.memcpy s.workerArena s.shared.guestRam 4096 = some arena ∧
      executeSecureRuntimeInjection verifySignature s variantId =
        (s.install arena variantId, .injected variantId) := by
  obtain ⟨hvid, hash, isVerified, hhash, hverify, hne⟩ := h
  -- 4096 bytes are inside both regions, so the copy does not fault
  obtain ⟨arena, hcopy⟩ : ∃ arena, Region.memcpy s.workerArena s.shared.guestRam 4096 =
      some arena := Region.memcpy_isSome (by omega) (by omega)
  refine ⟨arena, hcopy, ?_⟩
  have hloop : computeIntegrityHash s.shared.guestRam
      (Words.sizeT s.shared.secureStorage.size.toInt32) = some hash := hhash
  simp only [executeSecureRuntimeInjection, if_neg (not_not.2 hvid), hloop, hverify, if_pos hne,
    hcopy]
  rfl

/-- A fault or a lost call leaves everything as it was. -/
theorem injection_of_stuck (h : Stuck verifySignature s.shared variantId) :
    executeSecureRuntimeInjection verifySignature s variantId = (s, .stuck) := by
  obtain ⟨hvid, hlost⟩ := h
  rcases hhash : OneAtATime.hashLoop s.shared.guestRam s.shared.secureStorage.payloadLen with
    _ | hash
  · have hloop : computeIntegrityHash s.shared.guestRam
        (Words.sizeT s.shared.secureStorage.size.toInt32) = none := hhash
    simp only [executeSecureRuntimeInjection, if_neg (not_not.2 hvid), hloop]
  · have hloop : computeIntegrityHash s.shared.guestRam
        (Words.sizeT s.shared.secureStorage.size.toInt32) = some hash := hhash
    simp only [executeSecureRuntimeInjection, if_neg (not_not.2 hvid), hloop, hlost hash hhash]

/-- Code the fTPM does not accept is not copied. -/
theorem injection_of_blocked (hvid : s.shared.secureStorage.vid.toInt32 = variantId)
    (hnot : ¬ Attested verifySignature s.shared variantId)
    (hserved : ¬ Stuck verifySignature s.shared variantId) :
    executeSecureRuntimeInjection verifySignature s variantId = (s, .blocked variantId) := by
  rcases hhash : OneAtATime.hashLoop s.shared.guestRam s.shared.secureStorage.payloadLen with
    _ | hash
  · exact absurd ⟨hvid, fun hash h => by rw [hhash] at h; cases h⟩ hserved
  · rcases hverify : verifySignature hash s.shared.secureStorage.signature with _ | isVerified
    · refine absurd ⟨hvid, fun hash' h => ?_⟩ hserved
      rw [hhash] at h
      obtain rfl := Option.some.inj h
      exact hverify
    · -- there is a hash and an answer, and the answer is not an acceptance
      have hzero : isVerified = 0 := by
        by_contra hne
        exact hnot ⟨hvid, hash, isVerified, hhash, hverify, hne⟩
      have hloop : computeIntegrityHash s.shared.guestRam
          (Words.sizeT s.shared.secureStorage.size.toInt32) = some hash := hhash
      simp only [executeSecureRuntimeInjection, if_neg (not_not.2 hvid), hloop, hverify, hzero]
      rfl

/-- **Unless the payload is attested, nothing changes.** -/
theorem injection_of_not_attested (hnot : ¬ Attested verifySignature s.shared variantId) :
    ∃ outcome, executeSecureRuntimeInjection verifySignature s variantId = (s, outcome) ∧
      (∀ id, outcome ≠ .injected id) ∧
      (outcome = .stuck ↔ Stuck verifySignature s.shared variantId) := by
  by_cases hvid : s.shared.secureStorage.vid.toInt32 = variantId
  · by_cases hstuck : Stuck verifySignature s.shared variantId
    · exact ⟨_, injection_of_stuck hstuck, by simp, by simp [hstuck]⟩
    · exact ⟨_, injection_of_blocked hvid hnot hstuck, by simp, by simp [hstuck]⟩
  · exact ⟨_, injection_of_mismatch hvid, by simp, by simpa using fun h => hvid h.vid⟩

/-! ## What the installed bytes depend on -/

section Payload

variable {ram₁ ram₂ : Region 67108864}

/-- The state with other contents of `guest_ram`. -/
def State.withRam (s : State) (ram : Region 67108864) : State :=
  { s with shared := { s.shared with guestRam := ram } }

/-- **The two-run property.** Contents of `guest_ram` that agree on the bytes
the hash covers lead to the same decision and the same arena. -/
def PayloadDetermines (verifySignature : UInt32 → UInt32 → Option Int32) (s : State)
    (variantId : Int32) : Prop :=
  ∀ ram₁ ram₂ : Region 67108864,
    (∀ i, i < s.shared.secureStorage.payloadLen → ram₁.get? i = ram₂.get? i) →
      (executeSecureRuntimeInjection verifySignature (s.withRam ram₁) variantId).2 =
          (executeSecureRuntimeInjection verifySignature (s.withRam ram₂) variantId).2 ∧
        (executeSecureRuntimeInjection verifySignature (s.withRam ram₁) variantId).1.workerArena =
          (executeSecureRuntimeInjection verifySignature (s.withRam ram₂) variantId).1.workerArena

/-- Attestation looks only at the bytes the hash covers. -/
theorem attested_congr
    (hagree : ∀ i, i < s.shared.secureStorage.payloadLen → ram₁.get? i = ram₂.get? i) :
    Attested verifySignature (s.withRam ram₁).shared variantId ↔
      Attested verifySignature (s.withRam ram₂).shared variantId := by
  have hloop := OneAtATime.hashLoop_congr hagree
  constructor
  · rintro ⟨hvid, hash, isVerified, hhash, hrest⟩
    exact ⟨hvid, hash, isVerified, hloop.symm.trans hhash, hrest⟩
  · rintro ⟨hvid, hash, isVerified, hhash, hrest⟩
    exact ⟨hvid, hash, isVerified, hloop.trans hhash, hrest⟩

/-- So does getting stuck. -/
theorem stuck_congr
    (hagree : ∀ i, i < s.shared.secureStorage.payloadLen → ram₁.get? i = ram₂.get? i)
    (h : Stuck verifySignature (s.withRam ram₁).shared variantId) :
    Stuck verifySignature (s.withRam ram₂).shared variantId := by
  obtain ⟨hvid, hlost⟩ := h
  exact ⟨hvid, fun hash hhash =>
    hlost hash ((OneAtATime.hashLoop_congr hagree).trans hhash)⟩

/-- **The decision is the same** on memories that agree on the payload; an
unattested one leaves the arena alone, an attested one fills it. -/
theorem injection_congr
    (hagree : ∀ i, i < s.shared.secureStorage.payloadLen → ram₁.get? i = ram₂.get? i) :
    (executeSecureRuntimeInjection verifySignature (s.withRam ram₁) variantId).2 =
      (executeSecureRuntimeInjection verifySignature (s.withRam ram₂) variantId).2 := by
  have hagree' : ∀ i, i < s.shared.secureStorage.payloadLen → ram₂.get? i = ram₁.get? i :=
    fun i hi => (hagree i hi).symm
  -- which of the four ends it is depends on the metadata and the payload alone
  by_cases hatt : Attested verifySignature (s.withRam ram₁).shared variantId
  · obtain ⟨arena₁, -, h₁⟩ := injection_of_attested hatt
    obtain ⟨arena₂, -, h₂⟩ := injection_of_attested ((attested_congr hagree).1 hatt)
    rw [h₁, h₂]
  · have hatt₂ := mt (attested_congr hagree).2 hatt
    by_cases hvid : s.shared.secureStorage.vid.toInt32 = variantId
    · by_cases hstuck : Stuck verifySignature (s.withRam ram₁).shared variantId
      · rw [injection_of_stuck hstuck, injection_of_stuck (stuck_congr hagree hstuck)]
      · rw [injection_of_blocked (s := s.withRam ram₁) hvid hatt hstuck,
          injection_of_blocked (s := s.withRam ram₂) hvid hatt₂ (mt (stuck_congr hagree') hstuck)]
    · rw [injection_of_mismatch (s := s.withRam ram₁) hvid,
        injection_of_mismatch (s := s.withRam ram₂) hvid]
      rfl

/-- An attested payload that fills the arena determines it. -/
theorem payloadDetermines_of_long (h : 4096 ≤ s.shared.secureStorage.payloadLen) :
    PayloadDetermines verifySignature s variantId := by
  intro ram₁ ram₂ hagree
  refine ⟨injection_congr hagree, ?_⟩
  by_cases hatt : Attested verifySignature (s.withRam ram₁).shared variantId
  · obtain ⟨arena₁, hcopy₁, h₁⟩ := injection_of_attested hatt
    obtain ⟨arena₂, hcopy₂, h₂⟩ := injection_of_attested ((attested_congr hagree).1 hatt)
    rw [h₁, h₂]
    -- every byte the copy takes is a byte of the payload
    refine Region.ext_get? fun i hi => ?_
    change arena₁.get? i = arena₂.get? i
    rw [Region.get?_of_memcpy hcopy₁, Region.get?_of_memcpy hcopy₂, if_pos hi, if_pos hi]
    exact hagree i (by omega)
  · obtain ⟨o₁, h₁, -⟩ := injection_of_not_attested hatt
    obtain ⟨o₂, h₂, -⟩ := injection_of_not_attested (mt (attested_congr hagree).2 hatt)
    rw [h₁, h₂]
    rfl

/-- Where no memory is attested, the arena never changes. -/
theorem payloadDetermines_of_refused
    (h : ∀ ram, ¬ Attested verifySignature (s.withRam ram).shared variantId) :
    PayloadDetermines verifySignature s variantId := by
  intro ram₁ ram₂ hagree
  refine ⟨injection_congr hagree, ?_⟩
  obtain ⟨o₁, h₁, -⟩ := injection_of_not_attested (h ram₁)
  obtain ⟨o₂, h₂, -⟩ := injection_of_not_attested (h ram₂)
  rw [h₁, h₂]
  rfl

/-- **A short attested payload does not determine the arena**: the copy takes
byte 4095 from beyond it. -/
theorem not_payloadDetermines_of_short (ram : Region 67108864)
    (hlen : s.shared.secureStorage.payloadLen < 4096)
    (hatt : Attested verifySignature (s.withRam ram).shared variantId) :
    ¬ PayloadDetermines verifySignature s variantId := by
  intro hdet
  -- a second memory, different only in the last byte the copy takes
  obtain ⟨b, hb⟩ : ∃ b, ram.get? 4095 = some b := ⟨_, Region.get?_of_lt (by omega)⟩
  obtain ⟨ram₂, hset⟩ := Region.set?_isSome (r := ram) (b := b + 1)
    (show 4095 < 67108864 by omega)
  have hget := Region.get?_of_set? hset
  have hagree : ∀ i, i < s.shared.secureStorage.payloadLen → ram.get? i = ram₂.get? i := by
    intro i hi
    rw [hget, if_neg (by omega)]
  obtain ⟨arena₁, hcopy₁, h₁⟩ := injection_of_attested hatt
  obtain ⟨arena₂, hcopy₂, h₂⟩ := injection_of_attested ((attested_congr hagree).1 hatt)
  obtain ⟨-, harena⟩ := hdet ram ram₂ hagree
  rw [h₁, h₂] at harena
  have hbyte : arena₁.get? 4095 = arena₂.get? 4095 := congrArg (Region.get? · 4095) harena
  rw [Region.get?_of_memcpy hcopy₁, Region.get?_of_memcpy hcopy₂, if_pos (by omega),
    if_pos (by omega)] at hbyte
  change ram.get? 4095 = ram₂.get? 4095 at hbyte
  rw [hget, if_pos rfl, hb, Option.some.injEq] at hbyte
  grind

/-! ## With the fTPM as coded -/

/-- Attestation by the fTPM: the metadata names the variant, the payload fits
`guest_ram`, and it carries the truncated HMAC of its hash. -/
theorem attested_iff (ctx : Tpm.Sha256Ctx) (key : Region 32) {shared : Shared} :
    Attested (Tpm.cryptoApiVerifySignature ctx key) shared variantId ↔
      shared.secureStorage.vid.toInt32 = variantId ∧
        shared.secureStorage.payloadLen ≤ 67108864 ∧
        shared.secureStorage.signature = Tpm.signatureOf key
          (OneAtATime.digest (shared.guestRam.first shared.secureStorage.payloadLen)) := by
  constructor
  · rintro ⟨hvid, hash, isVerified, hhash, hverify, hne⟩
    obtain ⟨hfit, rfl⟩ := OneAtATime.hashLoop_eq_some_iff.1 hhash
    rw [Tpm.cryptoApiVerifySignature_eq, Option.some.injEq] at hverify
    refine ⟨hvid, hfit, ?_⟩
    by_contra hsig
    rw [if_neg hsig] at hverify
    exact hne hverify.symm
  · rintro ⟨hvid, hfit, hsig⟩
    refine ⟨hvid, _, 1, OneAtATime.hashLoop_eq hfit, ?_, by decide⟩
    rw [Tpm.cryptoApiVerifySignature_eq, if_pos hsig]

/-- The fTPM always answers, so the check only gets stuck on a size past the end
of `guest_ram`. -/
theorem stuck_iff (ctx : Tpm.Sha256Ctx) (key : Region 32) {shared : Shared} :
    Stuck (Tpm.cryptoApiVerifySignature ctx key) shared variantId ↔
      shared.secureStorage.vid.toInt32 = variantId ∧
        67108864 < shared.secureStorage.payloadLen := by
  constructor
  · rintro ⟨hvid, hlost⟩
    refine ⟨hvid, Nat.not_le.1 fun hfit => ?_⟩
    have hnone := hlost _ (OneAtATime.hashLoop_eq hfit)
    rw [Tpm.cryptoApiVerifySignature_eq] at hnone
    cases hnone
  · rintro ⟨hvid, hlong⟩
    refine ⟨hvid, fun hash hhash => ?_⟩
    rw [OneAtATime.hashLoop_eq_none hlong] at hhash
    cases hhash

/-- A payload at the start of `guest_ram` is attested by its own signature. -/
theorem attested_of_signed (ctx : Tpm.Sha256Ctx) (key : Region 32) {shared : Shared}
    {payload : List UInt8} (hvid : shared.secureStorage.vid.toInt32 = variantId)
    (hram : shared.guestRam = .ofList payload) (hfit : payload.length ≤ 67108864)
    (hlen : shared.secureStorage.payloadLen = payload.length)
    (hsig : shared.secureStorage.signature =
      Tpm.signatureOf key (OneAtATime.digest payload)) :
    Attested (Tpm.cryptoApiVerifySignature ctx key) shared variantId := by
  have hfirst := Region.first_ofList (n := 67108864) (l := payload) hfit
  refine (attested_iff ctx key).2 ⟨hvid, by omega, ?_⟩
  rw [hram, hlen, hfirst, hsig]

/-- **What enters the arena is determined by the attested payload exactly
when** the metadata names another variant, or the payload is at least as long
as the copy, or no payload of its length carries its signature. -/
theorem payloadDetermines_iff (ctx : Tpm.Sha256Ctx) (key : Region 32) (s : State)
    (variantId : Int32) :
    PayloadDetermines (Tpm.cryptoApiVerifySignature ctx key) s variantId ↔
      s.shared.secureStorage.vid.toInt32 ≠ variantId ∨
        4096 ≤ s.shared.secureStorage.payloadLen ∨
        ∀ payload : List UInt8, payload.length = s.shared.secureStorage.payloadLen →
          s.shared.secureStorage.signature ≠
            Tpm.signatureOf key (OneAtATime.digest payload) := by
  constructor
  · intro hdet
    by_contra hcond
    simp only [not_or, not_not, not_forall, Nat.not_le] at hcond
    obtain ⟨hvid, hlen, payload, hpayload, hsig⟩ := hcond
    -- a memory that starts with that payload is attested
    have hatt : Attested (Tpm.cryptoApiVerifySignature ctx key)
        (s.withRam (.ofList payload)).shared variantId :=
      attested_of_signed ctx key hvid rfl (by omega) hpayload.symm hsig
    exact not_payloadDetermines_of_short (.ofList payload) hlen hatt hdet
  · rintro (hvid | hlen | hsig)
    · exact payloadDetermines_of_refused fun ram hatt => hvid hatt.vid
    · exact payloadDetermines_of_long hlen
    · refine payloadDetermines_of_refused fun ram hatt => ?_
      obtain ⟨-, hfit, hvalid⟩ := (attested_iff ctx key).1 hatt
      exact hsig _ (Region.length_first hfit) hvalid

theorem payloadLen_one (vid signature : UInt32) : (Metadata.mk vid 1 signature).payloadLen = 1 :=
  show (Words.sizeT (1 : UInt32).toInt32).toNat = 1 by decide

/-- A one-byte variant (`RET`), signed as the Repository signs it, lets byte
4095 of `guest_ram` through. -/
theorem not_payloadDetermines_ret :
    ¬ PayloadDetermines
      (Tpm.cryptoApiVerifySignature ⟨.zero, 0, 0, Fips180.initialHash⟩ Tpm.tpmSecretKey)
      { boot with
        shared :=
          { boot.shared with
            secureStorage :=
              ⟨1, 1, Tpm.signatureOf Tpm.tpmSecretKey (OneAtATime.digest [0xC3])⟩ } } 1 := by
  have hlen := payloadLen_one 1 (Tpm.signatureOf Tpm.tpmSecretKey (OneAtATime.digest [0xC3]))
  have hshort : (Metadata.mk 1 1 (Tpm.signatureOf Tpm.tpmSecretKey
      (OneAtATime.digest [0xC3]))).payloadLen < 4096 := by omega
  exact not_payloadDetermines_of_short (.ofList [0xC3]) hshort
    (attested_of_signed _ _ rfl rfl (by decide) hlen rfl)

end Payload

end Dispatcher

end HkSystem
