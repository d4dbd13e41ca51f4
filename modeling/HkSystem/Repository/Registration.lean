import HkSystem.Dispatcher.Model.Monitor
import HkSystem.Repository.Model.Repository
import HkSystem.Tpm.Device
/-!
# Registration — which sizes are safe

The size of a variant comes over the RPC as an `int` and is never checked. It
is a `size_t` in the Repository's hash, a `uint32_t` in the metadata, an
`int` again when the Dispatcher reads it back and a `size_t` in the
Dispatcher's hash. From 0 to the length of `gen_input_buf` all of these are
the same number, and both hashes stay inside their regions; any other size
takes the Repository's own hash out of its buffer, before anything is
committed (`hashesInside_iff`).
-/

namespace HkSystem

namespace Repository

variable {signData : UInt32 → Option UInt32} {variantId size : Int32} {shared : Shared}

/-! ## What a registration does -/

/-- **A size that fits** is hashed, signed and committed. -/
theorem repoWriteApiAddVariant_of_fits (h : (Words.sizeT size).toNat ≤ 16777216) :
    repoWriteApiAddVariant signData variantId size shared =
      (signData (OneAtATime.digest (shared.genBuf.first (Words.sizeT size).toNat))).map
        fun signature => shared.commit ⟨variantId.toUInt32, size.toUInt32, signature⟩ := by
  rw [repoWriteApiAddVariant, computeJenkinsHash, OneAtATime.hashLoop_eq h, Option.bind_eq_bind,
    Option.bind_some, Option.map_eq_bind]
  rfl

/-- With the fTPM it is committed under the signature of its bytes. -/
theorem repoWriteApiAddVariant_ftpm (ctx : Tpm.Sha256Ctx) (key : Region 32)
    (h : (Words.sizeT size).toNat ≤ 16777216) :
    repoWriteApiAddVariant (Tpm.cryptoApiSignData ctx key) variantId size shared =
      some (shared.commit ⟨variantId.toUInt32, size.toUInt32, Tpm.signatureOf key
        (OneAtATime.digest (shared.genBuf.first (Words.sizeT size).toNat))⟩) := by
  rw [repoWriteApiAddVariant_of_fits h, Tpm.cryptoApiSignData_eq, Option.map_some]

/-- A size that does not fit faults. -/
theorem repoWriteApiAddVariant_of_lt (h : 16777216 < (Words.sizeT size).toNat) :
    repoWriteApiAddVariant signData variantId size shared = none := by
  rw [repoWriteApiAddVariant, computeJenkinsHash, OneAtATime.hashLoop_eq_none h]
  rfl

/-- The sizes that fit, as the caller has them. -/
theorem sizeT_le_iff : (Words.sizeT size).toNat ≤ 16777216 ↔
    0 ≤ size.toInt ∧ size.toInt ≤ 16777216 := by
  have hconv := Words.toNat_sizeT size
  have hlo := size.le_toInt
  split at hconv <;> omega

/-- The Dispatcher hashes as many bytes as the Repository did. -/
theorem payloadLen_committed (variantId size : Int32) (signature : UInt32) :
    (Metadata.mk variantId.toUInt32 size.toUInt32 signature).payloadLen =
      (Words.sizeT size).toNat := by
  rw [Metadata.payloadLen, Int32.toInt32_toUInt32]

/-! ## Staying inside the dataports -/

/-- **The hashes stay inside the dataports** for a registration, and a size
that does not fit is turned away. -/
structure HashesInside (signData : UInt32 → Option UInt32) (variantId size : Int32)
    (shared : Shared) : Prop where
  /-- Every byte `compute_jenkins_hash` reads is in `gen_input_buf`. -/
  jenkins : ∀ i ∈ (OneAtATime.readLoop shared.genBuf (Words.sizeT size).toNat).1, i < 16777216
  /-- Every byte `compute_integrity_hash` reads for what is committed is in
  `guest_ram`. -/
  integrity : ∀ shared', repoWriteApiAddVariant signData variantId size shared = some shared' →
    ∀ i ∈ (OneAtATime.readLoop shared'.guestRam shared'.secureStorage.payloadLen).1, i < 67108864
  /-- A size that does not fit comes back with nothing committed. -/
  rejected : ¬ (0 ≤ size.toInt ∧ size.toInt ≤ 16777216) →
    ∃ shared', repoWriteApiAddVariant signData variantId size shared = some shared' ∧
      shared'.secureStorage = shared.secureStorage

/-- The size is outside the buffer: the Repository's own hash leaves it. -/
theorem not_hashesInside_of_not_fits (h : ¬ (0 ≤ size.toInt ∧ size.toInt ≤ 16777216)) :
    ¬ HashesInside signData variantId size shared := fun hinside =>
  h (sizeT_le_iff.1 (OneAtATime.reads_inside_iff.1 hinside.jenkins))

/-- **The hashes stay inside exactly for the sizes of the buffer**, from 0 to
16777216, whatever the memory holds and whatever the fTPM signs. -/
theorem hashesInside_iff (signData : UInt32 → Option UInt32) (variantId size : Int32)
    (shared : Shared) :
    HashesInside signData variantId size shared ↔
      0 ≤ size.toInt ∧ size.toInt ≤ 16777216 := by
  constructor
  · intro hinside
    by_contra h
    exact not_hashesInside_of_not_fits h hinside
  · intro h
    have hfit := sizeT_le_iff.2 h
    refine ⟨OneAtATime.reads_inside_iff.2 hfit, fun shared' hadd => ?_, fun hnot => absurd h hnot⟩
    rw [repoWriteApiAddVariant_of_fits hfit, Option.map_eq_some_iff] at hadd
    obtain ⟨signature, -, rfl⟩ := hadd
    refine OneAtATime.reads_inside_iff.2 ?_
    change (Metadata.mk variantId.toUInt32 size.toUInt32 signature).payloadLen ≤ 67108864
    rw [payloadLen_committed]
    omega

/-- A size of `-1` is a length of `2 ^ 64 - 1`. -/
theorem not_hashesInside_negative :
    ¬ HashesInside (Tpm.cryptoApiSignData ⟨.zero, 0, 0, ⟨0, 0, 0, 0, 0, 0, 0, 0⟩⟩ Tpm.tpmSecretKey)
      1 (-1) ⟨.zero, .zero, ⟨0, 0, 0⟩, []⟩ :=
  not_hashesInside_of_not_fits (by decide)

end Repository

end HkSystem
