import HkSystem.Generator.Execution
import HkSystem.Generator.Model.Llvm
import HkSystem.Repository.Registration
/-!
# The hand-off

The Repository signs what is in `gen_buf`, and the Dispatcher hashes what is
in `guest_ram`. Nothing but the Generator puts the same bytes in both.
`generator.c` does, whatever it draws. `lib.rs` writes `gen_buf` alone, so it
hands off exactly where `guest_ram` held the object already, or where it
registers nothing (`handsOff_iff`).
-/

namespace HkSystem

variable {before after shared : Shared} {metadata : Metadata} {ι : Type}

/-- **What the Dispatcher relies on** after a synthesis, for every variant that was
registered in it. -/
structure HandsOff (before after : Shared) : Prop where
  /-- The payload is in both buffers. -/
  bytes : ∀ metadata ∈ after.registrations.drop before.registrations.length,
    after.guestRam.first metadata.payloadLen = after.genBuf.first metadata.payloadLen
  /-- The hash of the Dispatcher is the one the Repository had signed. -/
  hashes : ∀ metadata ∈ after.registrations.drop before.registrations.length,
    Dispatcher.computeIntegrityHash after.guestRam (Words.sizeT metadata.size.toInt32) =
      Repository.computeJenkinsHash after.genBuf (Words.sizeT metadata.size.toInt32)

/-- A synthesis that registers nothing has nothing to hand off. -/
theorem handsOff_of_no_registration (h : after.registrations = before.registrations) :
    HandsOff before after := by
  have hnone : after.registrations.drop before.registrations.length = [] := by
    rw [h, List.drop_length]
  refine ⟨fun metadata hmem => ?_, fun metadata hmem => ?_⟩
  · rw [hnone] at hmem
    cases hmem
  · rw [hnone] at hmem
    cases hmem

/-- **One registration is handed off exactly when its payload is in both
buffers.** -/
theorem handsOff_commit_iff (hregs : shared.registrations = before.registrations)
    (hfit : metadata.payloadLen ≤ 16777216) :
    HandsOff before (shared.commit metadata) ↔
      shared.guestRam.first metadata.payloadLen = shared.genBuf.first metadata.payloadLen := by
  have hnew : (shared.commit metadata).registrations.drop before.registrations.length =
      [metadata] := by
    rw [← hregs]
    exact List.drop_left
  constructor
  · intro h
    exact h.bytes metadata (by rw [hnew]; exact List.mem_singleton.2 rfl)
  · intro h
    refine ⟨fun md hmem => ?_, fun md hmem => ?_⟩
    · rw [hnew, List.mem_singleton] at hmem
      rw [hmem]
      exact h
    · rw [hnew, List.mem_singleton] at hmem
      rw [hmem]
      change OneAtATime.hashLoop shared.guestRam metadata.payloadLen =
        OneAtATime.hashLoop shared.genBuf metadata.payloadLen
      rw [OneAtATime.hashLoop_eq (by omega), OneAtATime.hashLoop_eq hfit, h]

section Ftpm

variable (ctx : Tpm.Sha256Ctx) (key : Region 32)

/-- A registration, as the Repository makes it with the fTPM. -/
theorem addVariant_ofNat (variantId : Int32) {size : ℕ} (hfit : size ≤ 16777216) :
    ∃ metadata, metadata.payloadLen = size ∧
      Repository.repoWriteApiAddVariant (Tpm.cryptoApiSignData ctx key) variantId
        (Int32.ofNat size) shared = some (shared.commit metadata) := by
  have hsize := Words.toNat_sizeT_ofNat (show size < 2 ^ 31 by omega)
  refine ⟨⟨variantId.toUInt32, (Int32.ofNat size).toUInt32,
    Tpm.signatureOf key (OneAtATime.digest (shared.genBuf.first size))⟩, ?_, ?_⟩
  · rw [Repository.payloadLen_committed, hsize]
  · rw [Repository.repoWriteApiAddVariant_ftpm ctx key (by omega), hsize]

/-- **`generator.c` hands off**, whatever it draws. -/
theorem generator_handsOff (draws : ℕ → UInt32) (baseAddr : UInt64) (variantId complexity : Int32)
    (shared : Shared) :
    ∃ drawn after, Generator.genApiRequestGeneration (Generator.ofSequence draws)
        (Repository.repoWriteApiAddVariant (Tpm.cryptoApiSignData ctx key)) baseAddr variantId
        complexity 0 shared = some (drawn, after) ∧ HandsOff shared after := by
  obtain ⟨-, hmax⟩ := Generator.length_choices draws 0
  obtain ⟨hram, hbuf⟩ := shared.first_withPayload (hmax.trans (by decide))
  obtain ⟨metadata, hlen, hadd⟩ := @addVariant_ofNat
    (shared.withPayload (Generator.choices draws 0).encode) ctx key variantId _
    (hmax.trans (by decide))
  have hcall := Generator.engine_choices draws 0
    (Repository.repoWriteApiAddVariant (Tpm.cryptoApiSignData ctx key)) baseAddr variantId
    complexity shared
  rw [hadd, Option.map_some] at hcall
  have hregs : (shared.withPayload (Generator.choices draws 0).encode).registrations =
      shared.registrations := rfl
  refine ⟨_, _, hcall, ?_⟩
  rw [handsOff_commit_iff hregs (by omega), hlen, hram, hbuf]

/-- **`lib.rs` hands off exactly where `guest_ram` held the object already**, or
where it registers nothing. -/
theorem llvm_handsOff_iff (llvm : Llvm.Api ι) (workerBitcode : List UInt8) (genBufIsNull : Bool)
    (baseAddr : UInt64) (variantId complexity : Int32) (shared : Shared) {objBytes : List UInt8}
    (hobj : Llvm.synthesize llvm workerBitcode variantId = some objBytes) :
    ∃ after, Llvm.genApiRequestGeneration llvm workerBitcode
        (Repository.repoWriteApiAddVariant (Tpm.cryptoApiSignData ctx key)) genBufIsNull baseAddr
        variantId complexity shared = some after ∧
      (HandsOff shared after ↔ genBufIsNull = true ∨
        shared.guestRam.first (min objBytes.length 16777216) = objBytes.take 16777216) := by
  cases genBufIsNull with
  | true =>
    refine ⟨shared, ?_, iff_of_true (handsOff_of_no_registration rfl) (Or.inl rfl)⟩
    rw [Llvm.genApiRequestGeneration, hobj]
    rfl
  | false =>
    obtain ⟨genBuf, hcopy⟩ : ∃ genBuf, Region.memcpy shared.genBuf
        (.ofList objBytes : Region objBytes.length) (min objBytes.length 16777216) = some genBuf :=
      Region.memcpy_isSome (by omega) (by omega)
    obtain ⟨metadata, hlen, hadd⟩ := @addVariant_ofNat { shared with genBuf := genBuf } ctx key
      variantId (min objBytes.length 16777216) (by omega)
    refine ⟨Shared.commit { shared with genBuf := genBuf } metadata, ?_, ?_⟩
    · rw [Llvm.genApiRequestGeneration, hobj, Option.bind_eq_bind, Option.bind_some]
      simp only [Bool.false_eq_true, if_false, hcopy, Option.bind_eq_bind, Option.bind_some, hadd]
    · have hobject : genBuf.first (min objBytes.length 16777216) = objBytes.take 16777216 := by
        rw [Region.first_of_memcpy hcopy le_rfl, ← Region.take_first (Nat.min_le_left ..) (by omega),
          Region.first_ofList le_rfl, Nat.min_comm, ← List.take_eq_take_min]
      have hregs : { shared with genBuf := genBuf }.registrations = shared.registrations := rfl
      rw [handsOff_commit_iff hregs (by omega), hlen]
      change shared.guestRam.first _ = genBuf.first _ ↔ _
      rw [hobject]
      simp

/-- **Which implementation hands off.** With the Repository and the fTPM as coded,
`generator.c` returns and hands off for all draws and every prior memory;
`lib.rs`, for every object LLVM may return, does so exactly where `gen_buf`
is not mapped, so that it registers nothing, or where `guest_ram` starts with
the bytes of the object it copies. -/
theorem handsOff_iff (baseAddr : UInt64) (variantId complexity : Int32) (shared : Shared) :
    (∀ draws : ℕ → UInt32, ∃ drawn after,
      Generator.genApiRequestGeneration (Generator.ofSequence draws)
          (Repository.repoWriteApiAddVariant (Tpm.cryptoApiSignData ctx key)) baseAddr variantId
          complexity 0 shared = some (drawn, after) ∧ HandsOff shared after) ∧
    ∀ (ι : Type) (llvm : Llvm.Api ι) (workerBitcode : List UInt8) (genBufIsNull : Bool)
      (objBytes : List UInt8), Llvm.synthesize llvm workerBitcode variantId = some objBytes →
        ∃ after, Llvm.genApiRequestGeneration llvm workerBitcode
            (Repository.repoWriteApiAddVariant (Tpm.cryptoApiSignData ctx key)) genBufIsNull
            baseAddr variantId complexity shared = some after ∧
          (HandsOff shared after ↔ genBufIsNull = true ∨
            shared.guestRam.first (min objBytes.length 16777216) = objBytes.take 16777216) :=
  ⟨fun draws => generator_handsOff ctx key draws baseAddr variantId complexity shared,
    fun _ llvm workerBitcode genBufIsNull _ hobj => llvm_handsOff_iff ctx key llvm workerBitcode
      genBufIsNull baseAddr variantId complexity shared hobj⟩

end Ftpm

/-- An LLVM that returns the one byte `RET` for every module. -/
def retObject : Llvm.Api Unit :=
  ⟨fun _ => some ⟨[]⟩, fun _ _ => some [], fun _ => some [0xC3]⟩

/-- It is registered, and `guest_ram` still starts with a zero. -/
theorem not_handsOff_ret :
    ∃ after, Llvm.genApiRequestGeneration retObject []
        (Repository.repoWriteApiAddVariant
          (Tpm.cryptoApiSignData ⟨.zero, 0, 0, Fips180.initialHash⟩ Tpm.tpmSecretKey))
        false 0x1000 1 5 ⟨.zero, .zero, ⟨0, 0, 0⟩, []⟩ = some after ∧
      ¬ HandsOff ⟨.zero, .zero, ⟨0, 0, 0⟩, []⟩ after := by
  have hobj : Llvm.synthesize retObject [] 1 = some [0xC3] := rfl
  obtain ⟨after, hafter, hiff⟩ := llvm_handsOff_iff ⟨.zero, 0, 0, Fips180.initialHash⟩
    Tpm.tpmSecretKey retObject [] false 0x1000 1 5 ⟨.zero, .zero, ⟨0, 0, 0⟩, []⟩ hobj
  refine ⟨after, hafter, fun hoff => ?_⟩
  rcases hiff.1 hoff with hnull | hbytes
  · cases hnull
  · exact absurd hbytes (by decide)

end HkSystem
