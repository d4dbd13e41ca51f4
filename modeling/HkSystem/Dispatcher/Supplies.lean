import HkSystem.Dispatcher.Cycle
import HkSystem.Repository.Registration
import HkSystem.System.Model.System
/-!
# What is registered and what is found

The Repository signs the bytes in `gen_buf`, and the Dispatcher hashes those in
`guest_ram`. With the fTPM as coded, a variant that has just been registered is
attested exactly if the two have one signature (`attested_commit_iff`), and the
cycle goes on accordingly (`step_of_attested`, `step_of_refused`).
-/

namespace HkSystem

variable {shared : Shared} {bytes : List UInt8} {variantId : Int32}

/-! ## A registration -/

/-- What the Repository commits for a byte string at the front of `gen_buf`. -/
def metadataOf (variantId : Int32) (bytes : List UInt8) : Metadata :=
  ⟨variantId.toUInt32, UInt32.ofNat bytes.length,
    Tpm.signatureOf Tpm.tpmSecretKey (OneAtATime.digest bytes)⟩

theorem payloadLen_metadataOf (h : bytes.length < 2 ^ 31) :
    (metadataOf variantId bytes).payloadLen = bytes.length := by
  rw [Metadata.payloadLen, metadataOf, ← Int32.toUInt32_ofNat', Int32.toInt32_toUInt32,
    Words.toNat_sizeT_ofNat h]

/-- **Registering a variant signs its bytes.** -/
theorem addVariant_of_first (w : World) (variantId : Int32) (h : bytes.length ≤ 16777216)
    (hbuf : shared.genBuf.first bytes.length = bytes) :
    w.addVariant variantId (Int32.ofNat bytes.length) shared =
      some (shared.commit (metadataOf variantId bytes)) := by
  have hsize := Words.toNat_sizeT_ofNat (show bytes.length < 2 ^ 31 by omega)
  rw [World.addVariant, Repository.repoWriteApiAddVariant_ftpm _ _ (by omega), hsize, hbuf,
    Int32.toUInt32_ofNat']
  rfl

/-- **It is attested exactly if** `guest_ram` starts with bytes of the same signature. -/
theorem attested_commit_iff (ctx : Tpm.Sha256Ctx) (h : bytes.length ≤ 16777216) :
    Dispatcher.Attested (Tpm.cryptoApiVerifySignature ctx Tpm.tpmSecretKey)
        (shared.commit (metadataOf variantId bytes)) variantId ↔
      Tpm.signatureOf Tpm.tpmSecretKey (OneAtATime.digest bytes) =
        Tpm.signatureOf Tpm.tpmSecretKey
          (OneAtATime.digest (shared.guestRam.first bytes.length)) := by
  have hlen : (metadataOf variantId bytes).payloadLen = bytes.length :=
    payloadLen_metadataOf (by omega)
  rw [Dispatcher.attested_iff]
  change (metadataOf variantId bytes).vid.toInt32 = variantId ∧
    (metadataOf variantId bytes).payloadLen ≤ 67108864 ∧
      (metadataOf variantId bytes).signature = Tpm.signatureOf Tpm.tpmSecretKey (OneAtATime.digest
        (shared.guestRam.first (metadataOf variantId bytes).payloadLen)) ↔ _
  rw [hlen]
  exact ⟨fun hatt => hatt.2.2, fun hsig => ⟨Int32.toInt32_toUInt32 variantId, by omega, hsig⟩⟩

/-- Either way the check ends. -/
theorem not_stuck_commit (ctx : Tpm.Sha256Ctx) (h : bytes.length ≤ 16777216) :
    ¬ Dispatcher.Stuck (Tpm.cryptoApiVerifySignature ctx Tpm.tpmSecretKey)
      (shared.commit (metadataOf variantId bytes)) variantId := by
  intro hstuck
  have hlong : 67108864 < (metadataOf variantId bytes).payloadLen :=
    ((Dispatcher.stuck_iff _ _).1 hstuck).2
  rw [payloadLen_metadataOf (by omega)] at hlong
  omega

namespace Dispatcher

/-! ## Cycles -/

section Cycles

variable {s : State} {supply : Supply} {verifySignature : UInt32 → UInt32 → Option Int32}
variable {jitTask : Region 4096 → Option UInt32}

/-- An attested cycle installs what was supplied. -/
theorem step_of_attested (hhalt : s.halted = false)
    (hatt : Attested verifySignature (supply.apply s.shared) (s.totalMutationsCount + 1)) :
    ∃ arena, Region.memcpy s.workerArena (supply.apply s.shared).guestRam 4096 = some arena ∧
      (monitor.step s (.forceMutation (some supply) verifySignature jitTask)).1 =
        { s with
          shared := supply.apply s.shared
          workerArena := arena
          currentActiveVariant := s.totalMutationsCount + 1
          totalMutationsCount := s.totalMutationsCount + 1
          halted := (jitTask arena).isNone } := by
  obtain ⟨arena, hcopy, hcycle⟩ := cycle_of_attested
    (Supply.env (some supply) verifySignature jitTask) rfl hatt
  refine ⟨arena, hcopy, ?_⟩
  simp only [monitor, step, hhalt, hcycle]
  rfl

/-- A refused cycle keeps what was supplied. -/
theorem step_of_refused (hhalt : s.halted = false)
    (hatt : ¬ Attested verifySignature (supply.apply s.shared) (s.totalMutationsCount + 1))
    (hstuck : ¬ Stuck verifySignature (supply.apply s.shared) (s.totalMutationsCount + 1)) :
    (monitor.step s (.forceMutation (some supply) verifySignature jitTask)).1 =
      { s with
        shared := supply.apply s.shared
        halted := (jitTask s.workerArena).isNone } := by
  obtain ⟨outcome, -, -, hcycle⟩ := cycle_of_refused
    (Supply.env (some supply) verifySignature jitTask) rfl hatt hstuck
  simp only [monitor, step, hhalt, hcycle]
  rfl

end Cycles

/-! ## A Generator that registers one thing and leaves another -/

/-- One byte string in `guest_ram`, another in `gen_buf`, and the second registered. -/
def Supply.registered (variantId : Int32) (ram buf : List UInt8) : Supply :=
  ⟨.ofList ram, .ofList buf, [metadataOf variantId buf]⟩

/-- `admin_api_force_mutation` with the fTPM and the Worker as coded. -/
def Supply.call (w : World) (supply : Supply) : Call :=
  .forceMutation (some supply) (Tpm.cryptoApiVerifySignature w.verifyStack Tpm.tpmSecretKey)
    w.jitTask

variable {s : State} {ram buf : List UInt8}

/-- The Repository makes this registration of it. -/
theorem addVariant_registered (w : World) (variantId : Int32) (hbuf : buf.length ≤ 16777216) :
    w.addVariant variantId (Int32.ofNat buf.length)
        { shared with guestRam := .ofList ram, genBuf := .ofList buf } =
      some ((Supply.registered variantId ram buf).apply shared) :=
  addVariant_of_first w variantId hbuf (Region.first_ofList hbuf)

theorem attested_registered_iff (ctx : Tpm.Sha256Ctx) (hbuf : buf.length ≤ 16777216)
    (hram : ram.length = buf.length) :
    Attested (Tpm.cryptoApiVerifySignature ctx Tpm.tpmSecretKey)
        ((Supply.registered variantId ram buf).apply shared) variantId ↔
      Tpm.signatureOf Tpm.tpmSecretKey (OneAtATime.digest buf) =
        Tpm.signatureOf Tpm.tpmSecretKey (OneAtATime.digest ram) := by
  have hfirst : (Region.ofList ram : Region 67108864).first buf.length = ram := by
    rw [← hram, Region.first_ofList (by omega)]
  have hiff := @attested_commit_iff { shared with guestRam := .ofList ram, genBuf := .ofList buf }
    buf variantId ctx hbuf
  rw [hfirst] at hiff
  exact hiff

/-- **What is registered and left is swapped in.** -/
theorem step_registered (w : World) (hhalt : s.halted = false)
    (hid : s.totalMutationsCount + 1 = variantId) (hbuf : buf.length ≤ 16777216) :
    (monitor.step s ((Supply.registered variantId buf buf).call w)).1 =
      { s with
        shared := (Supply.registered variantId buf buf).apply s.shared
        workerArena := .ofList buf
        currentActiveVariant := variantId
        totalMutationsCount := variantId
        halted := (w.jitTask (.ofList buf)).isNone } := by
  subst hid
  obtain ⟨arena, hcopy, hstep⟩ := @step_of_attested s
    (Supply.registered (s.totalMutationsCount + 1) buf buf) _ w.jitTask hhalt
    ((attested_registered_iff w.verifyStack hbuf rfl).2 rfl)
  have harena : Region.memcpy s.workerArena (.ofList buf : Region 67108864) 4096 =
      some (.ofList buf) := Region.memcpy_ofList (by decide)
  obtain rfl := Option.some.inj (hcopy.symm.trans harena)
  exact hstep

/-- **What is left in its place is refused**, if the fTPM tells the two apart. -/
theorem step_replaced (w : World) (hhalt : s.halted = false)
    (hid : s.totalMutationsCount + 1 = variantId) (hbuf : buf.length ≤ 16777216)
    (hram : ram.length = buf.length)
    (hsig : Tpm.signatureOf Tpm.tpmSecretKey (OneAtATime.digest buf) ≠
      Tpm.signatureOf Tpm.tpmSecretKey (OneAtATime.digest ram)) :
    (monitor.step s ((Supply.registered variantId ram buf).call w)).1 =
      { s with
        shared := (Supply.registered variantId ram buf).apply s.shared
        halted := (w.jitTask s.workerArena).isNone } := by
  subst hid
  exact step_of_refused hhalt (fun hatt => hsig ((attested_registered_iff _ hbuf hram).1 hatt))
    (not_stuck_commit _ hbuf)

/-! ## One byte apart -/

/-- `XOR EAX, EAX; RET`. -/
def clearEax : List UInt8 := [0x31, 0xC0, 0xC3]

/-- `XOR ECX, ECX; RET`. -/
def clearEcx : List UInt8 := [0x31, 0xC9, 0xC3]

/-- The fTPM tells the two apart. -/
theorem signatureOf_clear_ne :
    Tpm.signatureOf Tpm.tpmSecretKey (OneAtATime.digest clearEax) ≠
      Tpm.signatureOf Tpm.tpmSecretKey (OneAtATime.digest clearEcx) := by
  have heax : Tpm.signatureOf Tpm.tpmSecretKey (OneAtATime.digest clearEax) = 0x9081b7dd :=
    Tpm.signatureOf_eq ⟨.zero, 0, 0, Fips180.initialHash⟩ (by decide +kernel)
  have hecx : Tpm.signatureOf Tpm.tpmSecretKey (OneAtATime.digest clearEcx) = 0xf06f0039 :=
    Tpm.signatureOf_eq ⟨.zero, 0, 0, Fips180.initialHash⟩ (by decide +kernel)
  rw [heax, hecx]
  decide

theorem jitTask_clearEax : zeroWorld.jitTask (.ofList clearEax) = some 0 := by decide +kernel

/-- A first cycle swaps in `clearEax`. -/
def afterSwap : State :=
  ⟨1, 1, .ofList clearEax, (Supply.registered 1 clearEax clearEax).apply boot.shared, false⟩

theorem step_boot :
    (monitor.step boot ((Supply.registered 1 clearEax clearEax).call zeroWorld)).1 =
      afterSwap := by
  have hstep := @step_registered 1 boot clearEax zeroWorld rfl rfl (by decide)
  rw [jitTask_clearEax] at hstep
  exact hstep

/-- A second one registers it again and leaves `clearEcx`: it is blocked, and the
Worker runs what the first one left in the arena. -/
def afterBlocked : State :=
  { afterSwap with shared := (Supply.registered 2 clearEcx clearEax).apply afterSwap.shared }

theorem step_afterSwap :
    (monitor.step afterSwap ((Supply.registered 2 clearEcx clearEax).call zeroWorld)).1 =
      afterBlocked := by
  have hstep := @step_replaced 2 afterSwap clearEcx clearEax zeroWorld rfl rfl (by decide) rfl
    signatureOf_clear_ne
  have hjit : zeroWorld.jitTask afterSwap.workerArena = some 0 := jitTask_clearEax
  rw [hjit] at hstep
  exact hstep

end Dispatcher

end HkSystem
