import HkSystem.Common.Machine
import HkSystem.System.Model.Dataports
/-!
# The runtime monitor

The Dispatcher (`dispatcher.c`) and the Worker it drives (`worker.c`). The three
calls the Dispatcher makes to other components — synthesis by the Generator,
verification by the fTPM, execution by the Worker — are functions it is
given. A call that never returns has no result, and a read past the end of
a dataport faults; either way the Dispatcher's one control thread is gone,
so later administrative calls are not served.

A run is a list of administrative calls. In each cycle the Generator leaves
what it likes in `guest_ram` and has the Repository register whatever it
likes; the fTPM answers as it likes, and the code in the arena returns what
it likes or does not return.
-/

namespace HkSystem

namespace Dispatcher

/-! ## The Worker -/

/-- `verifier_target_get_hash`. -/
def verifierTargetGetHash (executableArena : Region 4096) : Option UInt32 :=
  OneAtATime.hashLoop executableArena 4096

/-- `ctrl_api_cmd`: the arena it jumps into, if it does, and its status, if
the code there returns. -/
def ctrlApiCmd (jitTask : Region 4096 → Option UInt32) (executableArena : Region 4096)
    (type _payload : Int32) : Option (Region 4096) × Option Int32 :=
  if type = 1 then (some executableArena, (jitTask executableArena).map (·.toInt32))
  else (none, some 0)

/-! ## The injection -/

/-- The Dispatcher's counters, the dataports, and whether its control thread
is stuck in a call or a fault. -/
structure State where
  totalMutationsCount : Int32
  currentActiveVariant : Int32
  workerArena : Region 4096
  shared : Shared
  halted : Bool

/-- `compute_integrity_hash`. -/
def computeIntegrityHash {n : ℕ} (data : Region n) (len : UInt64) : Option UInt32 :=
  OneAtATime.hashLoop data len.toNat

/-- How an injection ends. -/
inductive Outcome where
  /-- "Variant ID mismatch in repository." -/
  | mismatch (expected found : Int32)
  /-- The hash left `guest_ram`, or the fTPM did not answer. -/
  | stuck
  /-- "Attestation FAILED. Variant blocked." -/
  | blocked (variantId : Int32)
  /-- "Integrity verified by fTPM. Code variant injected." -/
  | injected (variantId : Int32)
  deriving DecidableEq

/-- `execute_secure_runtime_injection`. -/
def executeSecureRuntimeInjection (verifySignature : UInt32 → UInt32 → Option Int32) (s : State)
    (variantId : Int32) : State × Outcome :=
  let metadata := s.shared.secureStorage
  let storedVid := metadata.vid.toInt32
  let payloadSize := metadata.size.toInt32
  let expectedSignature := metadata.signature
  if storedVid ≠ variantId then (s, .mismatch variantId storedVid)
  else
    match computeIntegrityHash s.shared.guestRam (Words.sizeT payloadSize) with
    | none => (s, .stuck)
    | some localHash =>
      match verifySignature localHash expectedSignature with
      | none => (s, .stuck)
      | some isVerified =>
        if isVerified ≠ 0 then
          match Region.memcpy s.workerArena s.shared.guestRam 4096 with
          | none => (s, .stuck)
          | some arena =>
            ({ s with
                workerArena := arena
                currentActiveVariant := variantId
                totalMutationsCount := s.totalMutationsCount + 1 }, .injected variantId)
        else (s, .blocked variantId)

/-! ## The transaction cycle -/

/-- The calls the Dispatcher makes in one cycle. -/
structure Env where
  /-- `gen_api_request_generation`, with the `add_variant` calls it makes. -/
  requestGeneration : UInt64 → Int32 → Int32 → Shared → Option Shared
  /-- `tpm_verify_api_verify_signature`. -/
  verifySignature : UInt32 → UInt32 → Option Int32
  /-- The code in the arena, called as `uint32_t (*)(void)`. -/
  jitTask : Region 4096 → Option UInt32

/-- What one cycle did. -/
structure Report where
  /-- How the injection ended, if it was reached. -/
  outcome : Option Outcome
  /-- The command sent to the Worker, if one was. -/
  command : Option (Int32 × Int32)
  /-- The arena the Worker jumped into, if it did. -/
  jump : Option (Region 4096)
  /-- The Worker's status, if it returned one. -/
  status : Option Int32

/-- `admin_api_force_mutation`. -/
def adminApiForceMutation (env : Env) (s : State) : State × Report :=
  let nextId := s.totalMutationsCount + 1
  match env.requestGeneration 0x1000 nextId 5 s.shared with
  | none => ({ s with halted := true }, ⟨none, none, none, none⟩)
  | some shared =>
    let (s, outcome) :=
      executeSecureRuntimeInjection env.verifySignature { s with shared := shared } nextId
    if outcome = .stuck then ({ s with halted := true }, ⟨some outcome, none, none, none⟩)
    else
      let (jump, status) := ctrlApiCmd env.jitTask s.workerArena 1 0
      ({ s with halted := status.isNone }, ⟨some outcome, some (1, 0), jump, status⟩)

/-! ## Runs -/

/-- What the Generator does in one cycle: the registrations it has the
Repository commit, and what it leaves in its dataports. -/
structure Supply where
  guestRam : Region 67108864
  genBuf : Region 16777216
  registrations : List Metadata

/-- The dataports after a cycle's synthesis. -/
def Supply.apply (supply : Supply) (shared : Shared) : Shared :=
  supply.registrations.foldl Shared.commit
    { shared with guestRam := supply.guestRam, genBuf := supply.genBuf }

/-- An administrative call, with what the rest of the system does during it. -/
inductive Call where
  /-- `admin_api_force_mutation`; the synthesis may fail to return. -/
  | forceMutation (supply : Option Supply) (verifySignature : UInt32 → UInt32 → Option Int32)
      (jitTask : Region 4096 → Option UInt32)
  /-- `admin_api_print_status`. -/
  | printStatus

/-- The answer to an administrative call. -/
inductive Answer where
  | cycle (report : Report)
  | telemetry (activeVariant totalSwaps : Int32)
  /-- The control thread is gone. -/
  | unserved

/-- The calls of a cycle with a given supply. -/
def Supply.env (supply : Option Supply) (verifySignature : UInt32 → UInt32 → Option Int32)
    (jitTask : Region 4096 → Option UInt32) : Env :=
  ⟨fun _ _ _ shared => supply.map (·.apply shared), verifySignature, jitTask⟩

/-- One administrative call. -/
def step (s : State) (call : Call) : State × Answer :=
  if s.halted then (s, .unserved)
  else
    match call with
    | .printStatus => (s, .telemetry s.currentActiveVariant s.totalMutationsCount)
    | .forceMutation supply verifySignature jitTask =>
      let (s, report) := adminApiForceMutation (Supply.env supply verifySignature jitTask) s
      (s, .cycle report)

/-- The monitor as a machine. -/
def monitor : Machine State Call Answer := ⟨step⟩

/-- All dataports zero, both counters zero. -/
def boot : State :=
  ⟨0, 0, .zero, ⟨.zero, .zero, ⟨0, 0, 0⟩, []⟩, false⟩

end Dispatcher

end HkSystem
