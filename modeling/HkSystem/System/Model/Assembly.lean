import HkSystem.Common.Rpc
import HkSystem.Scheduler.Model.Timer
import HkSystem.System.Model.Permissions
import HkSystem.System.Model.System
import HkSystem.Vfs.Model.Server
/-!
# The assembly

`hk_system.camkes`: the components with the interfaces they provide, the RPC
connections between them and the dataports they share. Each handler is the code
of its component, cut where it calls another one or touches a dataport. A
message is a call of `hk_interfaces.idl` or the reply to one.

Two pieces of code are parameters. `gen_api_request_generation` is any code that works
on the Generator's variables, on `guest_ram` and on `gen_buf`, and calls `add_variant` as
often as it likes; `generatorC` is the one of `generator.c`. What the Worker runs in its
arena is any code that works on the Worker's memory, loads and stores through its dataports
as far as their rights go, calls `fs_api`, and returns or not. The client is the loop of
`admin.c`.
-/

namespace HkSystem

namespace Camkes

open Rpc (Code)

/-- The interfaces the components provide. -/
inductive Interface where
  | adminApi | genApi | repoApi | repoWriteApi | cryptoApi | ctrlApi | verifierTarget | timerCtrl
  | posixApi
  deriving DecidableEq

/-- The calls of `hk_interfaces.idl`, and the replies. -/
inductive Message where
  | printStatus
  | forceMutation
  | requestGeneration (baseAddr : UInt64) (variantId complexity : Int32)
  | getVariantAddress (variantId : Int32)
  | addVariant (variantId size : Int32)
  | signData (rawHash : UInt32)
  | verifySignature (rawHash signature : UInt32)
  | cmd (type payload : Int32)
  | getHash
  | setQuantum (milliseconds : Int32)
  | posix (call : Vfs.PosixCall)
  /-- The reply of a `void` procedure. -/
  | done
  | int (v : Int32)
  | word (v : UInt32)

/-- What the Dispatcher prints that depends on the run. -/
inductive Line where
  /-- "Active Code Variant ID" and "Total Secure Swaps". -/
  | telemetry (activeVariant totalSwaps : Int32)
  /-- "Local buffer hash computed". -/
  | localHash (hash : UInt32)
  /-- How the injection ended. -/
  | outcome (outcome : Dispatcher.Outcome)
  /-- "Worker execution response". -/
  | response (status : Int32)

/-- The dataports and the variables of the components, and the Dispatcher's
console. `ρ` is what the Generator keeps. -/
structure Memory (ρ : Type) where
  /-- The Dispatcher's counters, and the dataports of the attestation path. -/
  monitor : Dispatcher.State
  generator : ρ
  /-- The Scheduler's `current_quantum_ms`. -/
  quantumMs : UInt32
  /-- The VFS, with `fs_buffer`. -/
  vfs : Vfs.Server
  /-- The Worker's stack and data. -/
  worker : UInt64 → UInt8
  console : List Line

variable {ρ : Type}

def Memory.print (m : Memory ρ) (line : Line) : Memory ρ := { m with console := m.console ++ [line] }

/-- Code over the assembly. -/
abbrev Handler (ρ : Type) := Code Interface Message (Memory ρ)

/-- A step that may fail, which faults. -/
def attempt (f : Memory ρ → Option (Memory ρ)) (next : Memory ρ → Handler ρ) : Handler ρ :=
  .act (fun m => (f m).getD m) fun m => if (f m).isSome then next m else .fault

/-! ## The Generator -/

/-- What the Generator may write. -/
structure Workspace (ρ : Type) where
  own : ρ
  guestRam : Region 67108864
  genBuf : Region 16777216

/-- The code of a Generator. -/
inductive Synthesis (ρ : Type) where
  | ret
  | act (update : Workspace ρ → Workspace ρ) (next : Workspace ρ → Synthesis ρ)
  /-- `repo_write_api_add_variant`. -/
  | addVariant (variantId size : Int32) (next : Synthesis ρ)
  | fault

def Memory.workspace (m : Memory ρ) : Workspace ρ :=
  ⟨m.generator, m.monitor.shared.guestRam, m.monitor.shared.genBuf⟩

/-- The memory with what the Generator may write. -/
def Memory.withWorkspace (m : Memory ρ) (w : Workspace ρ) : Memory ρ :=
  { m with
    generator := w.own
    monitor :=
      { m.monitor with
        shared := { m.monitor.shared with guestRam := w.guestRam, genBuf := w.genBuf } } }

/-- A Generator's code, in the assembly. -/
def Synthesis.code : Synthesis ρ → Handler ρ
  | .ret => .ret .done
  | .act update next =>
    .act (fun m => m.withWorkspace (update m.workspace)) fun m => (next m.workspace).code
  | .addVariant variantId size next =>
    .call .repoWriteApi (.addVariant variantId size) fun _ => next.code
  | .fault => .fault

/-- `gen_api_request_generation` of `generator.c` up to its call of the Repository,
with the size it registers. -/
def emit (rdtsc : ℕ → UInt32 × UInt32) (w : Workspace Generator.Csprng) :
    Option (Workspace Generator.Csprng × Int32) :=
  (Generator.emitVariant (Generator.requestSecureRandom rdtsc) w.own w.guestRam w.genBuf).map
    fun r => (⟨r.1, r.2.1, r.2.2.1⟩, r.2.2.2)

/-- `gen_api_request_generation` of `generator.c`. -/
def generatorC (w : World) (_baseAddr : UInt64) (variantId _complexity : Int32) :
    Synthesis Generator.Csprng :=
  .act (fun ws => ((emit w.rdtsc ws).map Prod.fst).getD ws) fun ws =>
    match emit w.rdtsc ws with
    | none => .fault
    | some (_, totalSize) => .addVariant variantId totalSize .ret

/-! ## The code in the Worker's arena -/

/-- What the Worker's code can reach: its arena, the VFS, whose disk is its `fs_buffer` and
which answers `fs_api`, and its own memory. -/
structure Sandbox where
  executableArena : Region 4096
  vfs : Vfs.Server
  own : UInt64 → UInt8

/-- The Worker's dataports. -/
inductive Port where
  | executableArena | fsBuffer

def Port.dataport : Port → Dataport
  | .executableArena => .executableArena
  | .fsBuffer => .fsBuffer

/-- A load through a dataport, if it may be read. -/
def Sandbox.load (b : Sandbox) (port : Port) (offset : ℕ) : Option UInt8 :=
  if port.dataport.permits 'R' then
    match port with
    | .executableArena => b.executableArena.get? offset
    | .fsBuffer => b.vfs.virtualDiskArena.get? offset
  else none

/-- A store through a dataport, if it may be written. -/
def Sandbox.store (b : Sandbox) (port : Port) (offset : ℕ) (byte : UInt8) : Option Sandbox :=
  if port.dataport.permits 'W' then
    match port with
    | .executableArena =>
      (b.executableArena.set? offset byte).map fun arena => { b with executableArena := arena }
    | .fsBuffer =>
      (b.vfs.virtualDiskArena.set? offset byte).map fun disk =>
        { b with vfs := { b.vfs with virtualDiskArena := disk } }
  else none

/-- What the code in the arena does. -/
inductive Execution where
  /-- It returns to `ctrl_api_cmd`. -/
  | ret (result : UInt32)
  /-- A step on the Worker's own memory. -/
  | own (update : (UInt64 → UInt8) → UInt64 → UInt8) (next : (UInt64 → UInt8) → Execution)
  | load (port : Port) (offset : ℕ) (next : UInt8 → Execution)
  | store (port : Port) (offset : ℕ) (byte : UInt8) (next : Execution)
  /-- A call over `fs_api`. -/
  | posix (call : Vfs.PosixCall) (next : Int32 → Execution)
  /-- It faults, or never comes back. -/
  | fault

def Memory.sandbox (m : Memory ρ) : Sandbox := ⟨m.monitor.workerArena, m.vfs, m.worker⟩

/-- The memory with what the Worker's code can reach. -/
def Memory.withSandbox (m : Memory ρ) (b : Sandbox) : Memory ρ :=
  { m with
    monitor := { m.monitor with workerArena := b.executableArena }
    vfs := b.vfs
    worker := b.own }

/-- The code of the arena, in the assembly. -/
def Execution.code : Execution → Handler ρ
  | .ret result => .ret (.int result.toInt32)
  | .own update next =>
    .act (fun m => { m with worker := update m.worker }) fun m => (next m.worker).code
  | .load port offset next =>
    .act id fun m =>
      match m.sandbox.load port offset with
      | none => .fault
      | some byte => (next byte).code
  | .store port offset byte next =>
    attempt (fun m => (m.sandbox.store port offset byte).map m.withSandbox) fun _ => next.code
  | .posix call next =>
    .call .posixApi (.posix call) fun reply =>
      match reply with
      | .int v => (next v).code
      | _ => .fault
  | .fault => .fault

/-- The code `generator.c` emits: it works in registers, and nothing but its result leaves
the processor. -/
def onProcessor (w : World) (arena : Region 4096) : Execution :=
  match w.jitTask arena with
  | none => .fault
  | some result => .ret result

/-! ## The other components -/

/-- The Repository: `repo_write_api_add_variant`. -/
def addVariant (variantId size : Int32) : Handler ρ :=
  .act id fun m =>
    match Repository.computeJenkinsHash m.monitor.shared.genBuf (Words.sizeT size) with
    | none => .fault
    | some hash =>
      .call .cryptoApi (.signData hash) fun reply =>
        match reply with
        | .word signature =>
          .act (fun m => { m with
            monitor := { m.monitor with
              shared := m.monitor.shared.commit
                ⟨variantId.toUInt32, size.toUInt32, signature⟩ } }) fun _ => .ret .done
        | _ => .fault

/-- The fTPM: `crypto_api_sign_data`. -/
def signData (w : World) (rawHash : UInt32) : Handler ρ :=
  match Tpm.cryptoApiSignData w.signStack Tpm.tpmSecretKey rawHash with
  | none => .fault
  | some signature => .ret (.word signature)

/-- The fTPM: `crypto_api_verify_signature`. -/
def verifySignature (w : World) (rawHash signature : UInt32) : Handler ρ :=
  match Tpm.cryptoApiVerifySignature w.verifyStack Tpm.tpmSecretKey rawHash signature with
  | none => .fault
  | some isVerified => .ret (.int isVerified)

/-- The Worker: `ctrl_api_cmd`. -/
def ctrlCmd (jitTask : Region 4096 → Execution) (type _payload : Int32) : Handler ρ :=
  if type = 1 then .act id fun m => (jitTask m.monitor.workerArena).code
  else .ret (.int 0)

/-- The Worker: `verifier_target_get_hash`. -/
def getHash : Handler ρ :=
  .act id fun m =>
    match Dispatcher.verifierTargetGetHash m.monitor.workerArena with
    | none => .fault
    | some hash => .ret (.word hash)

/-- Step C of the transaction: the Worker is told to execute. -/
def execute : Handler ρ :=
  .call .ctrlApi (.cmd 1 0) fun reply =>
    match reply with
    | .int status => .act (·.print (.response status)) fun _ => .ret .done
    | _ => .fault

/-- The end of the injection, with the fTPM's answer. -/
def install (variantId isVerified : Int32) : Handler ρ :=
  if isVerified ≠ 0 then
    attempt (fun m => do
      let arena ← Region.memcpy m.monitor.workerArena m.monitor.shared.guestRam 4096
      some ({ m with
        monitor :=
          { m.monitor with
            workerArena := arena
            currentActiveVariant := variantId
            totalMutationsCount := m.monitor.totalMutationsCount + 1 } }.print
        (.outcome (.injected variantId)))) fun _ => execute
  else .act (·.print (.outcome (.blocked variantId))) fun _ => execute

/-- The hash of `guest_ram`, and the question to the fTPM. -/
def attest (variantId : Int32) (metadata : Metadata) : Handler ρ :=
  attempt (fun m => do
    let localHash ← Dispatcher.computeIntegrityHash m.monitor.shared.guestRam
      (Words.sizeT metadata.size.toInt32)
    some (m.print (.localHash localHash))) fun m =>
      match Dispatcher.computeIntegrityHash m.monitor.shared.guestRam
          (Words.sizeT metadata.size.toInt32) with
      | none => .fault
      | some localHash =>
        .call .cryptoApi (.verifySignature localHash metadata.signature) fun reply =>
          match reply with
          | .int isVerified => install variantId isVerified
          | _ => .fault

/-- Step B: `execute_secure_runtime_injection`, and on to step C. -/
def inject (variantId : Int32) : Handler ρ :=
  .act id fun m =>
    let metadata := m.monitor.shared.secureStorage
    let storedVid := metadata.vid.toInt32
    if storedVid ≠ variantId then
      .act (·.print (.outcome (.mismatch variantId storedVid))) fun _ => execute
    else attest variantId metadata

/-- The Dispatcher: `admin_api_force_mutation`. -/
def forceMutation : Handler ρ :=
  .act id fun m =>
    let nextId := m.monitor.totalMutationsCount + 1
    .call .genApi (.requestGeneration 0x1000 nextId 5) fun _ => inject nextId

/-- The Dispatcher: `admin_api_print_status`. -/
def printStatus : Handler ρ :=
  .act (fun m => m.print (.telemetry m.monitor.currentActiveVariant m.monitor.totalMutationsCount))
    fun _ => .ret .done

/-- The VFS: a call of `PosixAPI`. -/
def posix (call : Vfs.PosixCall) : Handler ρ :=
  .act (fun m => { m with vfs := (Vfs.server.step m.vfs call).1 }) fun m =>
    .ret (.int (Vfs.server.step m.vfs call).2)

/-! ## The composition -/

/-- How far `symbolic_sleep` counts: before the loop, between the two calls and after
them. -/
structure Delays where
  boot : ℕ
  between : ℕ
  standby : ℕ

/-- What differs from turn to turn, and the code that is a parameter. -/
structure Parts (ρ : Type) where
  world : ℕ → World
  generator : ℕ → UInt64 → Int32 → Int32 → Synthesis ρ
  jitTask : ℕ → Region 4096 → Execution
  delays : Delays

/-- The handlers. A message that is not in the interface's procedure cannot be
sent. -/
def Parts.serve (parts : Parts ρ) (i : ℕ) : Interface → Message → Handler ρ
  | .adminApi, .printStatus => printStatus
  | .adminApi, .forceMutation => forceMutation
  | .genApi, .requestGeneration baseAddr variantId complexity =>
    (parts.generator i baseAddr variantId complexity).code
  -- `repo_api_get_variant_address` is a placeholder
  | .repoApi, .getVariantAddress _ => .ret (.int 0)
  | .repoWriteApi, .addVariant variantId size => addVariant variantId size
  | .cryptoApi, .signData rawHash => signData (parts.world i) rawHash
  | .cryptoApi, .verifySignature rawHash signature =>
    verifySignature (parts.world i) rawHash signature
  | .ctrlApi, .cmd type payload => ctrlCmd (parts.jitTask i) type payload
  | .verifierTarget, .getHash => getHash
  | .timerCtrl, .setQuantum milliseconds =>
    .act (fun m => { m with quantumMs := Scheduler.ctrlSetQuantum milliseconds }) fun _ =>
      .ret .done
  | .posixApi, .posix call => posix call
  | _, _ => .fault

/-- `symbolic_sleep`. -/
def symbolicSleep : ℕ → Handler ρ → Handler ρ
  | 0, next => next
  | iterations + 1, next => .act id fun _ => symbolicSleep iterations next

/-- A turn of the loop of `admin.c`. -/
def adminLoop (delays : Delays) : Handler ρ :=
  .call .adminApi .printStatus fun _ =>
    symbolicSleep delays.between <| .call .adminApi .forceMutation fun _ =>
      symbolicSleep delays.standby <| .ret .done

/-- `run` of `admin.c`, turn after turn. -/
def adminRun (delays : Delays) : ℕ → Handler ρ
  | 0 => symbolicSleep delays.boot (adminLoop delays)
  | _ + 1 => adminLoop delays

def Parts.assembly (parts : Parts ρ) : Rpc.Assembly Interface Message (Memory ρ) :=
  ⟨adminRun parts.delays, parts.serve⟩

/-- An interface calls only those of a lower rank. Those of the highest are called by
nobody: the Dispatcher uses neither `repo_api` nor `timer_ctrl`, and the Verifier does
nothing. -/
def rank : Interface → ℕ
  | .repoApi | .verifierTarget | .timerCtrl => 4
  | .adminApi => 3
  | .genApi => 2
  | .repoWriteApi | .ctrlApi => 1
  | .cryptoApi | .posixApi => 0

/-- The memory at start-up: all dataports zero. -/
def boot (own : ρ) : Memory ρ :=
  ⟨Dispatcher.boot, own, Scheduler.baseQuantumMs, Vfs.boot .zero, fun _ => 0, []⟩

/-- The delays of `admin.c`. -/
def Delays.asCoded : Delays := ⟨80000000, 20000000, 800000000⟩

/-- The components of `generator.c`'s assembly. -/
def asCoded (world : ℕ → World) : Parts Generator.Csprng :=
  ⟨world, fun i => generatorC (world i), fun i => onProcessor (world i), .asCoded⟩

end Camkes

end HkSystem
