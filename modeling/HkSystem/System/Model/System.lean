import HkSystem.Common.X86
import HkSystem.Dispatcher.Model.Monitor
import HkSystem.Generator.Model.Csprng
import HkSystem.Generator.Model.Engine
import HkSystem.Repository.Model.Repository
import HkSystem.Tpm.Model.Device
/-!
# The system assembled

One transaction with every component as it is coded: the Dispatcher asks the
Generator, the Generator draws from its ChaCha20 source and calls the
Repository, the Repository has the fTPM sign, the Dispatcher has the fTPM
verify, and the Worker runs the arena on the processor. Calls are
synchronous. What the components find outside the system — the timestamp
counter, the fTPM's stack, the Worker's registers and memory, where its
arena is mapped — is the `World`.
-/

namespace HkSystem

/-- What the components find outside the system. -/
structure World where
  /-- The readings of the timestamp counter. -/
  rdtsc : ℕ → UInt32 × UInt32
  /-- What the fTPM's stack holds when it signs. -/
  signStack : Tpm.Sha256Ctx
  /-- What it holds when it verifies. -/
  verifyStack : Tpm.Sha256Ctx
  /-- The Worker's processor as it jumps into the arena. -/
  cpu : X86.Cpu
  /-- Where the arena is mapped. -/
  base : UInt64
  /-- How many instructions it is run for at most. -/
  fuel : ℕ

/-- A world of zeros: the counter, the stack, the registers and the memory. -/
def zeroWorld : World :=
  ⟨fun _ => (0, 0), ⟨.zero, 0, 0, Fips180.initialHash⟩, ⟨.zero, 0, 0, Fips180.initialHash⟩,
    ⟨0, fun _ => 0, ⟨false, false, false, false, false, false⟩, fun _ => 0⟩, 0x1000, 33⟩

/-- The Worker's memory, with the arena mapped at `base`. -/
def mapArena (base : UInt64) (arena : Region 4096) (mem : UInt64 → UInt8) (a : UInt64) : UInt8 :=
  (arena.get? (a - base).toNat).getD (mem a)

/-- `jit_task()` on the processor. -/
def World.jitTask (w : World) (arena : Region 4096) : Option UInt32 :=
  (X86.Cpu.call w.fuel
    { w.cpu with rip := w.base, mem := mapArena w.base arena w.cpu.mem }).map (·.reg32 .rax)

/-- `repo_write_api_add_variant`, with the fTPM signing. -/
def World.addVariant (w : World) : Int32 → Int32 → Shared → Option Shared :=
  Repository.repoWriteApiAddVariant (Tpm.cryptoApiSignData w.signStack Tpm.tpmSecretKey)

/-- `gen_api_request_generation`, with the Generator's own source. -/
def World.requestGeneration (w : World) (c : Generator.Csprng) (baseAddr : UInt64)
    (variantId complexity : Int32) (shared : Shared) : Option (Generator.Csprng × Shared) :=
  Generator.genApiRequestGeneration (Generator.requestSecureRandom w.rdtsc) w.addVariant baseAddr
    variantId complexity c shared

/-- The Dispatcher's calls, answered by the components as coded. -/
def World.env (w : World) (c : Generator.Csprng) : Dispatcher.Env where
  requestGeneration baseAddr variantId complexity shared :=
    (w.requestGeneration c baseAddr variantId complexity shared).map Prod.snd
  verifySignature := Tpm.cryptoApiVerifySignature w.verifyStack Tpm.tpmSecretKey
  jitTask := w.jitTask

/-! ## Transaction after transaction -/

/-- The Dispatcher with the dataports, and the Generator's random source. -/
structure System where
  monitor : Dispatcher.State
  csprng : Generator.Csprng

/-- One `admin_api_force_mutation`. The source moves on if synthesis returns. -/
def System.step (s : System) (w : World) : System × Dispatcher.Answer :=
  if s.monitor.halted then (s, .unserved)
  else
    let (monitor, report) := Dispatcher.adminApiForceMutation (w.env s.csprng) s.monitor
    let synthesis := w.requestGeneration s.csprng 0x1000 (s.monitor.totalMutationsCount + 1) 5
      s.monitor.shared
    (⟨monitor, (synthesis.map Prod.fst).getD s.csprng⟩, .cycle report)

/-- The system as a machine; what it is called with is what it finds outside. -/
def system : Machine System World Dispatcher.Answer := ⟨System.step⟩

end HkSystem
