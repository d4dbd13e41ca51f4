import HkSystem.System.Model.Threads
/-!
# What the memory permissions are about

Which instance a thread runs in, and when two memories have the same contents of a region
or the same variables of an instance.
-/

namespace HkSystem

namespace Camkes

/-- The instance that provides an interface. -/
def Interface.provider : Interface → Instance
  | .adminApi => .dispatcherInst
  | .genApi => .genInst
  | .repoApi | .repoWriteApi => .repoInst
  | .cryptoApi => .tpmInst
  | .ctrlApi | .verifierTarget => .workerInst
  | .timerCtrl => .timerInst
  | .posixApi => .vfsInst

/-- The instance a thread runs in. -/
def instanceOf : ThreadId → Instance
  | .inl none => .adminInst
  | .inl (some p) => p.provider
  | .inr .schedulerRun => .timerInst
  | .inr .hwTickRun => .dispatcherInst
  | .inr (.control i) => i

variable {ρ : Type}

/-- Two memories with the same contents of a region. -/
def Link.Same : Link → Memory ρ → Memory ρ → Prop
  | .execArena, m, m' => m.monitor.workerArena = m'.monitor.workerArena
  | .secureMeta, m, m' => m.monitor.shared.secureStorage = m'.monitor.shared.secureStorage
  | .genTransfer, m, m' => m.monitor.shared.genBuf = m'.monitor.shared.genBuf
  | .systemRam, m, m' => m.monitor.shared.guestRam = m'.monitor.shared.guestRam
  | .vfsIo, m, m' => m.vfs.virtualDiskArena = m'.vfs.virtualDiskArena

/-- Two memories with the same variables of an instance. -/
def Instance.SameVariables : Instance → Memory ρ → Memory ρ → Prop
  | .dispatcherInst, m, m' =>
    m.monitor.currentActiveVariant = m'.monitor.currentActiveVariant ∧
      m.monitor.totalMutationsCount = m'.monitor.totalMutationsCount ∧ m.console = m'.console
  | .genInst, m, m' => m.generator = m'.generator
  | .timerInst, m, m' => m.quantumMs = m'.quantumMs
  | .vfsInst, m, m' => m.vfs.diskOffset = m'.vfs.diskOffset
  | .workerInst, m, m' => m.worker = m'.worker
  | .verifierInst, _, _ | .repoInst, _, _ | .adminInst, _, _ | .tpmInst, _, _ =>
    True

end Camkes

end HkSystem
