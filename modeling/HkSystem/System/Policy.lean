import HkSystem.System.Interleaving
import HkSystem.System.Model.Policy
/-!
# The memory permissions are enough

The configuration of `hk_system.camkes` gives every dataport its rights, and the kernel
stops a component that goes beyond them. The components' code never does: in every run a
move changes only regions that its component may write, and comes out the same for all
memories that agree on what the component may read (`policy_respected`). What the Worker
runs in its arena may try, and then it faults. So what a component may not read cannot
reach it but by way of a call.
-/

namespace HkSystem

namespace Camkes

open Rpc (Code Config)

variable {ρ : Type} {m m' : Memory ρ}

/-! ## What a component may read -/

/-- Two memories that agree on the variables of an instance, and on every region it may
read. -/
structure Agrees (i : Instance) (m m' : Memory ρ) : Prop where
  readable : ∀ d : Dataport, d.owner = i → d.permits 'R' = true → d.link.Same m m'
  own : i.SameVariables m m'

theorem agrees_dispatcher_iff : Agrees .dispatcherInst m m' ↔
    m.monitor.workerArena = m'.monitor.workerArena ∧
      m.monitor.shared.secureStorage = m'.monitor.shared.secureStorage ∧
      m.monitor.shared.guestRam = m'.monitor.shared.guestRam ∧
      m.monitor.currentActiveVariant = m'.monitor.currentActiveVariant ∧
      m.monitor.totalMutationsCount = m'.monitor.totalMutationsCount ∧
      m.console = m'.console := by
  constructor
  · intro h
    exact ⟨h.readable .workerArena rfl rfl, h.readable .repoMetadata rfl rfl,
      h.readable .dispatcherGuestRam rfl rfl, h.own⟩
  · rintro ⟨harena, hmeta, hram, hvars⟩
    refine ⟨fun d howner _ => ?_, hvars⟩
    cases d with
    | workerArena => exact harena
    | repoMetadata => exact hmeta
    | dispatcherGuestRam => exact hram
    | _ => cases howner

theorem agrees_generator_iff : Agrees .genInst m m' ↔ m.workspace = m'.workspace := by
  constructor
  · intro h
    have hbuf : m.monitor.shared.genBuf = m'.monitor.shared.genBuf :=
      h.readable .genOutputBuf rfl rfl
    have hram : m.monitor.shared.guestRam = m'.monitor.shared.guestRam :=
      h.readable .genGuestRam rfl rfl
    have hown : m.generator = m'.generator := h.own
    rw [Memory.workspace, Memory.workspace, hown, hram, hbuf]
  · intro h
    obtain ⟨hown, hram, hbuf⟩ := Workspace.mk.inj h
    refine ⟨fun d howner _ => ?_, hown⟩
    cases d with
    | genOutputBuf => exact hbuf
    | genGuestRam => exact hram
    | _ => cases howner

theorem agrees_worker_iff : Agrees .workerInst m m' ↔
    m.monitor.workerArena = m'.monitor.workerArena ∧
      m.vfs.virtualDiskArena = m'.vfs.virtualDiskArena ∧ m.worker = m'.worker := by
  constructor
  · intro h
    exact ⟨h.readable .executableArena rfl rfl, h.readable .fsBuffer rfl rfl, h.own⟩
  · rintro ⟨harena, hdisk, hown⟩
    refine ⟨fun d howner _ => ?_, hown⟩
    cases d with
    | executableArena => exact harena
    | fsBuffer => exact hdisk
    | _ => cases howner

/-! ## The code of the components -/

theorem agrees_print (h : Agrees .dispatcherInst m m') (line : Line) :
    Agrees .dispatcherInst (m.print line) (m'.print line) := by
  obtain ⟨harena, hmeta, hram, hactive, htotal, hconsole⟩ := agrees_dispatcher_iff.1 h
  exact agrees_dispatcher_iff.2 ⟨harena, hmeta, hram, hactive, htotal,
    congrArg (· ++ [line]) hconsole⟩

theorem sees_execute : (execute : Handler ρ).Sees (Agrees .dispatcherInst) := by
  refine .call fun reply => ?_
  split
  · exact .act (fun m m' h => ⟨agrees_print h _, rfl⟩) fun _ => .ret _
  · exact .fault

/-- A step that may fail, on memories that agree. -/
theorem sees_attempt {E : Memory ρ → Memory ρ → Prop} {f : Memory ρ → Option (Memory ρ)}
    {next : Memory ρ → Handler ρ}
    (hf : ∀ m m', E m m' → (f m = none ∧ f m' = none) ∨
      ∃ n n', f m = some n ∧ f m' = some n' ∧ E n n')
    (hnext : ∀ m m', E m m' → next m = next m') (h : ∀ m, (next m).Sees E) :
    (attempt f next).Sees E := by
  refine .act (fun m m' hm => ?_) fun m => ?_
  · rcases hf m m' hm with ⟨hnone, hnone'⟩ | ⟨n, n', hsome, hsome', hn⟩
    · simp [hnone, hnone', hm]
    · simp [hsome, hsome', hn, hnext m m' hm]
  · split
    · exact h m
    · exact .fault

theorem sees_install (variantId isVerified : Int32) :
    (install variantId isVerified : Handler ρ).Sees (Agrees .dispatcherInst) := by
  unfold install
  split
  · refine sees_attempt (fun m m' h => ?_) (fun _ _ _ => rfl) fun _ => sees_execute
    obtain ⟨harena, hmeta, hram, hactive, htotal, hconsole⟩ := agrees_dispatcher_iff.1 h
    rw [harena, hram, htotal]
    rcases Region.memcpy m'.monitor.workerArena m'.monitor.shared.guestRam 4096 with _ | arena
    · exact Or.inl ⟨rfl, rfl⟩
    · exact Or.inr ⟨_, _, rfl, rfl, agrees_dispatcher_iff.2
        ⟨rfl, hmeta, hram, rfl, rfl, congrArg (· ++ [_]) hconsole⟩⟩
  · exact .act (fun m m' h => ⟨agrees_print h _, rfl⟩) fun _ => sees_execute

theorem sees_attest (variantId : Int32) (metadata : Metadata) :
    (attest variantId metadata : Handler ρ).Sees (Agrees .dispatcherInst) := by
  refine sees_attempt (fun m m' h => ?_) (fun m m' h => ?_) fun m => ?_
  · obtain ⟨-, -, hram, -⟩ := agrees_dispatcher_iff.1 h
    rw [hram]
    rcases Dispatcher.computeIntegrityHash m'.monitor.shared.guestRam
      (Words.sizeT metadata.size.toInt32) with _ | localHash
    · exact Or.inl ⟨rfl, rfl⟩
    · exact Or.inr ⟨_, _, rfl, rfl, agrees_print h _⟩
  · obtain ⟨-, -, hram, -⟩ := agrees_dispatcher_iff.1 h
    rw [hram]
  · split
    · exact .fault
    · refine .call fun reply => ?_
      split
      · exact sees_install variantId _
      · exact .fault

theorem sees_inject (variantId : Int32) :
    (inject variantId : Handler ρ).Sees (Agrees .dispatcherInst) := by
  refine .act (fun m m' h => ⟨h, ?_⟩) fun m => ?_
  · obtain ⟨-, hmeta, -⟩ := agrees_dispatcher_iff.1 h
    rw [hmeta]
  · change Code.Every _ (if _ then _ else _)
    split
    · exact .act (fun m m' h => ⟨agrees_print h _, rfl⟩) fun _ => sees_execute
    · exact sees_attest _ _

theorem sees_forceMutation : (forceMutation : Handler ρ).Sees (Agrees .dispatcherInst) := by
  refine .act (fun m m' h => ⟨h, ?_⟩) fun m => .call fun _ => sees_inject _
  obtain ⟨-, -, -, -, htotal, -⟩ := agrees_dispatcher_iff.1 h
  rw [htotal]

theorem sees_printStatus : (printStatus : Handler ρ).Sees (Agrees .dispatcherInst) := by
  refine .act (fun m m' h => ⟨?_, rfl⟩) fun _ => .ret _
  obtain ⟨-, -, -, hactive, htotal, -⟩ := agrees_dispatcher_iff.1 h
  rw [hactive, htotal]
  exact agrees_print h _

theorem sees_synthesis (g : Synthesis ρ) : g.code.Sees (Agrees .genInst) := by
  induction g with
  | ret => exact .ret _
  | act update next ih =>
    refine .act (fun m m' h => ⟨?_, ?_⟩) fun m => ih m.workspace
    · have hwork := agrees_generator_iff.1 h
      exact agrees_generator_iff.2 (congrArg update hwork)
    · rw [agrees_generator_iff.1 h]
  | addVariant variantId size next ih => exact .call fun _ => ih
  | fault => exact .fault

theorem sees_addVariant (variantId size : Int32) :
    (addVariant variantId size : Handler ρ).Sees (Agrees .repoInst) := by
  refine .act (fun m m' h => ⟨h, ?_⟩) fun m => ?_
  · have hbuf : m.monitor.shared.genBuf = m'.monitor.shared.genBuf :=
      h.readable .genInputBuf rfl rfl
    rw [hbuf]
  · split
    · exact .fault
    · refine .call fun reply => ?_
      split
      · refine .act (fun m m' h => ⟨⟨fun d howner hread => ?_, trivial⟩, rfl⟩) fun _ => .ret _
        cases d with
        | secureStorage => rfl
        | genInputBuf => exact h.readable .genInputBuf rfl rfl
        | _ => cases howner
      · exact .fault

theorem load_of_agrees (h : Agrees .workerInst m m') (port : Port) (offset : ℕ) :
    m.sandbox.load port offset = m'.sandbox.load port offset := by
  obtain ⟨harena, hdisk, -⟩ := agrees_worker_iff.1 h
  cases port with
  | executableArena => exact congrArg (Region.get? · offset) harena
  | fsBuffer => exact congrArg (Region.get? · offset) hdisk

/-- The code in the arena reads and writes as the rights of the dataports allow. -/
theorem sees_execution (e : Execution) : (e.code : Handler ρ).Sees (Agrees .workerInst) := by
  induction e with
  | ret result => exact .ret _
  | own update next ih =>
    refine .act (fun m m' h => ?_) fun m => ih m.worker
    obtain ⟨harena, hdisk, hown⟩ := agrees_worker_iff.1 h
    rw [hown]
    exact ⟨agrees_worker_iff.2 ⟨harena, hdisk, rfl⟩, rfl⟩
  | load port offset next ih =>
    rw [Execution.code]
    refine .act (fun m m' h => ⟨h, ?_⟩) fun m => ?_
    · rw [load_of_agrees h]
    · split
      · exact .fault
      · exact ih _
  | store port offset byte next ih =>
    refine sees_attempt (fun m m' h => ?_) (fun _ _ _ => rfl) fun _ => ih
    cases port with
    | executableArena => exact Or.inl ⟨rfl, rfl⟩
    | fsBuffer =>
      obtain ⟨harena, hdisk, hown⟩ := agrees_worker_iff.1 h
      have hset : m.sandbox.vfs.virtualDiskArena.set? offset byte =
        m'.sandbox.vfs.virtualDiskArena.set? offset byte := congrArg (Region.set? · offset byte) hdisk
      rw [store_fsBuffer, store_fsBuffer, hset]
      rcases m'.sandbox.vfs.virtualDiskArena.set? offset byte with _ | disk
      · exact Or.inl ⟨rfl, rfl⟩
      · exact Or.inr ⟨_, _, rfl, rfl, agrees_worker_iff.2 ⟨harena, rfl, hown⟩⟩
  | posix call next ih =>
    rw [Execution.code]
    refine .call fun reply => ?_
    split
    · exact ih _
    · exact .fault
  | fault => exact .fault

theorem sees_ctrlCmd (jitTask : Region 4096 → Execution) (type payload : Int32) :
    (ctrlCmd jitTask type payload : Handler ρ).Sees (Agrees .workerInst) := by
  unfold ctrlCmd
  split
  · refine .act (fun m m' h => ⟨h, ?_⟩) fun m => sees_execution _
    rw [(agrees_worker_iff.1 h).1]
  · exact .ret _

theorem sees_getHash : (getHash : Handler ρ).Sees (Agrees .workerInst) := by
  unfold getHash
  -- the hash itself does not matter, and is not to be computed
  generalize Dispatcher.verifierTargetGetHash = hashOf
  refine .act (fun m m' h => ⟨h, ?_⟩) fun m => ?_
  · rw [(agrees_worker_iff.1 h).1]
  · split
    · exact .fault
    · exact .ret _

theorem sees_posix (call : Vfs.PosixCall) : (posix call : Handler ρ).Sees (Agrees .vfsInst) := by
  refine .act (fun m m' h => ?_) fun _ => .ret _
  have harena : m.vfs.virtualDiskArena = m'.vfs.virtualDiskArena :=
    h.readable .virtualDiskArena rfl rfl
  have hoffset : m.vfs.diskOffset = m'.vfs.diskOffset := h.own
  have hvfs : m.vfs = m'.vfs := by
    cases hm : m.vfs
    cases hm' : m'.vfs
    rw [hm, hm'] at harena hoffset
    cases harena
    cases hoffset
    rfl
  rw [hvfs]
  refine ⟨⟨fun d howner _ => ?_, rfl⟩, rfl⟩
  cases d with
  | virtualDiskArena => rfl
  | _ => cases howner

/-- **The code of every component sees what it may read.** -/
theorem sees_assembly (parts : Parts ρ) :
    parts.assembly.Sees fun t => Agrees (instanceOf (.inl t)) := by
  refine ⟨every_adminRun (fun _ _ _ h => ⟨h, rfl⟩) _, fun i p v => ?_⟩
  change (parts.serve i p v).Sees (Agrees p.provider)
  unfold Parts.serve
  split
  · exact sees_printStatus
  · exact sees_forceMutation
  · exact sees_synthesis _
  · exact .ret _
  · exact sees_addVariant _ _
  · exact every_signData _ _
  · exact every_verifySignature _ _ _
  · exact sees_ctrlCmd _ _ _
  · exact sees_getHash
  · refine .act (fun m m' h => ⟨⟨fun d howner _ => ?_, rfl⟩, rfl⟩) fun _ => .ret _
    cases d <;> cases howner
  · exact sees_posix _
  · exact .fault

/-! ## The policy -/

theorem Link.same_refl (link : Link) (m : Memory ρ) : link.Same m m := by
  cases link <;> rfl

/-- What changed in a move was the component's to write. -/
theorem Confined.writable {t : ThreadId} (h : Confined t m m') {link : Link}
    (hne : ¬ link.Same m m') :
    ∃ d : Dataport, d.link = link ∧ d.owner = instanceOf t ∧ d.permits 'W' = true := by
  cases link with
  | execArena =>
    obtain rfl := h.dispatcher (Or.inl fun heq => hne heq.symm)
    exact ⟨.workerArena, rfl, rfl, rfl⟩
  | secureMeta =>
    obtain rfl := h.repository fun heq => hne heq.symm
    exact ⟨.secureStorage, rfl, rfl, rfl⟩
  | genTransfer =>
    obtain rfl := h.generator fun heq => hne (congrArg Workspace.genBuf heq).symm
    exact ⟨.genOutputBuf, rfl, rfl, rfl⟩
  | systemRam =>
    obtain rfl := h.generator fun heq => hne (congrArg Workspace.guestRam heq).symm
    exact ⟨.genGuestRam, rfl, rfl, rfl⟩
  | vfsIo =>
    obtain rfl := h.worker (Or.inl fun heq => hne heq.symm)
    exact ⟨.fsBuffer, rfl, rfl, rfl⟩

/-- The threads that serve nobody look at the quantum at most, and only the Scheduler's
does. -/
theorem others_step_of_agrees {other : Other} (h : Agrees (instanceOf (.inr other)) m m')
    (o : Others) : (others m.quantumMs).step o other = (others m'.quantumMs).step o other := by
  cases other with
  | schedulerRun =>
    have hquantum : m.quantumMs = m'.quantumMs := h.own
    rw [hquantum]
  | hwTickRun => rfl
  | control i => rfl

/-- The configuration before the Generator stores. -/
def beforeStore : Config Interface Message (Memory Unit) × Others := storing.after () upToStore

end Camkes

end HkSystem
