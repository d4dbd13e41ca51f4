import HkSystem.System.Model.Assembly
import HkSystem.System.Runs
/-!
# The handlers as functions

What each handler of the assembly computes when its calls are calls of functions:
the Repository's is `add_variant` with the fTPM's signature, the Generator's is its
`Synthesis.run`, the Worker's is the `Execution.run` of what is in the arena, and the
Dispatcher's is `adminApiForceMutation` (`eval_forceMutation`), with what it prints. No
handler is called from within itself (`layered`).
-/

namespace HkSystem

namespace Camkes

open Rpc (Code)

variable {ρ : Type} {parts : Parts ρ} {m : Memory ρ} {i : ℕ}

/-! ## Layers -/

theorem Synthesis.below_code (g : Synthesis ρ) : g.code.Below rank 2 := by
  induction g with
  | ret => exact .ret _
  | act update next ih => exact .act fun m => ih m.workspace
  | addVariant variantId size next ih => exact .call (by decide) fun _ => ih
  | fault => exact .fault

theorem below_attempt {r : ℕ} {f : Memory ρ → Option (Memory ρ)} {next : Memory ρ → Handler ρ}
    (h : ∀ m, (next m).Below rank r) : (attempt f next).Below rank r := by
  refine .act fun m => ?_
  split
  · exact h m
  · exact .fault

theorem Execution.below_code (e : Execution) : (e.code : Handler ρ).Below rank 1 := by
  induction e with
  | ret result => exact .ret _
  | own update next ih => exact .act fun m => ih m.worker
  | load port offset next ih =>
    rw [Execution.code]
    refine .act fun m => ?_
    split
    · exact .fault
    · exact ih _
  | store port offset byte next ih => exact below_attempt fun _ => ih
  | posix call next ih =>
    rw [Execution.code]
    refine .call (by decide) fun reply => ?_
    split
    · exact ih _
    · exact .fault
  | fault => exact .fault

theorem below_addVariant (variantId size : Int32) :
    (addVariant variantId size : Handler ρ).Below rank 1 := by
  refine .act fun m => ?_
  split
  · exact .fault
  · refine .call (by decide) fun reply => ?_
    split
    · exact .act fun _ => .ret _
    · exact .fault

theorem below_execute : (execute : Handler ρ).Below rank 3 := by
  refine .call (by decide) fun reply => ?_
  split
  · exact .act fun _ => .ret _
  · exact .fault

theorem below_install (variantId isVerified : Int32) :
    (install variantId isVerified : Handler ρ).Below rank 3 := by
  unfold install
  split
  · exact below_attempt fun _ => below_execute
  · exact .act fun _ => below_execute

theorem below_attest (variantId : Int32) (metadata : Metadata) :
    (attest variantId metadata : Handler ρ).Below rank 3 := by
  refine below_attempt fun m => ?_
  split
  · exact .fault
  · refine .call (by decide) fun reply => ?_
    split
    · exact below_install variantId _
    · exact .fault

theorem below_forceMutation : (forceMutation : Handler ρ).Below rank 3 := by
  refine .act fun m => .call (by decide) fun _ => .act fun m' => ?_
  change Code.Below rank 3 (if m'.monitor.shared.secureStorage.vid.toInt32 ≠
    m.monitor.totalMutationsCount + 1 then _ else _)
  split
  · exact .act fun _ => below_execute
  · exact below_attest _ _

/-- **No handler is called from within itself.** -/
theorem layered (parts : Parts ρ) : parts.assembly.Layered rank := by
  intro i p v
  change (parts.serve i p v).Below rank (rank p)
  unfold Parts.serve
  split
  · exact .act fun _ => .ret _
  · exact below_forceMutation
  · exact Synthesis.below_code _
  · exact .ret _
  · exact below_addVariant _ _
  · unfold signData
    split
    · exact .fault
    · exact .ret _
  · unfold verifySignature
    split
    · exact .fault
    · exact .ret _
  · unfold ctrlCmd
    split
    · exact .act fun m => Execution.below_code _
    · exact .ret _
  · refine .act fun m => ?_
    split
    · exact .fault
    · exact .ret _
  · exact .act fun _ => .ret _
  · exact .act fun _ => .ret _
  · exact .fault

/-! ## What each handler computes -/

/-- A Generator's code as a function. -/
def Synthesis.run (addVariant : Int32 → Int32 → Shared → Option Shared) :
    Synthesis ρ → ρ → Shared → Option (ρ × Shared)
  | .ret, own, shared => some (own, shared)
  | .act update next, own, shared =>
    let w : Workspace ρ := ⟨own, shared.guestRam, shared.genBuf⟩
    (next w).run addVariant (update w).own
      { shared with guestRam := (update w).guestRam, genBuf := (update w).genBuf }
  | .addVariant variantId size next, own, shared =>
    (addVariant variantId size shared).bind fun shared => next.run addVariant own shared
  | .fault, _, _ => none

/-- The code of the arena as a function. -/
def Execution.run : Execution → Sandbox → Option (UInt32 × Sandbox)
  | .ret result, b => some (result, b)
  | .own update next, b => (next b.own).run { b with own := update b.own }
  | .load port offset next, b => (b.load port offset).bind fun byte => (next byte).run b
  | .store port offset byte next, b => (b.store port offset byte).bind fun b => next.run b
  | .posix call next, b =>
    (next (Vfs.server.step b.vfs call).2).run { b with vfs := (Vfs.server.step b.vfs call).1 }
  | .fault, _ => none

def Memory.withShared (m : Memory ρ) (shared : Shared) : Memory ρ :=
  { m with monitor := { m.monitor with shared := shared } }

/-- A handler of the assembly as a function. -/
abbrev Parts.eval (parts : Parts ρ) (i : ℕ) : Interface → Message → Memory ρ →
    Option (Message × Memory ρ) := parts.assembly.eval rank i

theorem eval_eq_run (p : Interface) (v : Message) (m : Memory ρ) :
    parts.eval i p v m = (parts.serve i p v).run (parts.eval i) m :=
  (layered parts).eval_eq i p v m

theorem eval_signData (rawHash : UInt32) :
    parts.eval i .cryptoApi (.signData rawHash) m =
      (Tpm.cryptoApiSignData (parts.world i).signStack Tpm.tpmSecretKey rawHash).map
        fun signature => (.word signature, m) := by
  rw [eval_eq_run]
  change (signData (parts.world i) rawHash).run _ m = _
  unfold signData
  cases Tpm.cryptoApiSignData (parts.world i).signStack Tpm.tpmSecretKey rawHash <;> rfl

theorem eval_verifySignature (rawHash signature : UInt32) :
    parts.eval i .cryptoApi (.verifySignature rawHash signature) m =
      (Tpm.cryptoApiVerifySignature (parts.world i).verifyStack Tpm.tpmSecretKey rawHash
        signature).map fun isVerified => (.int isVerified, m) := by
  rw [eval_eq_run]
  change (verifySignature (parts.world i) rawHash signature).run _ m = _
  unfold verifySignature
  cases Tpm.cryptoApiVerifySignature (parts.world i).verifyStack Tpm.tpmSecretKey rawHash
    signature <;> rfl

theorem eval_posix (call : Vfs.PosixCall) :
    parts.eval i .posixApi (.posix call) m =
      some (.int (Vfs.server.step m.vfs call).2, { m with vfs := (Vfs.server.step m.vfs call).1 }) := by
  rw [eval_eq_run]
  rfl

theorem run_attempt {callee : Interface → Message → Memory ρ → Option (Message × Memory ρ)}
    (f : Memory ρ → Option (Memory ρ)) (next : Memory ρ → Handler ρ) :
    (attempt f next).run callee m = (f m).bind fun m' => (next m).run callee m' := by
  rw [attempt, Code.run_act]
  rcases h : f m with _ | m' <;> simp

theorem run_execution (e : Execution) (m : Memory ρ) :
    e.code.run (parts.eval i) m =
      (e.run m.sandbox).map fun r => (.int r.1.toInt32, m.withSandbox r.2) := by
  induction e generalizing m with
  | ret result => rfl
  | own update next ih =>
    rw [Execution.code, Code.run_act, ih]
    rfl
  | load port offset next ih =>
    rw [Execution.code, Code.run_act, Execution.run]
    rcases m.sandbox.load port offset with _ | byte
    · rfl
    · exact ih byte m
  | store port offset byte next ih =>
    rw [Execution.code, run_attempt, Execution.run]
    rcases m.sandbox.store port offset byte with _ | b
    · rfl
    · exact ih (m.withSandbox b)
  | posix call next ih =>
    rw [Execution.code, Code.run_call, eval_posix, Option.bind_some]
    exact ih _ _
  | fault => rfl

def Sandbox.withArena (b : Sandbox) (arena : Region 4096) : Sandbox :=
  { b with executableArena := arena }

/-- `jit_task()` of a turn. -/
def Parts.execute (parts : Parts ρ) (i : ℕ) (b : Sandbox) : Option (UInt32 × Sandbox) :=
  (parts.jitTask i b.executableArena).run b

theorem eval_cmd :
    parts.eval i .ctrlApi (.cmd 1 0) m =
      (parts.execute i m.sandbox).map fun r => (.int r.1.toInt32, m.withSandbox r.2) := by
  rw [eval_eq_run]
  exact run_execution _ m

/-- The arena is mapped without the right to write. -/
theorem store_executableArena (b : Sandbox) (offset : ℕ) (byte : UInt8) :
    b.store .executableArena offset byte = none := rfl

theorem store_fsBuffer (b : Sandbox) (offset : ℕ) (byte : UInt8) :
    b.store .fsBuffer offset byte =
      (b.vfs.virtualDiskArena.set? offset byte).map fun disk =>
        { b with vfs := { b.vfs with virtualDiskArena := disk } } := rfl

/-- **What runs in the arena does not change it.** -/
theorem Execution.arena_of_run (e : Execution) :
    ∀ {b : Sandbox} {r : UInt32 × Sandbox}, e.run b = some r →
      r.2.executableArena = b.executableArena := by
  induction e with
  | ret result =>
    intro b r h
    obtain rfl := Option.some.inj h
    rfl
  | own update next ih =>
    intro b r h
    rw [Execution.run] at h
    exact (ih _ h).trans rfl
  | load port offset next ih =>
    intro b r h
    obtain ⟨byte, -, h⟩ := Option.bind_eq_some_iff.1 h
    exact ih _ h
  | store port offset byte next ih =>
    intro b r h
    obtain ⟨b', hstore, h⟩ := Option.bind_eq_some_iff.1 h
    cases port with
    | executableArena =>
      rw [store_executableArena] at hstore
      cases hstore
    | fsBuffer =>
      obtain ⟨disk, -, rfl⟩ := Option.map_eq_some_iff.1 hstore
      exact (ih h).trans rfl
  | posix call next ih =>
    intro b r h
    rw [Execution.run] at h
    exact (ih _ h).trans rfl
  | fault =>
    intro b r h
    cases h

/-- A registration, with a signer that returns. -/
theorem run_addVariant {callee : Interface → Message → Memory ρ → Option (Message × Memory ρ)}
    {signData : UInt32 → Option UInt32}
    (hsign : ∀ hash m, callee .cryptoApi (.signData hash) m =
      (signData hash).map fun signature => (.word signature, m)) (variantId size : Int32) :
    (addVariant variantId size).run callee m =
      (Repository.repoWriteApiAddVariant signData variantId size m.monitor.shared).map
        fun shared => (.done, m.withShared shared) := by
  rw [addVariant, Code.run_act, Repository.repoWriteApiAddVariant]
  rcases Repository.computeJenkinsHash m.monitor.shared.genBuf (Words.sizeT size) with _ | hash
  · rfl
  · simp only [Code.run_call, hsign, Option.bind_eq_bind, Option.bind_some]
    rcases signData hash with _ | signature <;> rfl

theorem eval_addVariant (variantId size : Int32) :
    parts.eval i .repoWriteApi (.addVariant variantId size) m =
      ((parts.world i).addVariant variantId size m.monitor.shared).map
        fun shared => (.done, m.withShared shared) := by
  rw [eval_eq_run]
  exact run_addVariant (fun hash m => eval_signData hash) variantId size

theorem run_code (g : Synthesis ρ) (m : Memory ρ) :
    g.code.run (parts.eval i) m =
      (g.run (parts.world i).addVariant m.generator m.monitor.shared).map
        fun r => (.done, { m.withShared r.2 with generator := r.1 }) := by
  induction g generalizing m with
  | ret => rfl
  | act update next ih =>
    rw [Synthesis.code, Code.run_act, ih]
    rfl
  | addVariant variantId size next ih =>
    rw [Synthesis.code, Code.run_call, eval_addVariant, Synthesis.run]
    rcases (parts.world i).addVariant variantId size m.monitor.shared with _ | shared
    · rfl
    · simp only [Option.map_some, Option.bind_some, ih]
      rfl
  | fault => rfl

theorem eval_requestGeneration (baseAddr : UInt64) (variantId complexity : Int32) :
    parts.eval i .genApi (.requestGeneration baseAddr variantId complexity) m =
      ((parts.generator i baseAddr variantId complexity).run (parts.world i).addVariant m.generator
        m.monitor.shared).map fun r => (.done, { m.withShared r.2 with generator := r.1 }) := by
  rw [eval_eq_run]
  exact run_code _ m

/-! ## A transaction -/

section Transaction

variable {callee : Interface → Message → Memory ρ → Option (Message × Memory ρ)}
variable {verifySignature : UInt32 → UInt32 → Option Int32}
variable {jitTask : Sandbox → Option (UInt32 × Sandbox)}
variable {variantId : Int32}

/-- What an injection prints: the hash of the payload if it got so far, and how it
ended. -/
def injectionLines (s : Dispatcher.State) (outcome : Dispatcher.Outcome) : List Line :=
  match outcome with
  | .mismatch _ _ => [.outcome outcome]
  | .stuck => []
  | .blocked _ | .injected _ =>
    [.localHash (OneAtATime.digest (s.shared.guestRam.first s.shared.secureStorage.payloadLen)),
      .outcome outcome]

/-- What a transaction that comes back prints. -/
def cycleLines (s : Dispatcher.State) (report : Dispatcher.Report) : List Line :=
  match report.outcome, report.status with
  | some outcome, some status => injectionLines s outcome ++ [.response status]
  | _, _ => []

/-- The memory after an injection. -/
def Memory.afterInjection (m : Memory ρ) (r : Dispatcher.State × Dispatcher.Outcome) : Memory ρ :=
  { m with monitor := r.1, console := m.console ++ injectionLines r.1 r.2 }

/-- The copy, once the fTPM has answered. -/
theorem run_install (isVerified : Int32) :
    (install variantId isVerified).run callee m =
      if isVerified ≠ 0 then
        (Region.memcpy m.monitor.workerArena m.monitor.shared.guestRam 4096).bind fun arena =>
          execute.run callee ({ m with monitor := m.monitor.install arena variantId }.print
            (.outcome (.injected variantId)))
      else execute.run callee (m.print (.outcome (.blocked variantId))) := by
  rw [install]
  split
  · rw [run_attempt]
    rcases Region.memcpy m.monitor.workerArena m.monitor.shared.guestRam 4096 with _ | arena <;> rfl
  · rfl

/-- The hash and the question to the fTPM. -/
theorem run_attest
    (hverify : ∀ hash signature m, callee .cryptoApi (.verifySignature hash signature) m =
      (verifySignature hash signature).map fun isVerified => (.int isVerified, m))
    (metadata : Metadata) :
    (attest variantId metadata).run callee m =
      (OneAtATime.hashLoop m.monitor.shared.guestRam metadata.payloadLen).bind fun localHash =>
        (verifySignature localHash metadata.signature).bind fun isVerified =>
          (install variantId isVerified).run callee (m.print (.localHash localHash)) := by
  have hloop : Dispatcher.computeIntegrityHash m.monitor.shared.guestRam
      (Words.sizeT metadata.size.toInt32) =
        OneAtATime.hashLoop m.monitor.shared.guestRam metadata.payloadLen := rfl
  rw [attest, run_attempt]
  simp only [hloop]
  rcases OneAtATime.hashLoop m.monitor.shared.guestRam metadata.payloadLen with _ | localHash
  · rfl
  · simp only [Option.bind_eq_bind, Option.bind_some, Code.run_call, hverify]
    rcases verifySignature localHash metadata.signature with _ | isVerified <;> rfl

/-- Step B, and on to step C unless it got stuck. -/
theorem run_inject
    (hverify : ∀ hash signature m, callee .cryptoApi (.verifySignature hash signature) m =
      (verifySignature hash signature).map fun isVerified => (.int isVerified, m)) :
    (inject variantId).run callee m =
      if (Dispatcher.executeSecureRuntimeInjection verifySignature m.monitor variantId).2 = .stuck
      then none
      else execute.run callee (m.afterInjection
        (Dispatcher.executeSecureRuntimeInjection verifySignature m.monitor variantId)) := by
  rw [inject, Code.run_act]
  by_cases hvid : m.monitor.shared.secureStorage.vid.toInt32 = variantId
  · simp only [hvid, ne_eq, not_true_eq_false, if_false, id_eq, run_attest hverify]
    rcases hhash : OneAtATime.hashLoop m.monitor.shared.guestRam
      m.monitor.shared.secureStorage.payloadLen with _ | hash
    · rw [Dispatcher.injection_of_stuck ⟨hvid, fun hash h => by rw [hhash] at h; cases h⟩]
      rfl
    have hdigest := (OneAtATime.hashLoop_eq_some_iff.1 hhash).2
    rcases hanswer : verifySignature hash m.monitor.shared.secureStorage.signature with
      _ | isVerified
    · have hlost : ∀ hash', OneAtATime.hashLoop m.monitor.shared.guestRam
          m.monitor.shared.secureStorage.payloadLen = some hash' →
          verifySignature hash' m.monitor.shared.secureStorage.signature = none := by
        intro hash' h
        rwa [← Option.some.inj (hhash.symm.trans h)]
      rw [Dispatcher.injection_of_stuck ⟨hvid, hlost⟩, Option.bind_some, hanswer]
      rfl
    rw [Option.bind_some, hanswer, Option.bind_some, run_install]
    by_cases hne : isVerified = 0
    · have hinj : Dispatcher.executeSecureRuntimeInjection verifySignature m.monitor variantId =
          (m.monitor, .blocked variantId) := by
        have hloop : Dispatcher.computeIntegrityHash m.monitor.shared.guestRam
            (Words.sizeT m.monitor.shared.secureStorage.size.toInt32) = some hash := hhash
        simp [Dispatcher.executeSecureRuntimeInjection, hvid, hloop, hanswer, hne]
      rw [if_neg (not_not.2 hne), hinj, if_neg (by simp)]
      simp only [Memory.afterInjection, injectionLines, Memory.print, ← hdigest, List.append_assoc]
      rfl
    · obtain ⟨arena, hcopy, hinj⟩ := Dispatcher.injection_of_attested
        ⟨hvid, hash, isVerified, hhash, hanswer, hne⟩
      have hmemcpy : Region.memcpy (m.print (.localHash hash)).monitor.workerArena
        (m.print (.localHash hash)).monitor.shared.guestRam 4096 = some arena := hcopy
      rw [if_pos hne, hmemcpy, Option.bind_some, hinj, if_neg (by simp)]
      simp only [Memory.afterInjection, injectionLines, Memory.print, ← hdigest, List.append_assoc]
      rfl
  · rw [Dispatcher.injection_of_mismatch hvid]
    simp only [hvid, ne_eq, not_false_eq_true, if_true, Code.run_act]
    rfl

/-- Step C: the Worker runs its arena, and the status is printed. -/
theorem run_execute
    (hcmd : ∀ m, callee .ctrlApi (.cmd 1 0) m =
      (jitTask m.sandbox).map fun r => (.int r.1.toInt32, m.withSandbox r.2)) :
    (execute : Handler ρ).run callee m =
      (jitTask m.sandbox).map fun r =>
        (.done, (m.withSandbox r.2).print (.response r.1.toInt32)) := by
  rw [execute, Code.run_call, hcmd]
  rcases jitTask m.sandbox with _ | r <;> rfl

theorem injection_halted (s : Dispatcher.State) (variantId : Int32) :
    (Dispatcher.executeSecureRuntimeInjection verifySignature s variantId).1.halted = s.halted := by
  by_cases hatt : Dispatcher.Attested verifySignature s.shared variantId
  · obtain ⟨arena, -, hinj⟩ := Dispatcher.injection_of_attested hatt
    rw [hinj]
    rfl
  · obtain ⟨outcome, hinj, -⟩ := Dispatcher.injection_of_not_attested hatt
    rw [hinj]

/-- **A transaction**, for a Generator that returns this, and the Dispatcher's calls
answered as the callees answer. -/
theorem run_forceMutation {env : Dispatcher.Env} {synthesis : Option (ρ × Shared)}
    (hgen : callee .genApi (.requestGeneration 0x1000 (m.monitor.totalMutationsCount + 1) 5) m =
      synthesis.map fun r => (.done, { m.withShared r.2 with generator := r.1 }))
    (hverify : ∀ hash signature m, callee .cryptoApi (.verifySignature hash signature) m =
      (env.verifySignature hash signature).map fun isVerified => (.int isVerified, m))
    (hcmd : ∀ m, callee .ctrlApi (.cmd 1 0) m =
      (jitTask m.sandbox).map fun r => (.int r.1.toInt32, m.withSandbox r.2))
    (hjit : ∀ arena, env.jitTask arena = (jitTask (m.sandbox.withArena arena)).map Prod.fst)
    (harena : ∀ {b r}, jitTask b = some r → r.2.executableArena = b.executableArena)
    (hsynthesis : env.requestGeneration 0x1000 (m.monitor.totalMutationsCount + 1) 5
      m.monitor.shared = synthesis.map Prod.snd)
    (hserving : m.monitor.halted = false) {s : Dispatcher.State} {report : Dispatcher.Report}
    (hcycle : Dispatcher.adminApiForceMutation env m.monitor = (s, report)) :
    forceMutation.run callee m =
      if s.halted then none
      else some (.done, { m with
        monitor := s
        generator := (synthesis.map Prod.fst).getD m.generator
        vfs := (((jitTask (m.sandbox.withArena s.workerArena)).map Prod.snd).getD m.sandbox).vfs
        worker := (((jitTask (m.sandbox.withArena s.workerArena)).map Prod.snd).getD m.sandbox).own
        console := m.console ++ cycleLines s report }) := by
  rw [forceMutation, Code.run_act]
  simp only [Code.run_call, id_eq, hgen]
  rcases synthesis with _ | ⟨own, shared⟩
  · rw [Dispatcher.cycle_of_lost _ hsynthesis] at hcycle
    obtain ⟨rfl, -⟩ := Prod.mk.inj hcycle
    rfl
  · simp only [Option.map_some, Option.bind_some, Option.getD_some, run_inject hverify,
      run_execute hcmd]
    simp only [Dispatcher.adminApiForceMutation, hsynthesis, Option.map_some,
      Memory.withShared] at hcycle ⊢
    obtain ⟨⟨s', outcome⟩, hinj⟩ : ∃ r, Dispatcher.executeSecureRuntimeInjection
      env.verifySignature { m.monitor with shared := shared }
        (m.monitor.totalMutationsCount + 1) = r := ⟨_, rfl⟩
    simp only [hinj, Memory.afterInjection] at hcycle ⊢
    by_cases hstuck : outcome = .stuck
    · rw [if_pos hstuck] at hcycle ⊢
      obtain ⟨rfl, -⟩ := Prod.mk.inj hcycle
      rfl
    · rw [if_neg hstuck] at hcycle ⊢
      obtain ⟨rfl, rfl⟩ := Prod.mk.inj hcycle
      rw [Dispatcher.ctrlApiCmd, if_pos rfl, hjit]
      have hhalted : s'.halted = false := by
        rw [← hserving, ← congrArg (fun r => r.1.halted) hinj, injection_halted]
      rcases hr : jitTask (m.sandbox.withArena s'.workerArena) with _ | r
      · have hrun : jitTask ⟨s'.workerArena, m.vfs, m.worker⟩ = none := hr
        simp [Memory.sandbox, hrun]
      · have hrun : jitTask ⟨s'.workerArena, m.vfs, m.worker⟩ = some r := hr
        have hkept : r.2.executableArena = s'.workerArena := harena hr
        simp only [Memory.sandbox, hrun, Memory.withSandbox, Memory.print, cycleLines,
          Option.map_some, Option.isNone_some, Option.getD_some, Bool.false_eq_true, if_false,
          List.append_assoc, hkept]
        rw [← hhalted]

end Transaction

/-! ## A turn of the console -/

/-- What the Generator answers in a turn. -/
def Parts.synthesis (parts : Parts ρ) (i : ℕ) (m : Memory ρ) : Option (ρ × Shared) :=
  (parts.generator i 0x1000 (m.monitor.totalMutationsCount + 1) 5).run (parts.world i).addVariant
    m.generator m.monitor.shared

/-- What `jit_task()` returns in these surroundings, by what the arena holds. -/
def Parts.jitResult (parts : Parts ρ) (i : ℕ) (b : Sandbox) (arena : Region 4096) : Option UInt32 :=
  (parts.execute i (b.withArena arena)).map Prod.fst

/-- The Dispatcher's calls in a turn, as functions. -/
def Parts.env (parts : Parts ρ) (i : ℕ) (m : Memory ρ) : Dispatcher.Env where
  requestGeneration baseAddr variantId complexity shared :=
    ((parts.generator i baseAddr variantId complexity).run (parts.world i).addVariant m.generator
      shared).map Prod.snd
  verifySignature := Tpm.cryptoApiVerifySignature (parts.world i).verifyStack Tpm.tpmSecretKey
  jitTask := parts.jitResult i m.sandbox

/-- The transaction of a turn. -/
def Parts.cycle (parts : Parts ρ) (i : ℕ) (m : Memory ρ) : Dispatcher.State × Dispatcher.Report :=
  Dispatcher.adminApiForceMutation (parts.env i m) m.monitor

/-- The Worker's surroundings after a turn. -/
def Parts.sandboxAfter (parts : Parts ρ) (i : ℕ) (m : Memory ρ) : Sandbox :=
  ((parts.execute i (m.sandbox.withArena (parts.cycle i m).1.workerArena)).map Prod.snd).getD m.sandbox

/-- The memory after a turn of the console. -/
def Parts.afterTurn (parts : Parts ρ) (i : ℕ) (m : Memory ρ) : Memory ρ :=
  { m with
    monitor := (parts.cycle i m).1
    generator := ((parts.synthesis i m).map Prod.fst).getD m.generator
    vfs := (parts.sandboxAfter i m).vfs
    worker := (parts.sandboxAfter i m).own
    console := m.console ++
      .telemetry m.monitor.currentActiveVariant m.monitor.totalMutationsCount ::
        cycleLines (parts.cycle i m).1 (parts.cycle i m).2 }

theorem eval_printStatus :
    parts.eval i .adminApi .printStatus m =
      some (.done, m.print
        (.telemetry m.monitor.currentActiveVariant m.monitor.totalMutationsCount)) := by
  rw [eval_eq_run]
  rfl

/-- **The admin's call runs `admin_api_force_mutation`** with the components as
functions. -/
theorem eval_forceMutation (hserving : m.monitor.halted = false) :
    parts.eval i .adminApi .forceMutation m =
      if (parts.cycle i m).1.halted then none
      else some (.done, { m with
        monitor := (parts.cycle i m).1
        generator := ((parts.synthesis i m).map Prod.fst).getD m.generator
        vfs := (parts.sandboxAfter i m).vfs
        worker := (parts.sandboxAfter i m).own
        console := m.console ++ cycleLines (parts.cycle i m).1 (parts.cycle i m).2 }) := by
  have hverify : ∀ hash signature (m' : Memory ρ),
      parts.eval i .cryptoApi (.verifySignature hash signature) m' =
        ((parts.env i m).verifySignature hash signature).map
          fun isVerified => (.int isVerified, m') := fun _ _ _ => eval_verifySignature ..
  rw [eval_eq_run]
  exact run_forceMutation (eval_requestGeneration ..) hverify (fun _ => eval_cmd) (fun _ => rfl)
    (Execution.arena_of_run _) rfl hserving rfl

/-- A delay takes its time and does nothing else. -/
theorem run_symbolicSleep {callee : Interface → Message → Memory ρ → Option (Message × Memory ρ)}
    (iterations : ℕ) (next : Handler ρ) :
    (symbolicSleep iterations next).run callee m = next.run callee m := by
  induction iterations with
  | zero => rfl
  | succ iterations ih => exact ih

/-- **A turn of the console**, if it ends. -/
theorem run_adminRun (delays : Delays) (j : ℕ) (hserving : m.monitor.halted = false) :
    ((adminRun delays j : Handler ρ).run (parts.eval i) m).map Prod.snd =
      if (parts.cycle i m).1.halted then none else some (parts.afterTurn i m) := by
  have hcycle : parts.cycle i (m.print (.telemetry m.monitor.currentActiveVariant
      m.monitor.totalMutationsCount)) = parts.cycle i m := rfl
  have hloop : (adminRun delays j : Handler ρ).run (parts.eval i) m =
      (adminLoop delays).run (parts.eval i) m := by
    cases j with
    | zero => exact run_symbolicSleep ..
    | succ j => rfl
  rw [hloop, adminLoop, Code.run_call, eval_printStatus, Option.bind_some, run_symbolicSleep,
    Code.run_call, eval_forceMutation (m := m.print _) hserving, hcycle]
  cases (parts.cycle i m).1.halted with
  | true => rfl
  | false =>
    simp only [Bool.false_eq_true, if_false, Option.bind_some, run_symbolicSleep, Code.run_ret,
      Option.map_some, Parts.afterTurn, Memory.print, List.append_assoc]
    rfl

/-! ## What a Generator can supply -/

/-- The fTPM signed the hash of a byte string of that length, and `gen_buf` could hold
it. -/
structure Issued (metadata : Metadata) : Prop where
  fits : metadata.payloadLen ≤ 16777216
  signed : ∃ bytes : List UInt8, bytes.length = metadata.payloadLen ∧
    metadata.signature = Tpm.signatureOf Tpm.tpmSecretKey (OneAtATime.digest bytes)

/-- **A registration is issued by the fTPM.** -/
theorem issued_of_addVariant {w : World} {variantId size : Int32} {shared shared' : Shared}
    (h : w.addVariant variantId size shared = some shared') :
    ∃ metadata, Issued metadata ∧ shared' = shared.commit metadata := by
  rw [World.addVariant] at h
  by_cases hfit : (Words.sizeT size).toNat ≤ 16777216
  · rw [Repository.repoWriteApiAddVariant_ftpm _ _ hfit] at h
    obtain rfl := Option.some.inj h
    have hlen := Repository.payloadLen_committed variantId size
      (Tpm.signatureOf Tpm.tpmSecretKey
        (OneAtATime.digest (shared.genBuf.first (Words.sizeT size).toNat)))
    refine ⟨_, ⟨?_, shared.genBuf.first (Words.sizeT size).toNat, ?_, rfl⟩, rfl⟩
    · rwa [hlen]
    · rw [hlen, Region.length_first hfit]
  · rw [Repository.repoWriteApiAddVariant_of_lt (by omega)] at h
    cases h

/-- **Whatever a Generator does is a supply**, and all it has registered is issued by
the fTPM. -/
theorem Synthesis.exists_supply {w : World} (g : Synthesis ρ) :
    ∀ {own : ρ} {shared : Shared} {r : ρ × Shared}, g.run w.addVariant own shared = some r →
      ∃ supply : Dispatcher.Supply, r.2 = supply.apply shared ∧
        ∀ metadata ∈ supply.registrations, Issued metadata := by
  induction g with
  | ret =>
    intro own shared r h
    obtain rfl := Option.some.inj h
    exact ⟨⟨shared.guestRam, shared.genBuf, []⟩, rfl, by simp⟩
  | act update next ih =>
    intro own shared r h
    -- the supply overwrites both buffers, so what they held before does not matter
    obtain ⟨supply, hr, hissued⟩ := ih _ h
    exact ⟨supply, hr, hissued⟩
  | addVariant variantId size next ih =>
    intro own shared r h
    obtain ⟨shared', hadd, hrun⟩ := Option.bind_eq_some_iff.1 h
    obtain ⟨metadata, hmetadata, rfl⟩ := issued_of_addVariant hadd
    obtain ⟨supply, hr, hissued⟩ := ih hrun
    exact ⟨{ supply with registrations := metadata :: supply.registrations }, hr,
      List.forall_mem_cons.2 ⟨hmetadata, hissued⟩⟩
  | fault =>
    intro own shared r h
    cases h

/-! ## The Generator as coded -/

/-- `generator.c`, cut where it calls the Repository. -/
theorem genApiRequestGeneration_eq_emit (rdtsc : ℕ → UInt32 × UInt32)
    (addVariant : Int32 → Int32 → Shared → Option Shared) (baseAddr : UInt64)
    (variantId complexity : Int32) (own : Generator.Csprng) (shared : Shared) :
    Generator.genApiRequestGeneration (Generator.requestSecureRandom rdtsc) addVariant baseAddr
        variantId complexity own shared =
      (emit rdtsc ⟨own, shared.guestRam, shared.genBuf⟩).bind fun r =>
        (addVariant variantId r.2
          { shared with guestRam := r.1.guestRam, genBuf := r.1.genBuf }).map (r.1.own, ·) := by
  rw [Generator.genApiRequestGeneration, emit]
  simp only [Option.bind_eq_bind, Option.map_eq_bind, Option.bind_assoc]
  rfl

theorem run_generatorC (w : World) (addVariant : Int32 → Int32 → Shared → Option Shared)
    (baseAddr : UInt64) (variantId complexity : Int32) (own : Generator.Csprng) (shared : Shared) :
    (generatorC w baseAddr variantId complexity).run addVariant own shared =
      Generator.genApiRequestGeneration (Generator.requestSecureRandom w.rdtsc) addVariant baseAddr
        variantId complexity own shared := by
  rw [genApiRequestGeneration_eq_emit, generatorC, Synthesis.run]
  rcases emit w.rdtsc ⟨own, shared.guestRam, shared.genBuf⟩ with _ | ⟨ws, size⟩
  · rfl
  · simp [Synthesis.run, Option.map_eq_bind]

section AsCoded

variable {world : ℕ → World} {m : Memory Generator.Csprng}

theorem asCoded_synthesis : (asCoded world).synthesis i m =
    (world i).requestGeneration m.generator 0x1000 (m.monitor.totalMutationsCount + 1) 5
      m.monitor.shared :=
  run_generatorC ..

theorem map_run_onProcessor (w : World) (b : Sandbox) :
    ((onProcessor w b.executableArena).run b).map Prod.fst = w.jitTask b.executableArena := by
  rw [onProcessor]
  rcases w.jitTask b.executableArena with _ | result <;> rfl

theorem asCoded_cycle : (asCoded world).cycle i m =
    Dispatcher.adminApiForceMutation ((world i).env m.generator) m.monitor := by
  refine adminApiForceMutation_congr ?_ rfl ?_
  · exact congrArg (Option.map Prod.snd) asCoded_synthesis
  · exact funext fun arena => map_run_onProcessor (world i) (m.sandbox.withArena arena)

end AsCoded

end Camkes

end HkSystem
