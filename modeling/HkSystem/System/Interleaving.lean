import HkSystem.Dispatcher.Bookkeeping
import HkSystem.System.Progress
import HkSystem.Vfs.Accounting
/-!
# Every order of the threads

The components run on threads of their own and share memory. Whatever order all threads
move in, and whatever `gen_api_request_generation` and the code in the arena do, the turns
the console gets through are cycles of the monitor (`interleaving_refines_monitor`). What it
reads on the Dispatcher's console therefore tells what is in the Worker's arena
(`console_accounts_for_arena`): no thread that writes `guest_ram` can come between the check
and the copy, because those of the other interfaces are waiting and the control threads have
nothing to do. And of every region the components share, one thread is the only one that
ever writes it (`every_region_has_one_writer`).
-/

namespace HkSystem

namespace Camkes

open Rpc (Code Config)

variable {ρ : Type} {parts : Parts ρ} {m m' : Memory ρ} {i : ℕ}

/-! ## Turns of the console as cycles of the monitor -/

/-- A turn: what the Generator supplied, and what the code in the arena found around it. -/
structure Turn where
  supply : Dispatcher.Supply
  sandbox : Sandbox

/-- The monitor's call for a turn. -/
def Parts.call (parts : Parts ρ) (i : ℕ) (turn : Turn) : Dispatcher.Call :=
  .forceMutation (some turn.supply)
    (Tpm.cryptoApiVerifySignature (parts.world i).verifyStack Tpm.tpmSecretKey)
    (parts.jitResult i turn.sandbox)

/-- The monitor's calls for so many turns: the status, and a mutation. -/
def Parts.calls (parts : Parts ρ) (turns : List Turn) : List Dispatcher.Call :=
  turns.zipIdx.flatMap fun turn => [.printStatus, parts.call turn.2 turn.1]

theorem calls_concat (turns : List Turn) (turn : Turn) :
    parts.calls (turns ++ [turn]) =
      parts.calls turns ++ [.printStatus, parts.call turns.length turn] := by
  simp [Parts.calls, List.zipIdx_append]

/-- What the Dispatcher prints for a call. -/
def eventLines (e : Event Dispatcher.State Dispatcher.Call Dispatcher.Answer) : List Line :=
  match e.answer with
  | .telemetry activeVariant totalSwaps => [.telemetry activeVariant totalSwaps]
  | .cycle report => cycleLines e.post report
  | .unserved => []

/-- **A turn that ends is a cycle of the monitor**, with a supply whose registrations are
all issued by the fTPM. -/
theorem exists_supply_of_turn (hended : (parts.cycle i m).1.halted = false) :
    ∃ supply : Dispatcher.Supply, (∀ metadata ∈ supply.registrations, Issued metadata) ∧
      parts.cycle i m = Dispatcher.adminApiForceMutation (Dispatcher.Supply.env (some supply)
        (Tpm.cryptoApiVerifySignature (parts.world i).verifyStack Tpm.tpmSecretKey)
        (parts.jitResult i m.sandbox)) m.monitor := by
  rcases hsynthesis : parts.synthesis i m with _ | r
  · have hlost : (parts.env i m).requestGeneration 0x1000
        (m.monitor.totalMutationsCount + 1) 5 m.monitor.shared = none := by
      change (parts.synthesis i m).map Prod.snd = none
      rw [hsynthesis]
      rfl
    rw [Parts.cycle, Dispatcher.cycle_of_lost _ hlost] at hended
    cases hended
  · obtain ⟨supply, hsupply, hissued⟩ := Synthesis.exists_supply _ hsynthesis
    refine ⟨supply, hissued, adminApiForceMutation_congr ?_ rfl rfl⟩
    change (parts.synthesis i m).map Prod.snd = some (supply.apply m.monitor.shared)
    rw [hsynthesis, Option.map_some, hsupply]

/-- The Worker's surroundings after so many turns: the code of each finds what the one before
left, and the arena the monitor has then. -/
inductive Parts.Leaves (parts : Parts ρ) : List Turn → Sandbox → Prop
  | boot : parts.Leaves [] ⟨Dispatcher.boot.workerArena, Vfs.boot .zero, fun _ => 0⟩
  | turn {turns : List Turn} {b b' : Sandbox} {supply : Dispatcher.Supply} {result : UInt32} :
      parts.Leaves turns b →
      parts.execute turns.length (b.withArena (Dispatcher.monitor.final Dispatcher.boot
        (parts.calls (turns ++ [⟨supply, b⟩]))).workerArena) = some (result, b') →
      parts.Leaves (turns ++ [⟨supply, b⟩]) b'

/-- If the turn ends, the code in the arena has returned, and has left this. -/
theorem exists_execute_of_turn (hended : (parts.cycle i m).1.halted = false) :
    ∃ result, parts.execute i (m.sandbox.withArena (parts.cycle i m).1.workerArena) =
      some (result, (parts.afterTurn i m).sandbox) := by
  have hsome := Dispatcher.jitTask_isSome_of_serving hended
  obtain ⟨⟨result, b⟩, hrun⟩ : ∃ r, parts.execute i
      (m.sandbox.withArena (parts.cycle i m).1.workerArena) = some r := by
    refine Option.isSome_iff_exists.1 ?_
    rwa [← Option.isSome_map (f := Prod.fst)]
  have harena : b.executableArena = (parts.cycle i m).1.workerArena :=
    Execution.arena_of_run _ hrun
  have hleft : parts.sandboxAfter i m = b := by
    rw [Parts.sandboxAfter, hrun]
    rfl
  have hafter : (parts.afterTurn i m).sandbox = ⟨(parts.cycle i m).1.workerArena,
    (parts.sandboxAfter i m).vfs, (parts.sandboxAfter i m).own⟩ := rfl
  exact ⟨result, by rw [hrun, hafter, hleft, ← harena]⟩

/-- What the memory is after so many turns, in the monitor's terms. -/
structure Refines (parts : Parts ρ) (turns : List Turn) (m : Memory ρ) : Prop where
  /-- The fTPM issued everything registered. -/
  issued : ∀ turn ∈ turns, ∀ metadata ∈ turn.supply.registrations, Issued metadata
  monitor : m.monitor = Dispatcher.monitor.final Dispatcher.boot (parts.calls turns)
  sandbox : parts.Leaves turns m.sandbox
  serving : m.monitor.halted = false
  /-- The console shows the monitor's answers. -/
  console : m.console =
    (Dispatcher.monitor.history Dispatcher.boot (parts.calls turns)).flatMap eventLines

theorem Refines.turn {turns : List Turn} {delays : Delays} {j : ℕ} (h : Refines parts turns m)
    (hturn : ((adminRun delays j).run (parts.eval turns.length) m).map Prod.snd = some m') :
    ∃ turn, Refines parts (turns ++ [turn]) m' := by
  rw [run_adminRun delays j h.serving] at hturn
  split at hturn
  · cases hturn
  next hended =>
    obtain rfl := Option.some.inj hturn
    have hended : (parts.cycle turns.length m).1.halted = false := by simpa using hended
    obtain ⟨supply, hissued, hcycle⟩ := exists_supply_of_turn hended
    -- the two calls of the turn, answered by the monitor
    have hstatus : Dispatcher.monitor.step m.monitor .printStatus =
        (m.monitor, .telemetry m.monitor.currentActiveVariant m.monitor.totalMutationsCount) := by
      simp [Dispatcher.monitor, Dispatcher.step, h.serving]
    have hmutation : Dispatcher.monitor.step m.monitor
        (parts.call turns.length ⟨supply, m.sandbox⟩) =
          ((parts.cycle turns.length m).1, .cycle (parts.cycle turns.length m).2) := by
      simp [Dispatcher.monitor, Dispatcher.step, h.serving, Parts.call, hcycle]
    have hmonitor : (parts.cycle turns.length m).1 = Dispatcher.monitor.final Dispatcher.boot
        (parts.calls (turns ++ [⟨supply, m.sandbox⟩])) := by
      rw [calls_concat, Machine.final_append, ← h.monitor]
      simp [hstatus, hmutation]
    refine ⟨⟨supply, m.sandbox⟩, ?_, hmonitor, ?_, hended, ?_⟩
    · intro turn hmem
      rcases List.mem_append.1 hmem with hmem | hmem
      · exact h.issued turn hmem
      · obtain rfl := List.mem_singleton.1 hmem
        exact hissued
    · obtain ⟨result, hrun⟩ := exists_execute_of_turn hended
      rw [hmonitor] at hrun
      exact .turn h.sandbox hrun
    · rw [calls_concat, Machine.history_append, ← h.monitor, List.flatMap_append, ← h.console]
      simp [hstatus, hmutation, Parts.afterTurn, Machine.event, eventLines]

/-- **The turns of the nested calls are cycles of the monitor.** -/
theorem exists_refines {own : ρ} {n : ℕ} (h : parts.assembly.atTurn rank (boot own) n = some m) :
    ∃ turns, turns.length = n ∧ Refines parts turns m := by
  refine Rpc.atTurn_induction
    (P := fun n m => ∃ turns, turns.length = n ∧ Refines parts turns m)
    ⟨[], rfl, by simp, rfl, .boot, rfl, rfl⟩ ?_ h
  rintro i m m' ⟨turns, rfl, hrefines⟩ hturn
  obtain ⟨turn, hnext⟩ := hrefines.turn hturn
  exact ⟨turns ++ [turn], by simp, hnext⟩

/-! ## Every order -/

/-- **Any interleaving is a run of the monitor.** For any synthesis, any code in the arena
and any order of all threads, when the console ends a turn, the Dispatcher's state and what
it has printed are those of the monitor after one status call and one transaction per turn,
with supplies in which the fTPM issued everything registered, and the answers of the code in
the arena, which finds in each turn what it left in the one before. -/
theorem interleaving_refines_monitor (parts : Parts ρ) (own : ρ) (ts : List ThreadId)
    {v : Message} (hended : (parts.after own ts).1.thread none = .busy (.ret v)) :
    ∃ turns, turns.length = (parts.after own ts).1.turn + 1 ∧
      Refines parts turns (parts.after own ts).1.mem :=
  exists_refines ((synced_after parts own ts).atTurn_succ_eq hended)

/-- The assembly as coded gets to the end of a turn, and then its console shows a
transaction of the monitor. -/
theorem interleaving_refines_monitor_asCoded :
    ∃ ts turns, turns.length = 1 ∧ Refines (asCoded fun _ => zeroWorld) turns
      ((asCoded fun _ => zeroWorld).after .boot ts).1.mem := by
  obtain ⟨ts, v, hturn, hended⟩ :=
    exists_order_to_end (fun _ => zeroWorld) (fun _ => by decide) (show 0 + 1 < 2 ^ 31 by decide)
  obtain ⟨turns, hlength, hrefines⟩ :=
    interleaving_refines_monitor (asCoded fun _ => zeroWorld) .boot ts hended
  exact ⟨ts, turns, by rw [hlength, hturn], hrefines⟩

/-! ## What the console tells -/

/-- What a reader of the Dispatcher's console keeps in mind. -/
structure Reader where
  /-- The last "Local buffer hash". -/
  lastHash : UInt32
  /-- The hash and the id of the last variant injected. -/
  installed : Option (UInt32 × Int32)
  /-- The variants injected. -/
  swaps : ℕ

def Reader.read (r : Reader) : Line → Reader
  | .localHash hash => { r with lastHash := hash }
  | .outcome (.injected variantId) =>
    { r with installed := some (r.lastHash, variantId), swaps := r.swaps + 1 }
  | _ => r

/-- A console, read from its start. -/
def readConsole (console : List Line) : Reader := console.foldl Reader.read ⟨0, none, 0⟩

/-- The arena starts with a payload of this hash that the fTPM has signed under this id. -/
structure Holds (arena : Region 4096) (hash : UInt32) (variantId : Int32) : Prop where
  payload : ∃ metadata payload, Issued metadata ∧ metadata.vid.toInt32 = variantId ∧
    metadata.payloadLen = payload.length ∧
    metadata.signature = Tpm.signatureOf Tpm.tpmSecretKey hash ∧
    OneAtATime.digest payload = hash ∧ arena.first (min 4096 payload.length) = payload.take 4096

/-- **The console accounts for the arena.** -/
structure Accounts (m : Memory ρ) : Prop where
  /-- Before any injection it is as it was at boot. -/
  untouched : (readConsole m.console).installed = none → m.monitor.workerArena = .zero
  /-- After one it holds the variant of the last, which is the active one. -/
  installed : ∀ hash variantId, (readConsole m.console).installed = some (hash, variantId) →
    Holds m.monitor.workerArena hash variantId ∧ m.monitor.currentActiveVariant = variantId
  total : m.monitor.totalMutationsCount = Int32.ofNat (readConsole m.console).swaps

/-- The metadata is what the fTPM issued, or still that of boot. -/
def Stored (m : Memory ρ) : Prop :=
  Issued m.monitor.shared.secureStorage ∨
    m.monitor.shared.secureStorage = ⟨0, 0, 0⟩ ∧ m.monitor.totalMutationsCount = 0

theorem readConsole_append (console lines : List Line) :
    readConsole (console ++ lines) = lines.foldl Reader.read (readConsole console) :=
  List.foldl_append ..

/-- A refused transaction tells the reader nothing new about the arena. -/
theorem read_refused (r : Reader) (s : Dispatcher.State) {outcome : Dispatcher.Outcome}
    (hne : ∀ id, outcome ≠ .injected id) (status : Int32) :
    ((injectionLines s outcome ++ [Line.response status]).foldl Reader.read r).installed =
        r.installed ∧
      ((injectionLines s outcome ++ [Line.response status]).foldl Reader.read r).swaps =
        r.swaps := by
  cases outcome with
  | mismatch expected found => simp [injectionLines, Reader.read]
  | stuck => simp [injectionLines, Reader.read]
  | blocked id => simp [injectionLines, Reader.read]
  | injected id => exact absurd rfl (hne id)

theorem issued_or_eq {supply : Dispatcher.Supply} {shared : Shared}
    (hissued : ∀ metadata ∈ supply.registrations, Issued metadata) :
    Issued (supply.apply shared).secureStorage ∨
      (supply.apply shared).secureStorage = shared.secureStorage := by
  rw [Dispatcher.secureStorage_apply]
  rcases hlast : supply.registrations.getLast? with _ | metadata
  · exact .inr rfl
  · exact .inl (hissued metadata (List.mem_of_getLast? hlast))

/-- What an attested transaction leaves in the arena. -/
theorem holds_of_attested {shared : Shared} {arena arena' : Region 4096} {variantId : Int32}
    {ctx : Tpm.Sha256Ctx} (hissued : Issued shared.secureStorage)
    (hatt : Dispatcher.Attested (Tpm.cryptoApiVerifySignature ctx Tpm.tpmSecretKey) shared variantId)
    (hcopy : Region.memcpy arena shared.guestRam 4096 = some arena') :
    Holds arena' (OneAtATime.digest (shared.guestRam.first shared.secureStorage.payloadLen))
      variantId := by
  obtain ⟨hvid, hfit, hsignature⟩ := (Dispatcher.attested_iff ctx Tpm.tpmSecretKey).1 hatt
  have hlength := Region.length_first (r := shared.guestRam) hfit
  refine ⟨_, _, hissued, hvid, hlength.symm, hsignature, rfl, ?_⟩
  rw [hlength, Region.first_of_memcpy hcopy (Nat.min_le_left ..), List.take_eq_take_min, hlength,
    Region.take_first (Nat.min_le_right ..) (by omega)]

/-- **A turn that ends** has injected what was attested, or has left the arena and the
counters alone. -/
theorem turn_cases (hended : (parts.cycle i m).1.halted = false) :
    ∃ supply : Dispatcher.Supply, (∀ metadata ∈ supply.registrations, Issued metadata) ∧
      ((∃ arena status,
        Dispatcher.Attested
          (Tpm.cryptoApiVerifySignature (parts.world i).verifyStack Tpm.tpmSecretKey)
          (supply.apply m.monitor.shared) (m.monitor.totalMutationsCount + 1) ∧
        Region.memcpy m.monitor.workerArena (supply.apply m.monitor.shared).guestRam 4096 =
          some arena ∧
        parts.cycle i m =
          ({ m.monitor with
              shared := supply.apply m.monitor.shared
              workerArena := arena
              currentActiveVariant := m.monitor.totalMutationsCount + 1
              totalMutationsCount := m.monitor.totalMutationsCount + 1
              halted := false },
            ⟨some (.injected (m.monitor.totalMutationsCount + 1)), some (1, 0), some arena,
              some status⟩)) ∨
      ∃ outcome status, (∀ id, outcome ≠ .injected id) ∧
        parts.cycle i m =
          ({ m.monitor with shared := supply.apply m.monitor.shared, halted := false },
            ⟨some outcome, some (1, 0), some m.monitor.workerArena, some status⟩)) := by
  obtain ⟨supply, hissued, hcycle⟩ := exists_supply_of_turn hended
  refine ⟨supply, hissued, ?_⟩
  -- the fTPM's answer and the Worker's are all that is used of the world
  generalize Tpm.cryptoApiVerifySignature (parts.world i).verifyStack Tpm.tpmSecretKey = verify
    at hcycle ⊢
  generalize parts.jitResult i m.sandbox = jitTask at hcycle
  have hstatus : ∀ {arena : Region 4096}, (jitTask arena).isNone = false →
      ∃ status, (jitTask arena).map (·.toInt32) = some status := by
    intro arena h
    rcases hr : jitTask arena with _ | r
    · rw [hr] at h
      cases h
    · exact ⟨r.toInt32, rfl⟩
  by_cases hatt : Dispatcher.Attested verify (supply.apply m.monitor.shared)
      (m.monitor.totalMutationsCount + 1)
  · obtain ⟨arena, hcopy, heq⟩ := Dispatcher.cycle_of_attested
      (Dispatcher.Supply.env (some supply) verify jitTask) rfl hatt
    rw [heq] at hcycle
    rw [hcycle] at hended
    obtain ⟨status, hstatus⟩ := hstatus hended
    refine .inl ⟨arena, status, hatt, hcopy, ?_⟩
    rw [hcycle, ← hstatus, ← hended]
    rfl
  · by_cases hstuck : Dispatcher.Stuck verify (supply.apply m.monitor.shared)
        (m.monitor.totalMutationsCount + 1)
    · rw [hcycle, Dispatcher.cycle_of_stuck (Dispatcher.Supply.env (some supply) verify jitTask) rfl
        hstuck] at hended
      cases hended
    · obtain ⟨outcome, -, hne, heq⟩ := Dispatcher.cycle_of_refused
        (Dispatcher.Supply.env (some supply) verify jitTask) rfl hatt hstuck
      rw [heq] at hcycle
      rw [hcycle] at hended
      obtain ⟨status, hstatus⟩ := hstatus hended
      refine .inr ⟨outcome, status, hne, ?_⟩
      rw [hcycle, ← hstatus, ← hended]
      rfl

/-- **A turn keeps the account.** -/
theorem Accounts.turn (h : Accounts m) (hstored : Stored m)
    (hended : (parts.cycle i m).1.halted = false) :
    Accounts (parts.afterTurn i m) ∧ Stored (parts.afterTurn i m) := by
  obtain ⟨supply, hissued, ⟨arena, status, hatt, hcopy, hcycle⟩ | ⟨outcome, status, hne, hcycle⟩⟩ :=
    turn_cases hended
  · have hstorage : Issued (supply.apply m.monitor.shared).secureStorage := by
      rcases issued_or_eq hissued with hnew | hold
      · exact hnew
      -- the metadata of boot names no variant that is asked for
      · rcases hstored with hstored | ⟨hzero, htotal⟩
        · rwa [hold]
        · have hvid := hatt.vid
          rw [hold, hzero, htotal] at hvid
          exact absurd hvid (by decide)
    have hread : readConsole (parts.afterTurn i m).console =
        ⟨OneAtATime.digest ((supply.apply m.monitor.shared).guestRam.first
            (supply.apply m.monitor.shared).secureStorage.payloadLen),
          some (OneAtATime.digest ((supply.apply m.monitor.shared).guestRam.first
            (supply.apply m.monitor.shared).secureStorage.payloadLen),
            m.monitor.totalMutationsCount + 1), (readConsole m.console).swaps + 1⟩ := by
      simp [Parts.afterTurn, hcycle, readConsole_append, cycleLines, injectionLines, Reader.read]
    have hmonitor : (parts.afterTurn i m).monitor = (parts.cycle i m).1 := rfl
    rw [hcycle] at hmonitor
    refine ⟨⟨fun hnone => ?_, fun hash variantId hsome => ?_, ?_⟩, .inl ?_⟩
    · rw [hread] at hnone
      cases hnone
    · rw [hread] at hsome
      obtain ⟨rfl, rfl⟩ := Prod.mk.inj (Option.some.inj hsome)
      rw [hmonitor]
      exact ⟨holds_of_attested hstorage hatt hcopy, rfl⟩
    · rw [hmonitor, hread]
      simp [h.total]
    · rw [hmonitor]
      exact hstorage
  · have hread : (readConsole (parts.afterTurn i m).console).installed =
          (readConsole m.console).installed ∧
        (readConsole (parts.afterTurn i m).console).swaps = (readConsole m.console).swaps := by
      have hlines := read_refused (readConsole m.console) (parts.cycle i m).1 hne status
      simpa [Parts.afterTurn, hcycle, readConsole_append, cycleLines, Reader.read] using hlines
    have hmonitor : (parts.afterTurn i m).monitor = (parts.cycle i m).1 := rfl
    rw [hcycle] at hmonitor
    obtain ⟨hinstalled, hswaps⟩ := hread
    refine ⟨⟨?_, ?_, ?_⟩, ?_⟩
    · rw [hinstalled, hmonitor]
      exact h.untouched
    · rw [hinstalled, hmonitor]
      exact h.installed
    · rw [hswaps, hmonitor]
      exact h.total
    · rw [Stored, hmonitor]
      rcases issued_or_eq hissued with hnew | hold
      · exact .inl hnew
      · rw [Stored, ← hold] at hstored
        exact hstored

/-- After a turn as coded, the reader knows of the last variant of the stream. -/
theorem readConsole_expectedConsole (world : ℕ → World) (n : ℕ) :
    (readConsole (expectedConsole world (n + 1))).installed =
      some (OneAtATime.digest (Generator.variantAt (sourceWord world) n).encode,
        Int32.ofNat (n + 1)) := by
  rw [expectedConsole, List.range_succ, List.flatMap_append, readConsole_append]
  simp [turnLines, Reader.read]

/-- What a thread may do to the memory in one move. -/
def MayWrite : Option Interface → Memory ρ → Memory ρ → Prop
  -- the Dispatcher: the arena, its counters and its console
  | some .adminApi, m, m' => m' = { m with
      console := m'.console
      monitor := { m.monitor with
        workerArena := m'.monitor.workerArena
        totalMutationsCount := m'.monitor.totalMutationsCount
        currentActiveVariant := m'.monitor.currentActiveVariant } }
  -- the Generator: `guest_ram`, `gen_buf` and what it keeps
  | some .genApi, m, m' => m' = m.withWorkspace m'.workspace
  -- the Repository: the metadata
  | some .repoWriteApi, m, m' => m' = m.withShared { m.monitor.shared with
      secureStorage := m'.monitor.shared.secureStorage
      registrations := m'.monitor.shared.registrations }
  | some .timerCtrl, m, m' => m' = { m with quantumMs := m'.quantumMs }
  -- the VFS: its offset, but not the disk
  | some .posixApi, m, m' => m' = { m with vfs := { m.vfs with diskOffset := m'.vfs.diskOffset } }
  -- the Worker: its own memory, and the disk, which is its `fs_buffer`
  | some .ctrlApi, m, m' => m' = { m with
      worker := m'.worker
      vfs := { m.vfs with virtualDiskArena := m'.vfs.virtualDiskArena } }
  -- the fTPM and the console: nothing
  | _, m, m' => m' = m

theorem mayWrite_refl (t : Option Interface) (m : Memory ρ) : MayWrite t m m := by
  rcases t with _ | p
  · rfl
  · cases p <;> rfl

/-- The handlers keep to it, one by one. -/
theorem respects_synthesis (g : Synthesis ρ) : g.code.Respects (MayWrite (some .genApi)) := by
  induction g with
  | ret => exact .ret _
  | act update next ih => exact .act (fun m => rfl) fun m => ih m.workspace
  | addVariant variantId size next ih => exact .call fun _ => ih
  | fault => exact .fault

theorem respects_attempt {R : Memory ρ → Memory ρ → Prop} {f : Memory ρ → Option (Memory ρ)}
    {next : Memory ρ → Handler ρ} (hrefl : ∀ m, R m m) (hf : ∀ m m', f m = some m' → R m m')
    (h : ∀ m, (next m).Respects R) : (attempt f next).Respects R := by
  refine .act (fun m => ?_) fun m => ?_
  · rcases hm : f m with _ | m'
    · exact hrefl m
    · exact hf m m' hm
  · split
    · exact h m
    · exact .fault

theorem respects_execution (e : Execution) :
    (e.code : Handler ρ).Respects (MayWrite (some .ctrlApi)) := by
  induction e with
  | ret result => exact .ret _
  | own update next ih => exact .act (fun m => rfl) fun m => ih m.worker
  | load port offset next ih =>
    rw [Execution.code]
    refine .act (mayWrite_refl _) fun m => ?_
    split
    · exact .fault
    · exact ih _
  | store port offset byte next ih =>
    refine respects_attempt (mayWrite_refl _) (fun m m' h => ?_) fun _ => ih
    obtain ⟨b, hstore, rfl⟩ := Option.map_eq_some_iff.1 h
    cases port with
    | executableArena =>
      rw [store_executableArena] at hstore
      cases hstore
    | fsBuffer =>
      obtain ⟨disk, -, rfl⟩ := Option.map_eq_some_iff.1 hstore
      rfl
  | posix call next ih =>
    rw [Execution.code]
    refine .call fun reply => ?_
    split
    · exact ih _
    · exact .fault
  | fault => exact .fault

theorem respects_posix (call : Vfs.PosixCall) :
    (posix call : Handler ρ).Respects (MayWrite (some .posixApi)) := by
  refine .act (fun m => ?_) fun _ => .ret _
  have hdisk : (Vfs.server.step m.vfs call).1 =
      ⟨(Vfs.server.step m.vfs call).1.diskOffset, m.vfs.virtualDiskArena⟩ := by
    rw [← Vfs.arena_step m.vfs call]
  exact congrArg (fun vfs => { m with vfs := vfs }) hdisk

theorem respects_addVariant (variantId size : Int32) :
    (addVariant variantId size : Handler ρ).Respects (MayWrite (some .repoWriteApi)) := by
  refine .act (mayWrite_refl _) fun m => ?_
  split
  · exact .fault
  · refine .call fun reply => ?_
    split
    · exact .act (fun m => rfl) fun _ => .ret _
    · exact .fault

theorem respects_execute : (execute : Handler ρ).Respects (MayWrite (some .adminApi)) := by
  refine .call fun reply => ?_
  split
  · exact .act (fun m => rfl) fun _ => .ret _
  · exact .fault

theorem respects_install (variantId isVerified : Int32) :
    (install variantId isVerified : Handler ρ).Respects (MayWrite (some .adminApi)) := by
  unfold install
  split
  · refine respects_attempt (mayWrite_refl _) (fun m m' h => ?_) fun _ => respects_execute
    obtain ⟨arena, -, h⟩ := Option.bind_eq_some_iff.1 h
    obtain rfl := Option.some.inj h
    rfl
  · exact .act (fun m => rfl) fun _ => respects_execute

theorem respects_attest (variantId : Int32) (metadata : Metadata) :
    (attest variantId metadata : Handler ρ).Respects (MayWrite (some .adminApi)) := by
  refine respects_attempt (mayWrite_refl _) (fun m m' h => ?_) fun m => ?_
  · obtain ⟨hash, -, h⟩ := Option.bind_eq_some_iff.1 h
    obtain rfl := Option.some.inj h
    rfl
  · split
    · exact .fault
    · refine .call fun reply => ?_
      split
      · exact respects_install variantId _
      · exact .fault

theorem respects_forceMutation :
    (forceMutation : Handler ρ).Respects (MayWrite (some .adminApi)) := by
  refine .act (mayWrite_refl _) fun m => .call fun _ => .act (mayWrite_refl _) fun m' => ?_
  change Code.Respects _ (if m'.monitor.shared.secureStorage.vid.toInt32 ≠
    m.monitor.totalMutationsCount + 1 then _ else _)
  split
  · exact .act (fun m => rfl) fun _ => respects_execute
  · exact respects_attest _ _

section Steps

variable {P : (Memory ρ → Memory ρ) → (Memory ρ → Handler ρ) → Prop}

/-- The fTPM takes no step on the memory. -/
theorem every_signData (w : World) (rawHash : UInt32) : (signData w rawHash).Every P := by
  unfold signData
  split
  · exact .fault
  · exact .ret _

theorem every_verifySignature (w : World) (rawHash signature : UInt32) :
    (verifySignature w rawHash signature).Every P := by
  unfold verifySignature
  split
  · exact .fault
  · exact .ret _

theorem every_symbolicSleep (hP : ∀ next : Handler ρ, P id fun _ => next) (iterations : ℕ)
    {next : Handler ρ} (h : next.Every P) : (symbolicSleep iterations next).Every P := by
  induction iterations with
  | zero => exact h
  | succ iterations ih => exact .act (hP _) fun _ => ih

/-- The console takes none but those of its delays, which do nothing. -/
theorem every_adminRun (hP : ∀ next : Handler ρ, P id fun _ => next) (delays : Delays) (i : ℕ) :
    (adminRun delays i).Every P := by
  have hloop : (adminLoop delays).Every P :=
    .call fun _ => every_symbolicSleep hP _ <| .call fun _ => every_symbolicSleep hP _ <| .ret _
  cases i with
  | zero => exact every_symbolicSleep hP _ hloop
  | succ i => exact hloop

end Steps

/-- **The code of the assembly keeps to it.** -/
theorem respects_assembly (parts : Parts ρ) : parts.assembly.Respects MayWrite := by
  refine ⟨every_adminRun (fun _ => mayWrite_refl none) _, fun i p v => ?_⟩
  change (parts.serve i p v).Respects (MayWrite (some p))
  unfold Parts.serve
  split
  · exact .act (fun m => rfl) fun _ => .ret _
  · exact respects_forceMutation
  · exact respects_synthesis _
  · exact .ret _
  · exact respects_addVariant _ _
  · exact every_signData _ _
  · exact every_verifySignature _ _ _
  · unfold ctrlCmd
    split
    · exact .act (mayWrite_refl _) fun m => respects_execution _
    · exact .ret _
  · refine .act (mayWrite_refl _) fun m => ?_
    split
    · exact .fault
    · exact .ret _
  · exact .act (fun m => rfl) fun _ => .ret _
  · exact respects_posix _
  · exact .fault

/-- What changed in a move says whose it was. -/
structure Confined (t : ThreadId) (m m' : Memory ρ) : Prop where
  generator : m'.workspace ≠ m.workspace → t = .inl (some .genApi)
  repository : m'.monitor.shared.secureStorage ≠ m.monitor.shared.secureStorage →
    t = .inl (some .repoWriteApi)
  dispatcher : m'.monitor.workerArena ≠ m.monitor.workerArena ∨
      m'.monitor.currentActiveVariant ≠ m.monitor.currentActiveVariant ∨
      m'.monitor.totalMutationsCount ≠ m.monitor.totalMutationsCount →
    t = .inl (some .adminApi)
  scheduler : m'.quantumMs ≠ m.quantumMs → t = .inl (some .timerCtrl)
  vfs : m'.vfs.diskOffset ≠ m.vfs.diskOffset → t = .inl (some .posixApi)
  worker : m'.vfs.virtualDiskArena ≠ m.vfs.virtualDiskArena ∨ m'.worker ≠ m.worker →
    t = .inl (some .ctrlApi)

theorem confined_refl (t : ThreadId) (m : Memory ρ) : Confined t m m := by
  constructor <;> simp

theorem MayWrite.confined {t : Option Interface} (h : MayWrite t m m') :
    Confined (.inl t) m m' := by
  rcases t with _ | p
  · obtain rfl : m' = m := h
    exact confined_refl _ _
  · cases p with
    | adminApi | genApi | repoWriteApi | timerCtrl | posixApi | ctrlApi =>
      rw [show m' = _ from h]
      constructor <;> simp [Memory.workspace, Memory.withWorkspace, Memory.withShared]
    | repoApi | cryptoApi | verifierTarget =>
      obtain rfl : m' = m := h
      exact confined_refl _ _

/-- **Every region has one writer.** For any synthesis, any code in the arena and any order of
all threads, `guest_ram` and `gen_buf` change only in a move of the Generator, the metadata
only in one of the Repository, the arena and the counters only in one of the Dispatcher, the
quantum only in one of the Scheduler's interface, the disk's offset only in one of the VFS,
and the disk, which is the Worker's `fs_buffer`, only in one of the Worker. The fTPM, the
console and the threads that serve nobody change none of it. -/
theorem every_region_has_one_writer (parts : Parts ρ) (own : ρ) (ts : List ThreadId) :
    ∀ e ∈ parts.system.history (parts.start own) ts,
      Confined e.call e.pre.1.mem e.post.1.mem := by
  intro e he
  rcases hcall : e.call with t | other
  · exact ((respects_assembly parts).of_mem mayWrite_refl
      (Machine.event_mem_of_inl he hcall)).confined
  · rw [Machine.post_fst_of_inr he hcall]
    exact confined_refl _ _

/-- The threads' moves up to where the Worker's code stores. -/
def upToDisk : List ThreadId :=
  toStore ++ [.inl (some .genApi), .inl (some .adminApi), .inl (some .adminApi),
    .inl (some .adminApi), .inl (some .adminApi), .inl (some .ctrlApi), .inl (some .ctrlApi)]

/-- A byte comes to the disk in a move of the Worker. -/
theorem every_region_has_one_writer_disk :
    ∃ e ∈ storing.system.history (storing.start ()) (upToDisk ++ [.inl (some .ctrlApi)]),
      e.pre.1.mem.vfs.virtualDiskArena.get? 0 = some 0 ∧
        e.post.1.mem.vfs.virtualDiskArena.get? 0 = some 0x41 ∧
        Confined e.call e.pre.1.mem e.post.1.mem := by
  refine ⟨storing.system.event (storing.after () upToDisk) (.inl (some .ctrlApi)),
    Machine.event_mem_concat, by decide, by decide, ?_⟩
  exact every_region_has_one_writer storing () _ _ Machine.event_mem_concat

end Camkes

end HkSystem
