import HkSystem.Common.RpcStatic
import HkSystem.Generator.Transcript
import HkSystem.System.Assembly
import HkSystem.System.Model.Threads
/-!
# Progress

The console and the interfaces' threads wait for each other, one call inside the other.
No two of them can ever move, so the order in which the kernel gives all threads the chance
does not matter for what they do (`order_irrelevant`); as coded there is always one that
can (`one_thread_moves`), an order in which they come up again and again gets through every
turn (`fair_order_completes`), and what is printed is the same in every order
(`console_in_every_order`). The Scheduler's loop, the Dispatcher's `hw_tick` thread and the
other control threads may come up anywhere in between.
-/

namespace HkSystem

namespace Camkes

open Rpc (Code Config)

/-! ## The turns as coded -/

section AsCoded

variable {world : ℕ → World} {m : Memory Generator.Csprng}

/-- What a turn prints that swaps in this payload, the `k`-th from 0. -/
def turnLines (k : ℕ) (payload : List UInt8) : List Line :=
  [.telemetry (Int32.ofNat k) (Int32.ofNat k), .localHash (OneAtATime.digest payload),
    .outcome (.injected (Int32.ofNat (k + 1))), .response (0xDEADBEEF : UInt32).toInt32]

/-- The words of the Generator's source, from the readings of the first turn. -/
def sourceWord (world : ℕ → World) : ℕ → UInt32 :=
  Generator.streamWord (Generator.initialState (world 0).rdtsc)

/-- What the console shows after so many turns. -/
def expectedConsole (world : ℕ → World) (n : ℕ) : List Line :=
  (List.range n).flatMap fun k => turnLines k (Generator.variantAt (sourceWord world) k).encode

/-- The memory after so many turns as coded. -/
structure Swapping (world : ℕ → World) (n : ℕ) (m : Memory Generator.Csprng) : Prop where
  serving : m.monitor.halted = false
  source : Generator.Buffered (Generator.initialState (world 0).rdtsc)
    (Generator.offset (sourceWord world) n) (m.generator.entered (world n).rdtsc)
  active : m.monitor.currentActiveVariant = Int32.ofNat n
  total : m.monitor.totalMutationsCount = Int32.ofNat n
  console : m.console = expectedConsole world n

/-- One more swap counted. -/
theorem eq_ofNat_succ {n : ℕ} {c c' : Int32} (hn : n + 1 < 2 ^ 31) (hc : c = Int32.ofNat n)
    (h : c'.toInt = c.toInt + 1) : c' = Int32.ofNat (n + 1) := by
  rw [hc, Int32.toInt_ofNat_of_lt (by omega)] at h
  rw [← Int32.toInt_inj, h, Int32.toInt_ofNat_of_lt hn]
  push_cast
  rfl

/-- What a turn prints that swapped. -/
theorem cycleLines_of_swapped {s : Dispatcher.State} {r : Dispatcher.State × Dispatcher.Report}
    {payload : List UInt8} (h : Swapped s payload r) :
    cycleLines r.1 r.2 =
      [.localHash (OneAtATime.digest payload), .outcome (.injected (s.totalMutationsCount + 1)),
        .response (0xDEADBEEF : UInt32).toInt32] := by
  have hlen : payload.length ≤ 67108864 := by
    have hmin := congrArg List.length h.guestRam
    rw [Region.length_first_eq_min] at hmin
    omega
  have hsize : r.1.shared.secureStorage.payloadLen = payload.length := by
    rw [h.metadata, payloadLen_metadataOf (by omega)]
  simp [cycleLines, injectionLines, h.injected, h.status, hsize, h.guestRam]

/-- **A turn as coded ends**, and has swapped in the next variant of the stream. -/
theorem Swapping.turn {n : ℕ} (h : Swapping world n m) (hfuel : 33 ≤ (world n).fuel)
    (hn : n + 1 < 2 ^ 31) :
    ((adminRun (asCoded world).delays n).run ((asCoded world).eval n) m).map Prod.snd =
        some ((asCoded world).afterTurn n m) ∧
      Swapping world (n + 1) ((asCoded world).afterTurn n m) := by
  obtain ⟨hserving, hsource, hactive, htotal, hconsole⟩ := h
  have hindex : m.generator.chachaIndex ≤ 16 := by
    rw [← Generator.chachaIndex_entered (world n).rdtsc]
    exact hsource.index_le
  obtain ⟨d, c', hdraw, -, hgen⟩ := requestGeneration_eq (world n) hindex 0x1000
    (m.monitor.totalMutationsCount + 1) 5 m.monitor.shared
  -- what is drawn is what the stream has next
  obtain ⟨c'', hdraw', hnext⟩ := Generator.draw_buffered hsource
  obtain ⟨rfl, rfl⟩ := Prod.mk.inj (Option.some.inj (hdraw.symm.trans hdraw'))
  have hcount : m.monitor.totalMutationsCount.toInt = n := by
    rw [htotal, Int32.toInt_ofNat_of_lt (by omega)]
  obtain ⟨hswap, -⟩ := swapped_of_registered (world n) m.monitor hdraw hgen (by omega) hfuel
  rw [← asCoded_cycle] at hswap
  have hended : ((asCoded world).cycle n m).1.halted = false := hswap.serving
  refine ⟨?_, hended, ?_, eq_ofNat_succ hn htotal hswap.active,
    eq_ofNat_succ hn htotal hswap.total, ?_⟩
  · rw [run_adminRun _ n hserving, if_neg (by rw [hended]; decide)]
  · have hown : ((asCoded world).afterTurn n m).generator = c' := by
      change (((asCoded world).synthesis n m).map Prod.fst).getD m.generator = c'
      rw [asCoded_synthesis, hgen]
      rfl
    rw [hown, hnext.entered]
    exact hnext
  · have hlines := cycleLines_of_swapped hswap
    rw [Parts.afterTurn, hlines, expectedConsole, List.range_succ, List.flatMap_append]
    simp [hconsole, expectedConsole, hactive, htotal, turnLines, Generator.variantAt, sourceWord]

/-- **The nested calls return, turn after turn**, as long as the counter has room. -/
theorem exists_swapping (world : ℕ → World) (hfuel : ∀ i, 33 ≤ (world i).fuel) :
    ∀ n, n < 2 ^ 31 →
      ∃ m, (asCoded world).assembly.atTurn rank (boot Generator.Csprng.boot) n = some m ∧
        Swapping world n m := by
  intro n
  induction n with
  | zero =>
    intro _
    exact ⟨_, rfl, rfl, Generator.buffered_boot (world 0).rdtsc, rfl, rfl, rfl⟩
  | succ n ih =>
    intro hn
    obtain ⟨m, hm, hswapping⟩ := ih (by omega)
    obtain ⟨hturn, hnext⟩ := hswapping.turn (hfuel n) hn
    refine ⟨_, ?_, hnext⟩
    rw [Rpc.Assembly.atTurn, hm, Option.bind_some]
    exact hturn

theorem atTurn_isSome (world : ℕ → World) (hfuel : ∀ i, 33 ≤ (world i).fuel) {n : ℕ}
    (hn : n < 2 ^ 31) :
    ∀ j ≤ n, ((asCoded world).assembly.atTurn rank (boot Generator.Csprng.boot) j).isSome := by
  intro j hj
  obtain ⟨m, hm, -⟩ := exists_swapping world hfuel j (by omega)
  rw [hm]
  rfl

end AsCoded

/-! ## How long a turn takes -/

/-- The moves a handler takes at most, as coded, with those of the handlers it calls. -/
def cost : Interface → Message → ℕ
  | .adminApi, .forceMutation => 29
  | .genApi, _ => 11
  | .repoWriteApi, _ => 6
  | .repoApi, _ | .cryptoApi, _ => 0
  | _, _ => 1

section Cost

variable {ρ : Type}

theorem atMost_execute : (execute : Handler ρ).AtMost cost 6 := by
  refine .call_le (n := 1) (Nat.le_refl 6) fun reply => ?_
  split
  · exact .act fun _ => .ret _
  · exact .fault

theorem atMost_attempt {n : ℕ} {f : Memory ρ → Option (Memory ρ)} {next : Memory ρ → Handler ρ}
    (h : ∀ m, (next m).AtMost cost n) : (attempt f next).AtMost cost (n + 1) := by
  refine .act fun m => ?_
  split
  · exact h m
  · exact .fault

theorem atMost_install (variantId isVerified : Int32) :
    (install variantId isVerified : Handler ρ).AtMost cost 7 := by
  unfold install
  split
  · exact atMost_attempt fun _ => atMost_execute
  · exact .act fun _ => atMost_execute

theorem atMost_attest (variantId : Int32) (metadata : Metadata) :
    (attest variantId metadata : Handler ρ).AtMost cost 12 := by
  refine atMost_attempt fun m => ?_
  split
  · exact .fault
  · refine .call_le (n := 7) (Nat.le_refl 11) fun reply => ?_
    split
    · exact atMost_install variantId _
    · exact .fault

theorem atMost_forceMutation : (forceMutation : Handler ρ).AtMost cost 29 := by
  refine .act (n := 28) fun m => .call_le (n := 13) (Nat.le_refl 28) fun _ => .act fun m' => ?_
  change Code.AtMost cost 12 (if m'.monitor.shared.secureStorage.vid.toInt32 ≠
    m.monitor.totalMutationsCount + 1 then _ else _)
  split
  -- the shorter way, if the ids differ
  · exact (Code.AtMost.act fun _ => atMost_execute).mono (by decide)
  · exact atMost_attest _ _

theorem atMost_addVariant (variantId size : Int32) :
    (addVariant variantId size : Handler ρ).AtMost cost 6 := by
  refine .act fun m => ?_
  split
  · exact .fault
  · refine .call_le (n := 1) (Nat.le_refl 5) fun reply => ?_
    split
    · exact .act fun _ => .ret _
    · exact .fault

theorem atMost_generatorC (w : World) (baseAddr : UInt64) (variantId complexity : Int32) :
    (generatorC w baseAddr variantId complexity).code.AtMost cost 11 := by
  refine .act (n := 10) fun m => ?_
  dsimp only
  split
  · exact .fault
  · exact .call_le (n := 0) (Nat.le_refl 10) fun _ => .ret _

theorem atMost_ctrlCmd (w : World) (type payload : Int32) :
    (ctrlCmd (onProcessor w) type payload : Handler ρ).AtMost cost 1 := by
  unfold ctrlCmd
  split
  · refine .act (n := 0) fun m => ?_
    unfold onProcessor
    split
    · exact .fault
    · exact .ret _
  · exact .ret _

theorem atMost_symbolicSleep {n : ℕ} (iterations : ℕ) {next : Handler ρ} (h : next.AtMost cost n) :
    (symbolicSleep iterations next).AtMost cost (n + iterations) := by
  induction iterations with
  | zero => exact h
  | succ iterations ih => exact .act fun _ => ih

theorem atMost_adminLoop (delays : Delays) :
    (adminLoop delays : Handler ρ).AtMost cost (38 + delays.between + delays.standby) := by
  have hmutation : (Code.call .adminApi .forceMutation fun _ =>
      symbolicSleep delays.standby (.ret .done) : Handler ρ).AtMost cost (33 + delays.standby) := by
    refine .call_le (n := 0 + delays.standby) ?_ fun _ => atMost_symbolicSleep _ (.ret _)
    change 0 + delays.standby + (29 + 4) ≤ _
    omega
  refine .call_le (n := 33 + delays.standby + delays.between) ?_ fun _ =>
    atMost_symbolicSleep _ hmutation
  change 33 + delays.standby + delays.between + (1 + 4) ≤ _
  omega

/-- The moves a turn takes at most. -/
def turnCost (delays : Delays) : ℕ → ℕ
  | 0 => 38 + delays.between + delays.standby + delays.boot
  | _ + 1 => 38 + delays.between + delays.standby

theorem sum_turnCost_le (delays : Delays) (n : ℕ) :
    ∑ i ∈ Finset.range n, (turnCost delays i + 1) ≤
      delays.boot + (39 + delays.between + delays.standby) * n := by
  induction n with
  | zero => exact Nat.zero_le _
  | succ n ih =>
    rw [Finset.sum_range_succ]
    cases n with
    | zero =>
      rw [Finset.range_zero, Finset.sum_empty, turnCost]
      omega
    | succ k =>
      rw [turnCost, Nat.mul_succ]
      omega

/-- **What a turn as coded takes.** -/
theorem atMost_asCoded (world : ℕ → World) :
    (asCoded world).assembly.AtMost cost (turnCost (asCoded world).delays) := by
  refine ⟨fun i p v => ?_, fun i => ?_⟩
  · change ((asCoded world).serve i p v).AtMost cost (cost p v)
    unfold Parts.serve
    split
    · exact .act (n := 0) fun _ => .ret _
    · exact atMost_forceMutation
    next baseAddr variantId complexity =>
      exact atMost_generatorC (world i) baseAddr variantId complexity
    · exact .ret _
    · exact atMost_addVariant _ _
    · unfold signData
      split
      · exact .fault
      · exact .ret _
    · unfold verifySignature
      split
      · exact .fault
      · exact .ret _
    · exact atMost_ctrlCmd (world i) _ _
    · refine .act (n := 0) fun m => ?_
      split
      · exact .fault
      · exact .ret _
    · exact .act (n := 0) fun _ => .ret _
    · exact .act (n := 0) fun _ => .ret _
    · exact .fault
  · cases i with
    | zero => exact atMost_symbolicSleep _ (atMost_adminLoop _)
    | succ i => exact atMost_adminLoop _

end Cost

/-! ## Every order of the threads -/

section Orders

variable {ρ : Type}

/-- The system after the threads have come up in this order. -/
def Parts.after (parts : Parts ρ) (own : ρ) (ts : List ThreadId) :
    Config Interface Message (Memory ρ) × Others :=
  parts.system.final (parts.start own) ts

/-- A thread that comes up would move. -/
def Parts.CanMove (parts : Parts ρ) (s : Config Interface Message (Memory ρ) × Others)
    (t : ThreadId) : Prop :=
  (parts.system.step s t).2 = true

/-- How often the console and the interfaces' threads moved. -/
def Parts.moves (parts : Parts ρ) (own : ρ) (ts : List ThreadId) : ℕ :=
  (parts.system.history (parts.start own) ts).countP fun e => e.call.isLeft && e.answer

variable (parts : Parts ρ) (own : ρ) (ts : List ThreadId)

theorem after_fst :
    (parts.after own ts).1 =
      parts.assembly.threads.final (parts.assembly.start (boot own)) (Machine.firstCalls ts) :=
  Machine.final_beside_fst

theorem moves_eq :
    parts.moves own ts =
      parts.assembly.moved (parts.assembly.start (boot own)) (Machine.firstCalls ts) := by
  rw [Parts.moves, Rpc.Assembly.moved, List.count, List.countP_map]
  refine (Machine.countP_history_beside id).trans (List.countP_congr fun e _ => ?_)
  simp

/-- What the other threads did does not matter. -/
theorem synced_after :
    Rpc.Synced parts.assembly rank (boot own) (parts.after own ts).1 (parts.moves own ts) := by
  rw [after_fst, moves_eq]
  exact (layered parts).synced (boot own) (Machine.firstCalls ts)

end Orders

/-- **The order of the threads does not matter.** For any synthesis and any code in the
arena, at any time at most one of the console's and the interfaces' threads can move; so
however differently two orders give all threads the chance, after as many moves of these
everything of theirs is the same: the memory, the messages and where each of them is. -/
theorem order_irrelevant {ρ : Type} (parts : Parts ρ) (own : ρ) (ts us : List ThreadId)
    (h : parts.moves own ts = parts.moves own us) :
    (parts.after own ts).1 = (parts.after own us).1 ∧
      ∀ t u : Option Interface, parts.CanMove (parts.after own ts) (.inl t) →
        parts.CanMove (parts.after own ts) (.inl u) → t = u := by
  refine ⟨?_, fun t u ht hu => (synced_after parts own ts).mover_unique (layered parts) ht hu⟩
  rw [moves_eq, moves_eq] at h
  rw [after_fst, after_fst]
  exact (Rpc.synced_start (boot own)).final_eq (layered parts) _ _ h

/-- A synthesis that only stores a `RET` in `guest_ram`, code in the arena that only stores a
byte in `fs_buffer`, and no delays. -/
def storing : Parts Unit where
  world _ := zeroWorld
  generator _ _ _ _ := .act (fun w => { w with guestRam := .ofList [0xC3] }) fun _ => .ret
  jitTask _ _ := .store .fsBuffer 0 0x41 (.ret 0)
  delays := ⟨0, 0, 0⟩

/-- The threads' moves up to where the Generator stores. -/
def upToStore : List ThreadId :=
  [.inl none, .inl (some .adminApi), .inl (some .adminApi), .inl (some .adminApi), .inl none,
    .inl none, .inl (some .adminApi), .inl (some .adminApi), .inl (some .adminApi),
    .inl (some .genApi)]

/-- And the store. -/
def toStore : List ThreadId := upToStore ++ [.inl (some .genApi)]

/-- The store is made just the same if before every move the Scheduler comes up, and the VFS,
which has nothing to do. -/
theorem order_irrelevant_storing :
    (storing.after () toStore).1 = (storing.after () (toStore.flatMap fun t =>
        [.inr .schedulerRun, .inl (some .posixApi), t])).1 ∧
      (storing.after () toStore).1.mem.monitor.shared.guestRam.get? 0 = some 0xC3 :=
  ⟨(order_irrelevant storing () _ _ (by decide)).1, rfl⟩

/-- **There is always one that can move**, as coded and until the counter is full: the
components never wait for each other in a circle. Beside it the Scheduler can always go
on. -/
theorem one_thread_moves (world : ℕ → World) (hfuel : ∀ i, 33 ≤ (world i).fuel)
    (ts : List ThreadId) (hroom : ((asCoded world).after .boot ts).1.turn + 1 < 2 ^ 31) :
    (∃! t : Option Interface, (asCoded world).CanMove ((asCoded world).after .boot ts) (.inl t)) ∧
      (asCoded world).CanMove ((asCoded world).after .boot ts) (.inr .schedulerRun) := by
  have hsynced := synced_after (asCoded world) .boot ts
  obtain ⟨t, ht⟩ := hsynced.exists_move (layered _) (atTurn_isSome world hfuel hroom _ le_rfl)
  exact ⟨⟨t, ht, fun u hu => hsynced.mover_unique (layered _) hu ht⟩, rfl⟩

/-- At the start it is the console. -/
theorem one_thread_moves_start :
    (∃! t : Option Interface, (asCoded fun _ => zeroWorld).CanMove
        ((asCoded fun _ => zeroWorld).start .boot) (.inl t)) ∧
      (asCoded fun _ => zeroWorld).CanMove ((asCoded fun _ => zeroWorld).start .boot)
        (.inr .schedulerRun) :=
  one_thread_moves (fun _ => zeroWorld) (fun _ => by decide) [] (by decide)

/-- **Every fair order gets the transactions done.** If the console's thread and those of the
interfaces come up in each of 80000000 rounds for the delay at start-up and 820000039 more
for every one of `n` turns, in whatever order and however often, and the other threads
wherever they like, the console is through `n` turns at the end. -/
theorem fair_order_completes (world : ℕ → World) (hfuel : ∀ i, 33 ≤ (world i).fuel) {n : ℕ}
    (hn : n < 2 ^ 31) {rounds : List (List ThreadId)}
    (hall : ∀ round ∈ rounds, ∀ t : Option Interface, .inl t ∈ round)
    (hlength : 80000000 + 820000039 * n ≤ rounds.length) :
    n ≤ ((asCoded world).after .boot rounds.flatten).1.turn := by
  have hclock : (asCoded world).assembly.clock rank (boot .boot) n ≤
      Delays.asCoded.boot + (39 + Delays.asCoded.between + Delays.asCoded.standby) * n :=
    ((atMost_asCoded world).clock_le _ n).trans (sum_turnCost_le _ n)
  simp only [Delays.asCoded] at hclock
  rw [after_fst, Machine.firstCalls_flatten]
  refine (layered (asCoded world)).turn_of_rounds (atTurn_isSome world hfuel hn) ?_ ?_
  · intro calls hcalls t
    obtain ⟨round, hround, rfl⟩ := List.mem_map.1 hcalls
    exact Machine.mem_firstCalls.2 (hall round hround t)
  · rw [List.length_map]
    omega

/-- The threads one after the other. -/
def everyThread : List (Option Interface) :=
  [none, some .adminApi, some .genApi, some .repoApi, some .repoWriteApi, some .cryptoApi,
    some .ctrlApi, some .verifierTarget, some .timerCtrl, some .posixApi]

theorem mem_everyThread (t : Option Interface) : t ∈ everyThread := by
  rcases t with _ | p
  · decide
  · cases p <;> decide

/-- Going round often enough for a transaction, with the Scheduler in between. -/
theorem fair_order_completes_one :
    1 ≤ ((asCoded fun _ => zeroWorld).after .boot
      (List.replicate 900000039 (.inr .schedulerRun :: everyThread.map .inl)).flatten).1.turn := by
  refine fair_order_completes (fun _ => zeroWorld) (fun _ => by decide) (by decide)
    (fun round h t => ?_) (by rw [List.length_replicate])
  rw [List.eq_of_mem_replicate h]
  exact List.mem_cons_of_mem _ (List.mem_map_of_mem (mem_everyThread t))

/-- There is an order that gets to the end of a turn. -/
theorem exists_order_to_end (world : ℕ → World) (hfuel : ∀ i, 33 ≤ (world i).fuel) {n : ℕ}
    (hn : n + 1 < 2 ^ 31) :
    ∃ ts v, ((asCoded world).after .boot ts).1.turn = n ∧
      ((asCoded world).after .boot ts).1.thread none = .busy (.ret v) := by
  obtain ⟨us, v, hturn, hended⟩ := Rpc.exists_turn_end
    (A := (asCoded world).assembly) (c := (asCoded world).assembly.start (boot .boot)) (i := n)
    (List.replicate ((asCoded world).assembly.clock rank (boot .boot) (n + 1)) everyThread).flatten
    (Nat.zero_le n) <| by
      refine (layered (asCoded world)).turn_of_rounds (atTurn_isSome world hfuel hn) ?_ (by simp)
      intro round h t
      rw [List.eq_of_mem_replicate h]
      exact mem_everyThread t
  refine ⟨us.map .inl, v, ?_⟩
  rw [after_fst, Machine.firstCalls_map_inl]
  exact ⟨hturn, hended⟩

/-- In every order, a turn ends with the memory of the nested calls. -/
theorem swapping_of_ended (world : ℕ → World) (hfuel : ∀ i, 33 ≤ (world i).fuel)
    {ts : List ThreadId} {v : Message}
    (hended : ((asCoded world).after .boot ts).1.thread none = .busy (.ret v)) {n : ℕ}
    (hturn : ((asCoded world).after .boot ts).1.turn = n) (hn : n + 1 < 2 ^ 31) :
    Swapping world (n + 1) ((asCoded world).after .boot ts).1.mem := by
  have hat := (synced_after (asCoded world) .boot ts).atTurn_succ_eq hended
  obtain ⟨m, hm, hswapping⟩ := exists_swapping world hfuel (n + 1) hn
  rw [hturn, hm] at hat
  rwa [← Option.some.inj hat]

/-- **The console as coded, in every order of the threads.** When the console ends its
`n`-th turn, the Dispatcher has printed, turn after turn, that variant `k` is active
after `k` swaps, the hash of the `k`-th variant of the ChaCha stream, its injection,
and `0xDEADBEEF`. The readings of the timestamp counter in the first turn determine
all of it. -/
theorem console_in_every_order (world : ℕ → World) (hfuel : ∀ i, 33 ≤ (world i).fuel)
    (ts : List ThreadId) {v : Message}
    (hended : ((asCoded world).after .boot ts).1.thread none = .busy (.ret v)) {n : ℕ}
    (hturn : ((asCoded world).after .boot ts).1.turn = n) (hn : n + 1 < 2 ^ 31) :
    ((asCoded world).after .boot ts).1.mem.console = expectedConsole world (n + 1) :=
  (swapping_of_ended world hfuel hended hturn hn).console

/-- An order that gets through the first turn. -/
theorem console_in_every_order_first :
    ∃ ts, ((asCoded fun _ => zeroWorld).after .boot ts).1.mem.console =
      expectedConsole (fun _ => zeroWorld) 1 := by
  obtain ⟨ts, v, hturn, hended⟩ :=
    exists_order_to_end (fun _ => zeroWorld) (fun _ => by decide) (show 0 + 1 < 2 ^ 31 by decide)
  exact ⟨ts, console_in_every_order (fun _ => zeroWorld) (fun _ => by decide) ts hended hturn
    (by decide)⟩

end Camkes

end HkSystem
