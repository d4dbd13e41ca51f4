import HkSystem.Scheduler.Ticks
import HkSystem.System.Interleaving
/-!
# The timer in the system

The Scheduler's loop runs beside all the other threads, and its ticks go to the
Dispatcher's `hw_tick` thread as a notification. Nobody calls `set_quantum`, so whatever
the other components do the loop ticks once every 50000002 of its moves; and a tick may be
lost on its way to the Dispatcher, but none is made up (`timer_in_every_order`).
-/

namespace HkSystem

namespace Camkes

variable {ρ : Type}

/-! ## The quantum -/

theorem below_symbolicSleep {r : ℕ} (iterations : ℕ) {next : Handler ρ} (h : next.Below rank r) :
    (symbolicSleep iterations next).Below rank r := by
  induction iterations with
  | zero => exact h
  | succ iterations ih => exact .act fun _ => ih

/-- Nobody calls an interface of rank 4. -/
theorem below_assembly (parts : Parts ρ) : parts.assembly.Below rank 4 := by
  refine ⟨fun i => ?_, fun i p v => (layered parts i p v).mono ?_⟩
  · have hloop : (adminLoop parts.delays : Handler ρ).Below rank 4 :=
      .call (by decide) fun _ => below_symbolicSleep _ <| .call (by decide) fun _ =>
        below_symbolicSleep _ <| .ret _
    cases i with
    | zero => exact below_symbolicSleep _ hloop
    | succ i => exact hloop
  · cases p <;> decide

/-- **Nobody changes the quantum.** -/
theorem quantumMs_final (parts : Parts ρ) (own : ρ) (ts : List (Option Interface)) :
    (parts.assembly.threads.final (parts.assembly.start (boot own)) ts).mem.quantumMs =
      Scheduler.baseQuantumMs := by
  induction ts using List.reverseRecOn with
  | nil => rfl
  | append_singleton ts t ih =>
    have hevent : parts.assembly.threads.event
        (parts.assembly.threads.final (parts.assembly.start (boot own)) ts) t ∈
      parts.assembly.threads.history (parts.assembly.start (boot own)) (ts ++ [t]) :=
        Machine.event_mem_concat
    have hconfined := ((respects_assembly parts).of_mem mayWrite_refl hevent).confined
    rw [Machine.final_append, ← ih]
    by_contra hne
    -- only the thread of `set_quantum` could have, and it never gets a call
    obtain rfl := Sum.inl.inj (hconfined.scheduler hne)
    refine hne ?_
    have hpassed := (below_assembly parts).passed (p := .timerCtrl) le_rfl (boot own) ts
    rw [Rpc.final_of_passed hpassed]
    rfl

/-! ## The ticks -/

/-- Whether it is the Scheduler's loop that comes up. -/
def isSchedulerRun : ThreadId → Bool
  | .inr .schedulerRun => true
  | _ => false

/-- What the threads beside the assembly have come to, after so many moves of the
Scheduler's. -/
structure Pulsing (o : Others) (steps : ℕ) : Prop where
  /-- All periods have the same length. -/
  paced : ∃ read, (∀ q ∈ read, q = Scheduler.baseQuantumMs) ∧
    Scheduler.Paced o.loop.ticks o.loop.phase read steps
  /-- What has been posted, and what is on its way, was ticked. -/
  posted : 0 ≤ o.handoffValue.toInt ∧ o.handoffValue.toInt + o.pulse.toNat ≤ o.loop.ticks

theorem pulsing_boot : Pulsing .boot 0 :=
  ⟨⟨[], by simp, .start rfl⟩, by decide, by decide⟩

theorem ticks_step (quantumMs : UInt32) (l : Scheduler.Loop) :
    (l.step quantumMs).ticks = l.ticks ∨ (l.step quantumMs).ticks = l.ticks + 1 := by
  unfold Scheduler.Loop.step
  split
  · exact .inl rfl
  · split
    · exact .inl rfl
    · exact .inr rfl

theorem Pulsing.schedulerRun {o o' : Others} {steps : ℕ} (h : Pulsing o steps)
    (hmove : o.move Scheduler.baseQuantumMs .schedulerRun = some o') : Pulsing o' (steps + 1) := by
  obtain ⟨⟨read, hread, hpaced⟩, hnonneg, hposted⟩ := h
  obtain rfl := Option.some.inj hmove
  refine ⟨⟨_, ?_, hpaced.step Scheduler.baseQuantumMs⟩, hnonneg, ?_⟩
  · intro q hq
    rcases List.mem_append.1 hq with hq | hq
    · exact hread q hq
    · split at hq
      · exact List.mem_singleton.1 hq
      · cases hq
  · rcases ticks_step Scheduler.baseQuantumMs o.loop with hticks | hticks
    · simpa [hticks] using hposted
    -- a tick: at most one notification is on its way
    · have hpulse : ((0 : ℕ) : ℤ) ≤ o.pulse.toNat := Int.natCast_nonneg _
      simp only [hticks, Nat.lt_add_one, decide_true, Bool.or_true, Bool.toNat_true]
      push_cast
      omega

theorem Pulsing.hwTickRun {o o' : Others} {steps : ℕ} (h : Pulsing o steps) {quantumMs : UInt32}
    (hmove : o.move quantumMs .hwTickRun = some o') : Pulsing o' steps := by
  obtain ⟨hpaced, hnonneg, hposted⟩ := h
  simp only [Others.move] at hmove
  split at hmove
  next hpulse =>
    obtain rfl := Option.some.inj hmove
    rw [hpulse] at hposted
    refine ⟨hpaced, ?_⟩
    simp only [Bool.toNat_true, Nat.cast_one, Bool.toNat_false, Nat.cast_zero, add_zero] at hposted ⊢
    split
    next hne =>
      have hlt : o.handoffValue.toInt < 2 ^ 31 - 1 := by
        have hle := o.handoffValue.toInt_lt
        have hmax : o.handoffValue.toInt ≠ Int32.maxValue.toInt := fun heq =>
          hne (Int32.toInt_inj.1 heq)
        rw [Int32.toInt_maxValue] at hmax
        omega
      rw [Words.toInt_add_one hlt]
      omega
    · omega
  · cases hmove

/-- **One of them comes up.** -/
theorem Pulsing.step {o : Others} {steps : ℕ} (h : Pulsing o steps) (t : Other) :
    Pulsing ((others Scheduler.baseQuantumMs).step o t).1
      (steps + (isSchedulerRun (.inr t)).toNat) := by
  cases t with
  | schedulerRun => exact h.schedulerRun rfl
  | hwTickRun =>
    change Pulsing ((o.move _ .hwTickRun).getD o) steps
    rcases hmove : o.move Scheduler.baseQuantumMs .hwTickRun with _ | o'
    · exact h
    · exact h.hwTickRun hmove
  | control i =>
    change Pulsing ((o.move _ (.control i)).getD o) steps
    simp only [Others.move]
    split
    · exact h
    · exact ⟨h.paced, h.posted⟩

/-- **In every order of all threads.** -/
theorem pulsing_after (parts : Parts ρ) (own : ρ) (ts : List ThreadId) :
    Pulsing (parts.after own ts).2 (ts.countP isSchedulerRun) := by
  induction ts using List.reverseRecOn with
  | nil => exact pulsing_boot
  | append_singleton ts t ih =>
    have hafter : parts.after own (ts ++ [t]) = (parts.system.step (parts.after own ts) t).1 :=
      Machine.final_append
    rw [hafter, List.countP_append]
    cases t with
    | inl t => exact ih
    | inr t =>
      have hquantum : (parts.after own ts).1.mem.quantumMs = Scheduler.baseQuantumMs := by
        rw [after_fst]
        exact quantumMs_final ..
      have hstep : (parts.system.step (parts.after own ts) (.inr t)).1.2 =
          ((others Scheduler.baseQuantumMs).step (parts.after own ts).2 t).1 := by
        rw [← hquantum]
        rfl
      have hcount : [Sum.inr t].countP isSchedulerRun = (isSchedulerRun (.inr t)).toNat := by
        rw [List.countP_singleton]
        cases isSchedulerRun (.inr t) <;> rfl
      rw [hstep, hcount]
      exact ih.step t

theorem sum_periodSteps {read : List UInt32} (h : ∀ q ∈ read, q = Scheduler.baseQuantumMs) :
    (read.map Scheduler.periodSteps).sum = read.length * 50000002 := by
  rw [List.eq_replicate_of_mem h, List.map_replicate, List.sum_replicate, List.length_replicate]
  rfl

/-- The loop ticks once every 50000002 moves. -/
theorem Pulsing.ticks_eq {o : Others} {steps : ℕ} (h : Pulsing o steps) :
    o.loop.ticks = steps / 50000002 := by
  obtain ⟨read, hread, hpaced⟩ := h.paced
  generalize o.loop.phase = phase at hpaced
  cases hpaced with
  | start hticks =>
    rw [sum_periodSteps hread, hticks]
    omega
  | @counting before q i hticks hle =>
    obtain rfl : q = Scheduler.baseQuantumMs := hread q (by simp)
    have hi : i.toNat ≤ 50000000 := by
      have hdelay := UInt64.le_iff_toNat_le.1 hle
      rwa [Scheduler.toNat_delayOf] at hdelay
    rw [sum_periodSteps fun q hq => hread q (List.mem_append_left _ hq), hticks]
    omega

/-- **The timer, in every order of all threads.** Whatever the synthesis and the code in the
arena do, the quantum stays at 500 ms, the Scheduler's loop has ticked once for every
50000002 of its moves, and the Dispatcher's semaphore, with a notification that is still on
its way, counts no more than these ticks. -/
theorem timer_in_every_order (parts : Parts ρ) (own : ρ) (ts : List ThreadId) :
    (parts.after own ts).1.mem.quantumMs = 500 ∧
      (parts.after own ts).2.loop.ticks = ts.countP isSchedulerRun / 50000002 ∧
      (parts.after own ts).2.handoffValue.toInt + (parts.after own ts).2.pulse.toNat ≤
        (parts.after own ts).2.loop.ticks := by
  have hpulsing := pulsing_after parts own ts
  refine ⟨?_, hpulsing.ticks_eq, hpulsing.posted.2⟩
  rw [after_fst]
  exact quantumMs_final ..

end Camkes

end HkSystem
