import HkSystem.Scheduler.Model.Timer
import Mathlib.Algebra.BigOperators.Group.List.Basic
import Mathlib.Algebra.Order.Ring.Nat
/-!
# The timer's ticks

`run` reads the quantum once a period and counts to a delay it keeps; `set_quantum`
may be served at any time in between. So a new quantum waits for the next period,
and the steps of `run` are those of the periods it has begun (`ticks_paced`): the
ticks so far are determined by the quanta it has read and by how often it moved,
whatever the order.
-/

namespace HkSystem

namespace Scheduler

variable {t : Timer} {read : List UInt32} {steps : ℕ}

/-! ## What a run of the two threads does -/

/-- The steps of `run` from reading a quantum to the tick. -/
def periodSteps (quantumMs : UInt32) : ℕ := 100000 * quantumMs.toNat + 2

/-- The quantum in force after a sequence of acts. -/
def quantumAfter (quantumMs : UInt32) (acts : List Act) : UInt32 :=
  acts.foldl (fun quantumMs act =>
    match act with
    | .run => quantumMs
    | .setQuantum milliseconds => ctrlSetQuantum milliseconds) quantumMs

/-- How often `run` moved. -/
def runSteps (acts : List Act) : ℕ :=
  acts.countP fun act =>
    match act with
    | .run => true
    | .setQuantum _ => false

/-- The quantum `run` reads in an act, if it reads one. -/
def quantumRead? (e : Event Timer Act Unit) : Option UInt32 :=
  match e.call, e.pre.loop.phase with
  | .run, .start => some e.pre.currentQuantumMs
  | _, _ => none

theorem currentQuantumMs_final (t : Timer) (acts : List Act) :
    (timer.final t acts).currentQuantumMs = quantumAfter t.currentQuantumMs acts := by
  induction acts generalizing t with
  | nil => rfl
  | cons act acts ih =>
    rw [Machine.final_cons, ih]
    cases act <;> rfl

/-! ## Periods -/

/-- The product does not wrap around. -/
theorem toNat_delayOf (quantumMs : UInt32) :
    (delayOf quantumMs).toNat = 100000 * quantumMs.toNat := by
  have hlt := quantumMs.toNat_lt
  rw [delayOf, UInt64.toNat_mul, UInt32.toNat_toUInt64]
  change quantumMs.toNat * 100000 % 2 ^ 64 = _
  omega

/-- **Where `run` is**, by the quanta it has read and its steps so far. -/
inductive Paced (ticks : ℕ) : Phase → List UInt32 → ℕ → Prop
  /-- All periods begun are over. -/
  | start {read : List UInt32} (hticks : read.length = ticks) :
      Paced ticks .start read (read.map periodSteps).sum
  /-- The last one has come to `i`. -/
  | counting {before : List UInt32} {quantumMs : UInt32} {i : UInt64}
      (hticks : before.length = ticks) (hle : i ≤ delayOf quantumMs) :
      Paced ticks (.counting (delayOf quantumMs) i) (before ++ [quantumMs])
        ((before.map periodSteps).sum + (1 + i.toNat))

theorem Loop.step_of_lt {delay i : UInt64} {ticks : ℕ} (quantumMs : UInt32) (h : i < delay) :
    Loop.step quantumMs ⟨.counting delay i, ticks⟩ = ⟨.counting delay (i + 1), ticks⟩ := if_pos h

theorem Loop.step_of_not_lt {delay i : UInt64} {ticks : ℕ} (quantumMs : UInt32) (h : ¬ i < delay) :
    Loop.step quantumMs ⟨.counting delay i, ticks⟩ = ⟨.start, ticks + 1⟩ := if_neg h

/-- **A step of `run`.** -/
theorem Paced.step {l : Loop} (h : Paced l.ticks l.phase read steps) (quantumMs : UInt32) :
    Paced (l.step quantumMs).ticks (l.step quantumMs).phase
      (read ++ if l.phase = .start then [quantumMs] else []) (steps + 1) := by
  obtain ⟨phase, ticks⟩ := l
  cases h with
  | start hticks => exact .counting hticks (UInt64.zero_le)
  | @counting before q i hticks hle =>
    have hphase : Phase.counting (delayOf q) i ≠ .start := by simp
    rw [if_neg hphase, List.append_nil]
    by_cases hlt : i < delayOf q
    · have hnat : (i + 1).toNat = i.toNat + 1 := by
        have hi : i.toNat < (delayOf q).toNat := hlt
        have hq := (delayOf q).toNat_lt
        rw [UInt64.toNat_add]
        change (i.toNat + 1) % 2 ^ 64 = _
        omega
      have hnext : i + 1 ≤ delayOf q := by
        rw [UInt64.le_iff_toNat_le, hnat]
        exact hlt
      have hcount : Paced ticks (.counting (delayOf q) (i + 1)) (before ++ [q])
          ((before.map periodSteps).sum + (1 + (i + 1).toNat)) := .counting hticks hnext
      rw [Loop.step_of_lt quantumMs hlt]
      rwa [hnat] at hcount
    -- the count is over: the tick, and the period is complete
    · have hi : i.toNat = 100000 * q.toNat := by
        rw [← toNat_delayOf, UInt64.le_antisymm hle (UInt64.not_lt.1 hlt)]
      have hsum : ((before ++ [q]).map periodSteps).sum =
          (before.map periodSteps).sum + (1 + i.toNat) + 1 := by
        rw [List.map_append, List.sum_append, List.map_singleton, List.sum_singleton, periodSteps, hi]
        omega
      rw [Loop.step_of_not_lt quantumMs hlt, ← hsum]
      exact .start (by rw [List.length_append, hticks]; rfl)

/-- **In every order of the two threads.** -/
theorem paced_final (acts : List Act) :
    Paced (timer.final boot acts).loop.ticks (timer.final boot acts).loop.phase
      ((timer.history boot acts).filterMap quantumRead?) (runSteps acts) := by
  induction acts using List.reverseRecOn with
  | nil => exact .start rfl
  | append_singleton acts act ih =>
    rw [Machine.final_append, Machine.history_append, List.filterMap_append, runSteps,
      List.countP_append]
    cases act with
    | run =>
      have hnext := ih.step (timer.final boot acts).currentQuantumMs
      have hread : (timer.history (timer.final boot acts) [.run]).filterMap quantumRead? =
          if (timer.final boot acts).loop.phase = .start
          then [(timer.final boot acts).currentQuantumMs] else [] := by
        cases hphase : (timer.final boot acts).loop.phase <;>
          simp [Machine.event, quantumRead?, hphase]
      rw [hread]
      exact hnext
    | setQuantum milliseconds =>
      have hread : (timer.history (timer.final boot acts) [.setQuantum milliseconds]).filterMap
          quantumRead? = [] := by
        simp [Machine.event, quantumRead?]
      rw [hread, List.append_nil]
      exact ih

/-- **The timer keeps pace with the quanta it reads**, in every order of `run` and
`set_quantum`: each tick came after `100000 * q + 2` steps of `run`, where `q` was
the quantum in force when its period began; one set during the period waits for the
next. -/
theorem ticks_paced (acts : List Act) :
    Paced (timer.final boot acts).loop.ticks (timer.final boot acts).loop.phase
        ((timer.history boot acts).filterMap quantumRead?) (runSteps acts) ∧
      ∀ e ∈ timer.history boot acts, ∀ q, quantumRead? e = some q →
        ∃ before, before ++ [.run] <+: acts ∧ e.pre = timer.final boot before ∧
          q = quantumAfter baseQuantumMs before := by
  refine ⟨paced_final acts, fun e he q hq => ?_⟩
  obtain ⟨before, after, hsplit⟩ := List.append_of_mem he
  obtain ⟨xs, ys, rfl, -, hpre⟩ := Machine.history_split hsplit
  have hread : e.call = .run ∧ q = e.pre.currentQuantumMs := by
    unfold quantumRead? at hq
    split at hq
    next hcall _ => exact ⟨hcall, (Option.some.inj hq).symm⟩
    next => cases hq
  obtain ⟨hcall, rfl⟩ := hread
  refine ⟨xs, ⟨ys, ?_⟩, hpre, ?_⟩
  · rw [hcall]
    simp
  · rw [hpre, currentQuantumMs_final]
    rfl

/-- A quantum of 0 gives a tick after two steps; one of -1, set in between, is read after
the tick, as `2 ^ 32 - 1`. -/
theorem ticks_paced_negative :
    Paced 1 (.counting (delayOf 0xFFFFFFFF) 0) [0, 0xFFFFFFFF] 3 :=
  (ticks_paced [.setQuantum 0, .run, .setQuantum (-1), .run, .run]).1

end Scheduler

end HkSystem
