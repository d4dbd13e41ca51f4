import HkSystem.Common.Machine
/-!
# The timer

`scheduler.c`. The component has two threads: one serves `set_quantum`, the other
goes through `run`, which reads the quantum, counts up to the delay it makes of
it and emits a tick. They share `current_quantum_ms`, and either may move next.
-/

namespace HkSystem

namespace Scheduler

/-- `current_quantum_ms` as it is initialised. -/
def baseQuantumMs : UInt32 := 500

/-- `ctrl_set_quantum`: the new `current_quantum_ms`. -/
def ctrlSetQuantum (milliseconds : Int32) : UInt32 := milliseconds.toUInt32

/-- `(uint64_t)current_quantum_ms * 100000ULL`. -/
def delayOf (currentQuantumMs : UInt32) : UInt64 := currentQuantumMs.toUInt64 * 100000

/-- Where `run` is in its loop. -/
inductive Phase where
  /-- About to read the quantum. -/
  | start
  /-- In the inner loop. -/
  | counting (delay i : UInt64)
  deriving DecidableEq

/-- The thread of `run`, and the ticks it has emitted. -/
structure Loop where
  phase : Phase
  ticks : ℕ

/-- The next step of `run`. -/
def Loop.step (currentQuantumMs : UInt32) (l : Loop) : Loop :=
  match l.phase with
  | .start => { l with phase := .counting (delayOf currentQuantumMs) 0 }
  | .counting delay i =>
    if i < delay then { l with phase := .counting delay (i + 1) }
    -- the loop is over: `hw_tick_emit()`
    else ⟨.start, l.ticks + 1⟩

/-- The component: the variable its threads share, and the one that loops. -/
structure Timer where
  currentQuantumMs : UInt32
  loop : Loop

/-- What happens next. -/
inductive Act where
  | run
  | setQuantum (milliseconds : Int32)

/-- The two threads in any order. -/
def timer : Machine Timer Act Unit where
  step t
    | .run => ({ t with loop := t.loop.step t.currentQuantumMs }, ())
    | .setQuantum milliseconds => ({ t with currentQuantumMs := ctrlSetQuantum milliseconds }, ())

/-- The component as it starts. -/
def boot : Timer := ⟨baseQuantumMs, ⟨.start, 0⟩⟩

end Scheduler

end HkSystem
