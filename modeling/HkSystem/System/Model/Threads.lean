import HkSystem.Common.Beside
import HkSystem.System.Model.Assembly
/-!
# The threads of the system

Each instance has a control thread besides those of its interfaces. The one of
`admin_inst` is the client of the assembly, the one of `timer_inst` goes through `run` of
`scheduler.c` for ever, and the others return at once: `run` of `generator.c`,
`dispatcher.c` and `verifier.c` does nothing, and for an instance without `control` none is
called. The Dispatcher has a thread for `hw_tick`, which waits for the Scheduler's
notification and posts a semaphore, since no callback is ever registered; nobody waits for
that.

None of them calls an interface. They see the memory of the assembly and write what is
here.
-/

namespace HkSystem

namespace Camkes

open Rpc (Config)

/-- The threads that serve no interface and call none. -/
inductive Other where
  /-- `run` of `scheduler.c`. -/
  | schedulerRun
  /-- `hw_tick__run` of the Dispatcher. -/
  | hwTickRun
  /-- The control thread of any other instance. -/
  | control (i : Instance)

/-- What they write. -/
structure Others where
  /-- Where the Scheduler is in its loop. -/
  loop : Scheduler.Loop
  /-- The notification of `link_scheduler_pulse` is signalled. -/
  pulse : Bool
  /-- `handoff_value` of the Dispatcher's end. -/
  handoffValue : Int32
  /-- The control threads that have returned. -/
  returned : Instance → Bool

/-- A thread moves, if it can. -/
def Others.move (quantumMs : UInt32) (o : Others) : Other → Option Others
  | .schedulerRun =>
    let loop := o.loop.step quantumMs
    -- `hw_tick_emit()` signals the notification
    some { o with loop := loop, pulse := o.pulse || decide (o.loop.ticks < loop.ticks) }
  | .hwTickRun =>
    if o.pulse then
      some { o with
        pulse := false
        handoffValue :=
          if o.handoffValue ≠ Int32.maxValue then o.handoffValue + 1 else o.handoffValue }
    else none
  | .control i =>
    if i = .adminInst ∨ i = .timerInst ∨ o.returned i then none
    else some { o with returned := Function.update o.returned i true }

/-- The other threads in any order, with the quantum that `run` reads. -/
def others (quantumMs : UInt32) : Machine Others Other Bool :=
  ⟨fun o t => ((o.move quantumMs t).getD o, (o.move quantumMs t).isSome)⟩

/-- Before any of them has moved. -/
def Others.boot : Others := ⟨Scheduler.boot.loop, false, 0, fun _ => false⟩

/-- A thread of the system. -/
abbrev ThreadId := Option Interface ⊕ Other

variable {ρ : Type}

/-- **All threads in any order**: those of the assembly, and the others beside them. -/
def Parts.system (parts : Parts ρ) :
    Machine (Config Interface Message (Memory ρ) × Others) ThreadId Bool :=
  parts.assembly.threads.beside fun c => others c.mem.quantumMs

/-- The system when all interfaces have been initialised. -/
def Parts.start (parts : Parts ρ) (own : ρ) : Config Interface Message (Memory ρ) × Others :=
  (parts.assembly.start (boot own), .boot)

end Camkes

end HkSystem
