import HkSystem.Dispatcher.Injection
/-!
# The transaction cycle — fail-closed execution

A cycle asks for synthesis, injects, and then signals the Worker. The four
lemmas of the first section say what a cycle does in terms of `Attested` and
`Stuck`, both read off the dataports the synthesis leaves.

Fail-closed execution asks that the Worker is signalled only in cycles whose
own variant was verified and injected. The Dispatcher signals it in every
cycle that gets past the injection, whatever the injection decided; so a run
is fail-closed exactly when each of its cycles is attested or stuck.
-/

namespace HkSystem

namespace Dispatcher

variable {s : State} {shared : Shared}

/-! ## What a cycle does -/

/-- Synthesis does not return. -/
theorem cycle_of_lost (env : Env)
    (hgen : env.requestGeneration 0x1000 (s.totalMutationsCount + 1) 5 s.shared = none) :
    adminApiForceMutation env s = ({ s with halted := true }, ⟨none, none, none, none⟩) := by
  simp only [adminApiForceMutation, hgen]

/-- **An attested cycle** injects, and the Worker jumps into what was copied. -/
theorem cycle_of_attested (env : Env)
    (hgen : env.requestGeneration 0x1000 (s.totalMutationsCount + 1) 5 s.shared = some shared)
    (hatt : Attested env.verifySignature shared (s.totalMutationsCount + 1)) :
    ∃ arena, Region.memcpy s.workerArena shared.guestRam 4096 = some arena ∧
      adminApiForceMutation env s =
        ({ s with
            shared := shared
            workerArena := arena
            currentActiveVariant := s.totalMutationsCount + 1
            totalMutationsCount := s.totalMutationsCount + 1
            halted := (env.jitTask arena).isNone },
          ⟨some (.injected (s.totalMutationsCount + 1)), some (1, 0), some arena,
            (env.jitTask arena).map (·.toInt32)⟩) := by
  obtain ⟨arena, hcopy, hinj⟩ := injection_of_attested (s := { s with shared := shared }) hatt
  refine ⟨arena, hcopy, ?_⟩
  simp [adminApiForceMutation, hgen, hinj, State.install, ctrlApiCmd]

/-- A stuck cycle changes only the dataports, and signals nobody. -/
theorem cycle_of_stuck (env : Env)
    (hgen : env.requestGeneration 0x1000 (s.totalMutationsCount + 1) 5 s.shared = some shared)
    (hstuck : Stuck env.verifySignature shared (s.totalMutationsCount + 1)) :
    adminApiForceMutation env s =
      ({ s with shared := shared, halted := true }, ⟨some .stuck, none, none, none⟩) := by
  have hinj := injection_of_stuck (s := { s with shared := shared }) hstuck
  simp [adminApiForceMutation, hgen, hinj]

/-- **A refused cycle** changes only the dataports, and the Worker jumps into
the arena all the same. -/
theorem cycle_of_refused (env : Env)
    (hgen : env.requestGeneration 0x1000 (s.totalMutationsCount + 1) 5 s.shared = some shared)
    (hatt : ¬ Attested env.verifySignature shared (s.totalMutationsCount + 1))
    (hstuck : ¬ Stuck env.verifySignature shared (s.totalMutationsCount + 1)) :
    ∃ outcome, outcome ≠ .stuck ∧ (∀ id, outcome ≠ .injected id) ∧
      adminApiForceMutation env s =
        ({ s with shared := shared, halted := (env.jitTask s.workerArena).isNone },
          ⟨some outcome, some (1, 0), some s.workerArena,
            (env.jitTask s.workerArena).map (·.toInt32)⟩) := by
  obtain ⟨outcome, hinj, hne, hiff⟩ :=
    injection_of_not_attested (s := { s with shared := shared }) hatt
  have hout : outcome ≠ .stuck := mt hiff.1 hstuck
  refine ⟨outcome, hout, hne, ?_⟩
  simp [adminApiForceMutation, hgen, hinj, hout, ctrlApiCmd]

/-- The Worker jumps exactly when it is signalled. -/
theorem jump_iff_command (env : Env) (s : State) :
    (adminApiForceMutation env s).2.jump.isSome ↔
      (adminApiForceMutation env s).2.command = some (1, 0) := by
  rcases hgen : env.requestGeneration 0x1000 (s.totalMutationsCount + 1) 5 s.shared with _ | shared
  · simp [cycle_of_lost env hgen]
  -- the cycles that return: attested, stuck or refused
  · by_cases hatt : Attested env.verifySignature shared (s.totalMutationsCount + 1)
    · obtain ⟨arena, -, heq⟩ := cycle_of_attested env hgen hatt
      simp [heq]
    · by_cases hstuck : Stuck env.verifySignature shared (s.totalMutationsCount + 1)
      · simp [cycle_of_stuck env hgen hstuck]
      · obtain ⟨outcome, -, -, heq⟩ := cycle_of_refused env hgen hatt hstuck
        simp [heq]

/-- If the Dispatcher goes on serving, the code in the arena has returned. -/
theorem jitTask_isSome_of_serving {env : Env}
    (h : (adminApiForceMutation env s).1.halted = false) :
    (env.jitTask (adminApiForceMutation env s).1.workerArena).isSome := by
  rcases hgen : env.requestGeneration 0x1000 (s.totalMutationsCount + 1) 5 s.shared with _ | shared
  · simp [cycle_of_lost env hgen] at h
  · by_cases hatt : Attested env.verifySignature shared (s.totalMutationsCount + 1)
    · obtain ⟨arena, -, heq⟩ := cycle_of_attested env hgen hatt
      simpa [heq, Option.isSome_iff_ne_none] using h
    · by_cases hstuck : Stuck env.verifySignature shared (s.totalMutationsCount + 1)
      · simp [cycle_of_stuck env hgen hstuck] at h
      · obtain ⟨outcome, -, -, heq⟩ := cycle_of_refused env hgen hatt hstuck
        simpa [heq, Option.isSome_iff_ne_none] using h

/-! ## Cycles of a run -/

variable {e : Event State Call Answer} {calls : List Call}

/-- The cycle sent the Worker the execute command. -/
def Executes (e : Event State Call Answer) : Prop :=
  ∃ report, e.answer = .cycle report ∧ report.command = some (1, 0)

/-- The cycle made the Worker jump into the arena. -/
def Jumps (e : Event State Call Answer) : Prop :=
  ∃ report arena, e.answer = .cycle report ∧ report.jump = some arena

/-- The cycle verified and injected the variant it asked for. -/
def Injects (e : Event State Call Answer) : Prop :=
  ∃ report, e.answer = .cycle report ∧
    report.outcome = some (.injected (e.pre.totalMutationsCount + 1))

/-- The cycle ended in an id mismatch or with the variant blocked. -/
def Refuses (e : Event State Call Answer) : Prop :=
  ∃ report, e.answer = .cycle report ∧
    ((∃ id, report.outcome = some (.blocked id)) ∨
      ∃ expected found, report.outcome = some (.mismatch expected found))

/-- A served request for a mutation is a cycle. -/
theorem event_of_served (h : e ∈ monitor.history s calls) {supply : Option Supply}
    {verifySignature : UInt32 → UInt32 → Option Int32} {jitTask : Region 4096 → Option UInt32}
    (hcall : e.call = .forceMutation supply verifySignature jitTask)
    (hhalt : e.pre.halted = false) :
    e.post = (adminApiForceMutation (Supply.env supply verifySignature jitTask) e.pre).1 ∧
      e.answer =
        .cycle (adminApiForceMutation (Supply.env supply verifySignature jitTask) e.pre).2 := by
  obtain ⟨hans, hpost⟩ := Machine.step_of_mem h
  rw [hpost, hans, hcall]
  simp [monitor, step, hhalt]

/-- A call either runs a cycle or leaves the state alone. -/
theorem event_cases (h : e ∈ monitor.history s calls) :
    (e.post = e.pre ∧ ∀ report, e.answer ≠ .cycle report) ∨
      ∃ supply verifySignature jitTask,
        e.call = .forceMutation supply verifySignature jitTask ∧ e.pre.halted = false ∧
        e.post = (adminApiForceMutation (Supply.env supply verifySignature jitTask) e.pre).1 ∧
        e.answer = .cycle
          (adminApiForceMutation (Supply.env supply verifySignature jitTask) e.pre).2 := by
  obtain ⟨hans, hpost⟩ := Machine.step_of_mem h
  rcases hhalt : e.pre.halted with _ | _
  · rcases hcall : e.call with ⟨supply, verifySignature, jitTask⟩ | _
    · exact Or.inr ⟨supply, verifySignature, jitTask, rfl, rfl, event_of_served h hcall hhalt⟩
    · refine Or.inl ?_
      rw [hpost, hans, hcall]
      simp [monitor, step, hhalt]
  · refine Or.inl ?_
    rw [hpost, hans]
    simp [monitor, step, hhalt]

/-! ## Fail-closed execution -/

/-- **Fail-closed execution** of a history. -/
structure FailClosed (history : List (Event State Call Answer)) : Prop where
  /-- The execute command goes out only in a cycle that verified and injected
  its own variant. -/
  verified : ∀ e ∈ history, Executes e → Injects e
  /-- The Worker jumps only into an arena that some attestation has filled. -/
  filled : ∀ before e after, history = before ++ e :: after → Jumps e →
    ∃ e' ∈ before ++ [e], Injects e'
  /-- A cycle that refused its variant executes nothing. -/
  refused : ∀ e ∈ history, Refuses e → ¬ Executes e

/-- What the call finds in the dataports once synthesis has returned is
attested for the id it asks for, or the Dispatcher does not get past
checking it. -/
def Sound (e : Event State Call Answer) : Prop :=
  ∀ supply verifySignature jitTask, e.call = .forceMutation (some supply) verifySignature jitTask →
    e.pre.halted = false →
      Attested verifySignature (supply.apply e.pre.shared) (e.pre.totalMutationsCount + 1) ∨
        Stuck verifySignature (supply.apply e.pre.shared) (e.pre.totalMutationsCount + 1)

/-- In a sound cycle, signalling the Worker and injecting are one. -/
theorem injects_of_executes (h : e ∈ monitor.history s calls) (hsound : Sound e)
    (hexec : Executes e) : Injects e := by
  obtain ⟨report, hans, hcmd⟩ := hexec
  rcases event_cases h with ⟨-, hidle⟩ | ⟨supply, verifySignature, jitTask, hcall, hhalt, -, hcyc⟩
  · exact absurd hans (hidle report)
  · rw [hcyc] at hans
    obtain rfl := Answer.cycle.inj hans
    rcases supply with _ | supply
    -- neither a lost synthesis nor a stuck check gets as far as the command
    · rw [cycle_of_lost _ rfl] at hcmd
      cases hcmd
    · rcases hsound supply verifySignature jitTask hcall hhalt with hatt | hstuck
      · obtain ⟨arena, -, heq⟩ := cycle_of_attested
          (Supply.env (some supply) verifySignature jitTask) rfl hatt
        exact ⟨_, hcyc, by rw [heq]⟩
      · rw [cycle_of_stuck _ rfl hstuck] at hcmd
        cases hcmd

/-- The Worker jumps only when it is told to. -/
theorem executes_of_jumps (h : e ∈ monitor.history s calls) (hjump : Jumps e) : Executes e := by
  obtain ⟨report, arena, hans, hjump⟩ := hjump
  rcases event_cases h with ⟨-, hidle⟩ | ⟨supply, verifySignature, jitTask, -, -, -, hcyc⟩
  · exact absurd hans (hidle report)
  · rw [hcyc] at hans
    obtain rfl := Answer.cycle.inj hans
    exact ⟨_, hcyc, (jump_iff_command _ _).1 (by rw [hjump]; rfl)⟩

/-- A cycle that injected did not refuse. -/
theorem not_refuses_of_injects (hinj : Injects e) : ¬ Refuses e := by
  obtain ⟨report, hans, hout⟩ := hinj
  rintro ⟨report', hans', hor⟩
  rw [hans] at hans'
  obtain rfl := Answer.cycle.inj hans'
  rw [hout] at hor
  rcases hor with ⟨id, h⟩ | ⟨expected, found, h⟩ <;> cases h

/-- **One refused cycle breaks it**: the Worker is signalled all the same. -/
theorem not_failClosed_of_refused (h : e ∈ monitor.history s calls) {supply : Supply}
    {verifySignature : UInt32 → UInt32 → Option Int32} {jitTask : Region 4096 → Option UInt32}
    (hcall : e.call = .forceMutation (some supply) verifySignature jitTask)
    (hhalt : e.pre.halted = false)
    (hatt : ¬ Attested verifySignature (supply.apply e.pre.shared) (e.pre.totalMutationsCount + 1))
    (hstuck : ¬ Stuck verifySignature (supply.apply e.pre.shared)
      (e.pre.totalMutationsCount + 1)) :
    ¬ FailClosed (monitor.history s calls) := by
  intro hclosed
  obtain ⟨outcome, -, hne, heq⟩ := cycle_of_refused
    (Supply.env (some supply) verifySignature jitTask) rfl hatt hstuck
  obtain ⟨-, hans⟩ := event_of_served h hcall hhalt
  rw [heq] at hans
  obtain ⟨report, hans', hout⟩ := hclosed.verified e h ⟨_, hans, rfl⟩
  rw [hans] at hans'
  obtain rfl := Answer.cycle.inj hans'
  exact hne _ (Option.some.inj hout)

/-- **A run is fail-closed exactly when all its cycles are sound**: in each
cycle that is served, the metadata left behind carries the id asked for and
a signature the fTPM accepts for the hash of the bytes left behind, or the
check itself does not end. -/
theorem failClosed_iff (calls : List Call) :
    FailClosed (monitor.history boot calls) ↔
      ∀ e ∈ monitor.history boot calls, Sound e := by
  constructor
  -- a cycle that is not sound is refused, and the Worker signalled
  · intro hclosed e he supply verifySignature jitTask hcall hhalt
    by_contra hcond
    obtain ⟨hatt, hstuck⟩ := not_or.1 hcond
    exact not_failClosed_of_refused he hcall hhalt hatt hstuck hclosed
  · intro hsound
    refine ⟨fun e he => injects_of_executes he (hsound e he), ?_, ?_⟩
    -- the injection that fills the arena is the cycle's own
    · intro before e after hsplit hjump
      have he : e ∈ monitor.history boot calls := Machine.mem_of_split hsplit
      exact ⟨e, by simp, injects_of_executes he (hsound e he) (executes_of_jumps he hjump)⟩
    · intro e he hrefuse hexec
      exact not_refuses_of_injects (injects_of_executes he (hsound e he) hexec) hrefuse

/-- A first cycle in which nothing is registered ends in an id mismatch, and
the Worker is told to execute the zeroed arena. -/
theorem not_failClosed_unregistered :
    ¬ FailClosed (monitor.history boot
      [.forceMutation (some ⟨.zero, .zero, []⟩)
        (Tpm.cryptoApiVerifySignature ⟨.zero, 0, 0, Fips180.initialHash⟩ Tpm.tpmSecretKey)
        fun _ => some 0]) := by
  have hvid : (0 : UInt32).toInt32 ≠ (0 : Int32) + 1 := by decide
  exact not_failClosed_of_refused (e := monitor.event boot _) (List.mem_cons_self ..) rfl rfl
    (fun hatt => hvid hatt.vid) (fun hstuck => hvid hstuck.vid)

end Dispatcher

end HkSystem
