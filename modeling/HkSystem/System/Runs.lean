import HkSystem.System.EndToEnd
/-!
# Runs of the system

The system as coded is a run of the monitor with particular supplies: in each
transaction the Generator leaves the variant it drew and has it registered once
(`system_refines_monitor`). What is proved of the monitor for any supply thus
holds of the system. And the system does more than the monitor promises: from
a state that serves, transaction after transaction swaps in its variant and runs
it (`runs_swap`).
-/

namespace HkSystem

open Generator (Csprng Draw)

/-! ## The system is the monitor -/

/-- What the Generator supplies when it has drawn a byte string. -/
def supplyOf (shared : Shared) (variantId : Int32) (bytes : List UInt8) : Dispatcher.Supply :=
  ⟨shared.guestRam.overwrite bytes, shared.genBuf.overwrite bytes, [metadataOf variantId bytes]⟩

theorem apply_supplyOf (shared : Shared) (variantId : Int32) (bytes : List UInt8) :
    (supplyOf shared variantId bytes).apply shared =
      (shared.withPayload bytes).commit (metadataOf variantId bytes) := rfl

/-- A cycle depends on the one synthesis it asks for. -/
theorem adminApiForceMutation_congr {env env' : Dispatcher.Env} {s : Dispatcher.State}
    (hgen : env.requestGeneration 0x1000 (s.totalMutationsCount + 1) 5 s.shared =
      env'.requestGeneration 0x1000 (s.totalMutationsCount + 1) 5 s.shared)
    (hverify : env.verifySignature = env'.verifySignature) (hjit : env.jitTask = env'.jitTask) :
    Dispatcher.adminApiForceMutation env s = Dispatcher.adminApiForceMutation env' s := by
  unfold Dispatcher.adminApiForceMutation
  simp only [hgen, hverify, hjit]

theorem step_of_served {s : System} (w : World) (hserving : s.monitor.halted = false) :
    System.step s w =
      (⟨(Dispatcher.adminApiForceMutation (w.env s.csprng) s.monitor).1,
        ((w.requestGeneration s.csprng 0x1000 (s.monitor.totalMutationsCount + 1) 5
          s.monitor.shared).map Prod.fst).getD s.csprng⟩,
        .cycle (Dispatcher.adminApiForceMutation (w.env s.csprng) s.monitor).2) := by
  rw [System.step, if_neg (by rw [hserving]; decide)]

/-- **A transaction of the system is a cycle of the monitor.** -/
theorem exists_call (w : World) {s : System} (hindex : s.csprng.chachaIndex ≤ 16) :
    ∃ call, (System.step s w).1.csprng.chachaIndex ≤ 16 ∧
      (System.step s w).1.monitor = (Dispatcher.step s.monitor call).1 ∧
      (System.step s w).2 = (Dispatcher.step s.monitor call).2 := by
  obtain ⟨d, c', -, hindex', hgen⟩ := requestGeneration_eq w hindex 0x1000
    (s.monitor.totalMutationsCount + 1) 5 s.monitor.shared
  have hcycle : Dispatcher.adminApiForceMutation (w.env s.csprng) s.monitor =
      Dispatcher.adminApiForceMutation (Dispatcher.Supply.env
        (some (supplyOf s.monitor.shared (s.monitor.totalMutationsCount + 1) d.encode))
        (w.env s.csprng).verifySignature (w.env s.csprng).jitTask) s.monitor := by
    refine adminApiForceMutation_congr ?_ rfl rfl
    change (w.requestGeneration s.csprng _ _ _ _).map Prod.snd = some _
    rw [hgen, Option.map_some]
    exact congrArg some (apply_supplyOf ..).symm
  refine ⟨.forceMutation
    (some (supplyOf s.monitor.shared (s.monitor.totalMutationsCount + 1) d.encode))
    (w.env s.csprng).verifySignature (w.env s.csprng).jitTask, ?_⟩
  cases hserving : s.monitor.halted with
  | true =>
    rw [System.step, if_pos hserving, Dispatcher.step, if_pos hserving]
    exact ⟨hindex, rfl, rfl⟩
  | false =>
    rw [step_of_served w hserving, Dispatcher.step, if_neg (by rw [hserving]; decide), hcycle,
      hgen, Option.map_some, Option.getD_some]
    exact ⟨hindex', rfl, rfl⟩

/-- **The system refines the monitor**: whatever it finds outside, its answers are
those of the monitor to some calls, and the monitor ends in the same state. -/
theorem system_refines_monitor {s : System} (hindex : s.csprng.chachaIndex ≤ 16)
    (worlds : List World) :
    ∃ calls, (system.final s worlds).monitor = Dispatcher.monitor.final s.monitor calls ∧
      (system.history s worlds).map (·.answer) =
        (Dispatcher.monitor.history s.monitor calls).map (·.answer) := by
  obtain ⟨calls, ⟨hfinal, -⟩, hanswers⟩ := Machine.exists_simulation (M := system)
    (N := Dispatcher.monitor) (R := fun s t => s.monitor = t ∧ s.csprng.chachaIndex ≤ 16)
    (fun s t w hst => by
      obtain ⟨rfl, hindex⟩ := hst
      obtain ⟨call, hindex', hmonitor, hans⟩ := exists_call w hindex
      exact ⟨call, ⟨hmonitor, hindex'⟩, hans⟩) worlds ⟨rfl, hindex⟩
  exact ⟨calls, hfinal, hanswers⟩

/-! ## Every transaction swaps -/

/-- What a transaction needs to succeed, and leaves behind if `k` more may come. -/
structure Ready (k : ℕ) (s : System) : Prop where
  serving : s.monitor.halted = false
  index : s.csprng.chachaIndex ≤ 16
  room : s.monitor.totalMutationsCount.toInt + k < 2 ^ 31

/-- An answered transaction that swapped. -/
def Swaps (e : Event System World Dispatcher.Answer) : Prop :=
  ∃ payload report, e.answer = .cycle report ∧
    Swapped e.pre.monitor payload (e.post.monitor, report)

theorem step_swaps {k : ℕ} {s : System} (h : Ready (k + 1) s) {w : World} (hfuel : 33 ≤ w.fuel) :
    Swaps (system.event s w) ∧ Ready k (system.step s w).1 ∧
      (system.step s w).1.monitor.totalMutationsCount.toInt =
        s.monitor.totalMutationsCount.toInt + 1 := by
  obtain ⟨hserving, hindex, hroom⟩ := h
  obtain ⟨d, c', hdraw, hindex', hgen⟩ := requestGeneration_eq w hindex 0x1000
    (s.monitor.totalMutationsCount + 1) 5 s.monitor.shared
  obtain ⟨hswap, -⟩ := swapped_of_registered w s.monitor hdraw hgen (by omega) hfuel
  have hstep : system.step s w =
      (⟨(Dispatcher.adminApiForceMutation (w.env s.csprng) s.monitor).1, c'⟩,
        .cycle (Dispatcher.adminApiForceMutation (w.env s.csprng) s.monitor).2) := by
    change System.step s w = _
    rw [step_of_served w hserving, hgen, Option.map_some, Option.getD_some]
  -- one more transaction counted, one fewer to come
  have htotal := hswap.total
  rw [Machine.event, hstep]
  refine ⟨⟨d.encode, _, rfl, hswap⟩, ⟨hswap.serving, hindex', ?_⟩, htotal⟩
  change (Dispatcher.adminApiForceMutation (w.env s.csprng) s.monitor).1.totalMutationsCount.toInt
    + k < 2 ^ 31
  omega

/-- **Every transaction of a run swaps.** From a state that serves, with room in the
counter for the whole run, each transaction injects the next variant and gets
`0xDEADBEEF` back, and they are all counted. -/
theorem runs_swap (worlds : List World) (hfuel : ∀ w ∈ worlds, 33 ≤ w.fuel) :
    ∀ {s : System}, Ready worlds.length s →
      (∀ e ∈ system.history s worlds, Swaps e) ∧
        (system.final s worlds).monitor.totalMutationsCount.toInt =
          s.monitor.totalMutationsCount.toInt + worlds.length := by
  induction worlds with
  | nil =>
    intro s _
    simp
  | cons w worlds ih =>
    intro s h
    obtain ⟨hw, hworlds⟩ := List.forall_mem_cons.1 hfuel
    obtain ⟨hswap, hready, htotal⟩ := step_swaps h hw
    obtain ⟨hrest, hcount⟩ := ih hworlds hready
    refine ⟨?_, ?_⟩
    · rw [Machine.history_cons]
      exact List.forall_mem_cons.2 ⟨hswap, hrest⟩
    · rw [Machine.final_cons, hcount, htotal, List.length_cons]
      omega

end HkSystem
