import HkSystem.Dispatcher.Bookkeeping
/-!
# Transaction freshness

A variant injected in a cycle should have been registered in that cycle. The
Dispatcher has only the id to go by, and a cycle that is refused does not
move the counter: the next one asks for the same id, and if nothing is
registered in it the slot still holds the old registration. So a run is
fresh exactly when no cycle that registers nothing leaves bytes in
`guest_ram` on which the old registration is attested (`fresh_iff`).

`left_by_refused` says where such a registration comes from: it was made by
an earlier cycle that refused it. A registration that has been used is never
in the way, since its id is that of the active variant; so registrations are
used in the order in which they were made, and none of them twice.
-/

namespace HkSystem

namespace Dispatcher

variable {s : State} {e e' : Event State Call Answer} {calls : List Call}
  {before after : List (Event State Call Answer)} {n : ℕ} {metadata : Metadata}

/-- The call had this metadata registered, at this place among all
registrations. -/
def Registers (e : Event State Call Answer) (n : ℕ) (metadata : Metadata) : Prop :=
  e.pre.shared.registrations.length < n ∧
    e.post.shared.registrations[n - 1]? = some metadata

/-- **Freshness** of a history. -/
structure Fresh (history : List (Event State Call Answer)) : Prop where
  /-- A variant injected in a cycle was registered, under its id, during that
  cycle. -/
  own : ∀ e ∈ history, ∀ id n, injection? e = some (id, n) →
    ∃ metadata, Registers e n metadata ∧ metadata.vid.toInt32 = id
  /-- A registration made by an earlier cycle that refused it is not accepted. -/
  left : ∀ before e after, history = before ++ e :: after → ∀ id n, injection? e = some (id, n) →
    ∀ e' ∈ before, Refuses e' → ∀ metadata, ¬ Registers e' n metadata

/-- The cycle registers nothing, and what it finds in the slot is attested for
the id it asks for, on the bytes it leaves in `guest_ram`. -/
def Replays (e : Event State Call Answer) : Prop :=
  ∃ supply verifySignature jitTask,
    e.call = .forceMutation (some supply) verifySignature jitTask ∧ e.pre.halted = false ∧
      supply.registrations = [] ∧
      Attested verifySignature { e.pre.shared with guestRam := supply.guestRam }
        (e.pre.totalMutationsCount + 1)

/-! ## Registrations along a run -/

theorem length_step (s : State) (call : Call) :
    s.shared.registrations.length ≤ (monitor.step s call).1.shared.registrations.length := by
  have hmem : monitor.event s call ∈ monitor.history s [call] := List.mem_cons_self ..
  exact (event_effect hmem).1.length_le

/-- What a call has registered stays registered. -/
theorem length_registrations_le (h : e ∈ monitor.history s calls) :
    e.post.shared.registrations.length ≤
      (monitor.final s calls).shared.registrations.length := by
  obtain ⟨xs, ys, rfl, hpre, -, hpost⟩ := Machine.mem_history_iff.1 h
  rw [Machine.final_append, Machine.final_cons, ← hpre, ← hpost]
  exact @Machine.inv_final _ _ _ monitor _ _
    (fun t => e.post.shared.registrations.length ≤ t.shared.registrations.length) le_rfl
    fun t call ht => ht.trans (length_step t call)

/-- The places of an earlier cycle's registrations are not those of a later
one's. -/
theorem not_registers_of_before (h : monitor.history s calls = before ++ e :: after)
    (he' : e' ∈ before) (hn : e.pre.shared.registrations.length < n) :
    ¬ Registers e' n metadata := by
  rintro ⟨-, hget⟩
  obtain ⟨xs, ys, -, rfl, hpre⟩ := Machine.history_split h
  have hle := length_registrations_le he'
  have hlt := (List.getElem?_eq_some_iff.1 hget).1
  rw [← hpre] at hle
  omega

/-- A call that registers anything registers what is then in the slot. -/
theorem registers_slot {supply : Supply} (hshared : e.post.shared = supply.apply e.pre.shared)
    (hne : supply.registrations ≠ []) :
    Registers e e.post.shared.registrations.length e.post.shared.secureStorage := by
  have hregs := registrations_apply supply e.pre.shared
  have hslot := secureStorage_apply supply e.pre.shared
  rw [← hshared] at hregs hslot
  have hpos := List.length_pos_iff.2 hne
  refine ⟨by rw [hregs, List.length_append]; omega, ?_⟩
  rw [← List.getLast?_eq_getElem?, hregs, hslot, List.getLast?_append,
    List.getLast?_eq_some_getLast hne]
  rfl

/-! ## Where a stale registration comes from -/

/-- What a served cycle comes to, once synthesis has returned. -/
theorem served_cases (h : e ∈ monitor.history s calls) {supply : Supply}
    {verifySignature : UInt32 → UInt32 → Option Int32} {jitTask : Region 4096 → Option UInt32}
    (hcall : e.call = .forceMutation (some supply) verifySignature jitTask)
    (hhalt : e.pre.halted = false) :
    Installs e ∨ e.post.halted = true ∨
      (Refuses e ∧ e.post.shared = supply.apply e.pre.shared ∧
        e.post.totalMutationsCount = e.pre.totalMutationsCount) := by
  obtain ⟨hpost, hans⟩ := event_of_served h hcall hhalt
  by_cases hatt : Attested verifySignature (supply.apply e.pre.shared)
      (e.pre.totalMutationsCount + 1)
  · exact Or.inl (installs_of_attested h hcall hhalt hatt)
  · by_cases hstuck : Stuck verifySignature (supply.apply e.pre.shared)
        (e.pre.totalMutationsCount + 1)
    · rw [cycle_of_stuck _ rfl hstuck] at hpost
      exact Or.inr (Or.inl (by rw [hpost]))
    · obtain ⟨outcome, hout, hne, heq⟩ := cycle_of_refused
        (Supply.env (some supply) verifySignature jitTask) rfl hatt hstuck
      rw [heq] at hpost hans
      refine Or.inr (Or.inr ⟨⟨_, hans, ?_⟩, by rw [hpost], by rw [hpost]⟩)
      cases outcome with
      | mismatch expected found => exact Or.inr ⟨expected, found, rfl⟩
      | stuck => exact absurd rfl hout
      | blocked id => exact Or.inl ⟨id, rfl⟩
      | injected id => exact absurd rfl (hne id)

/-- **What the slot may hold**: the registration of the active variant, or one
that an earlier cycle made and refused. -/
def SlotExplained (s : State) (history : List (Event State Call Answer)) : Prop :=
  s.halted = true ∨ s.shared.secureStorage.vid.toInt32 = s.totalMutationsCount ∨
    ∃ e ∈ history, Refuses e ∧
      Registers e s.shared.registrations.length s.shared.secureStorage

theorem slotExplained_step (h : e ∈ monitor.history s calls)
    (hslot : SlotExplained e.pre before) : SlotExplained e.post (before ++ [e]) := by
  -- a later call adds to the history, and the explanation stands
  have hkeep : e.post.shared.secureStorage = e.pre.shared.secureStorage →
      e.post.shared.registrations = e.pre.shared.registrations →
      e.post.totalMutationsCount = e.pre.totalMutationsCount →
      e.pre.halted = false → SlotExplained e.post (before ++ [e]) := by
    intro hstore hregs htotal hhalt
    rcases hslot with hhalted | hvid | ⟨e', he', hrest⟩
    · rw [hhalt] at hhalted
      cases hhalted
    · exact Or.inr (Or.inl (by rw [hstore, htotal, hvid]))
    · exact Or.inr (Or.inr ⟨e', List.mem_append_left _ he', by rw [hregs, hstore]; exact hrest⟩)
  rcases event_cases h with ⟨hpost, -⟩ | ⟨supply, verifySignature, jitTask, hcall, hhalt, hpost, -⟩
  · cases hhalt : e.pre.halted with
    | true => exact Or.inl (by rw [hpost, hhalt])
    | false => exact hkeep (by rw [hpost]) (by rw [hpost]) (by rw [hpost]) hhalt
  · rcases supply with _ | supply
    · rw [cycle_of_lost _ rfl] at hpost
      exact Or.inl (by rw [hpost])
    · rcases served_cases h hcall hhalt with hinst | hhalted | ⟨hrefuse, hshared, htotal⟩
      · exact Or.inr (Or.inl (by rw [hinst.vid, hinst.total]))
      · exact Or.inl hhalted
      · by_cases hnil : supply.registrations = []
        · refine hkeep ?_ ?_ htotal hhalt
          · rw [hshared, secureStorage_apply, hnil]
            rfl
          · rw [hshared, registrations_apply, hnil, List.append_nil]
        · exact Or.inr (Or.inr ⟨e, by simp, hrefuse, registers_slot hshared hnil⟩)

theorem slotExplained_run (calls : List Call) :
    SlotExplained (monitor.final boot calls) (monitor.history boot calls) := by
  induction calls using List.reverseRecOn with
  | nil => exact Or.inr (Or.inl rfl)
  | append_singleton calls call ih =>
    have hmem : monitor.event (monitor.final boot calls) call ∈
        monitor.history (monitor.final boot calls) [call] := List.mem_cons_self ..
    have hstep := slotExplained_step hmem ih
    rw [Machine.final_append, Machine.history_append]
    exact hstep

/-- A cycle that replays finds what a refused one left. -/
theorem exists_refused (h : monitor.history boot calls = before ++ e :: after)
    (hreplay : Replays e) :
    ∃ e' ∈ before, Refuses e' ∧
      Registers e' e.pre.shared.registrations.length e.pre.shared.secureStorage := by
  obtain ⟨supply, verifySignature, jitTask, -, hhalt, -, hatt⟩ := hreplay
  obtain ⟨xs, ys, -, rfl, hpre⟩ := Machine.history_split h
  have hslot := slotExplained_run xs
  rw [← hpre] at hslot
  rcases hslot with hhalted | hvid | hleft
  · rw [hhalt] at hhalted
    cases hhalted
  -- the id asked for is one more than the count
  · have hnext : e.pre.shared.secureStorage.vid.toInt32 = e.pre.totalMutationsCount + 1 := hatt.vid
    rw [hvid] at hnext
    exact absurd hnext (by grind)
  · exact hleft

/-! ## A registration that has been used -/

/-- **Registrations are used up in order**, and while the slot holds the last one used
it has the id of the active variant. -/
structure UsedUp (s : State) (used : List (Int32 × ℕ)) : Prop where
  made : ∀ p ∈ used, p.2 ≤ s.shared.registrations.length
  order : used.Pairwise fun p q => p.2 < q.2
  spent : ∀ p ∈ used, p.2 = s.shared.registrations.length →
    s.shared.secureStorage.vid.toInt32 = s.totalMutationsCount

/-- Where nothing was registered, the slot is as it was. -/
theorem slot_of_length_le {shared shared' : Shared} (hext : Extends shared shared')
    (hlen : shared'.registrations.length ≤ shared.registrations.length) :
    shared'.secureStorage = shared.secureStorage := by
  obtain ⟨added, hregs, hslot⟩ := hext
  rw [hregs, List.length_append] at hlen
  obtain rfl := List.eq_nil_of_length_eq_zero (show added.length = 0 by omega)
  exact hslot

theorem usedUp_step {used : List (Int32 × ℕ)} (h : e ∈ monitor.history s calls)
    (hused : UsedUp e.pre used) : UsedUp e.post (used ++ (injection? e).toList) := by
  obtain ⟨hext, heffect⟩ := event_effect h
  have hle := hext.length_le
  rcases heffect with ⟨hnone, hsame⟩ | hinst
  · rw [hnone, Option.toList_none, List.append_nil]
    refine ⟨fun p hp => (hused.made p hp).trans hle, hused.order, fun p hp hlast => ?_⟩
    have hmade := hused.made p hp
    rw [slot_of_length_le hext (by omega), hsame.total]
    exact hused.spent p hp (by omega)
  · rw [hinst.booked, Option.toList_some]
    -- one that was used before would still be in the slot, with an id too old
    have hlt : ∀ p ∈ used, p.2 < e.post.shared.registrations.length := by
      intro p hp
      have hmade := hused.made p hp
      by_contra hge
      have hvid := hinst.vid
      rw [slot_of_length_le hext (by omega), hused.spent p hp (by omega)] at hvid
      exact absurd hvid (by grind)
    refine ⟨fun p hp => ?_, ?_, fun p _ _ => by rw [hinst.vid, hinst.total]⟩
    · rcases List.mem_append.1 hp with hp | hp
      · exact (hlt p hp).le
      · rw [List.mem_singleton.1 hp]
    · refine List.pairwise_append.2 ⟨hused.order, List.pairwise_singleton _ _, ?_⟩
      intro p hp q hq
      rw [List.mem_singleton.1 hq]
      exact hlt p hp

theorem usedUp_run (calls : List Call) :
    UsedUp (monitor.final boot calls) (injections (monitor.history boot calls)) := by
  induction calls using List.reverseRecOn with
  | nil => exact ⟨by simp [injections], List.Pairwise.nil, by simp [injections]⟩
  | append_singleton calls call ih =>
    rw [injections_concat, Machine.final_append]
    exact usedUp_step Machine.event_mem_concat ih

/-- **Only a refused cycle leaves a registration that can be replayed**, and it can be
replayed once: in every run registrations are injected in the order in which they
were made, so one that was used for an injection is never accepted again. -/
theorem left_by_refused (calls : List Call) :
    (∀ before e after, monitor.history boot calls = before ++ e :: after → Replays e →
      ∃ e' ∈ before, Refuses e' ∧
        Registers e' e.pre.shared.registrations.length e.pre.shared.secureStorage) ∧
      (injections (monitor.history boot calls)).Pairwise fun p q => p.2 < q.2 :=
  ⟨fun _ _ _ h hreplay => exists_refused h hreplay, (usedUp_run calls).order⟩

/-! ## Freshness -/

/-- Where nothing is registered, the slot stays as it was. -/
theorem apply_of_nil {supply : Supply} {shared : Shared} (h : supply.registrations = []) :
    supply.apply shared =
      { shared with guestRam := supply.guestRam, genBuf := supply.genBuf } := by
  rw [Supply.apply, h, List.foldl_nil]

/-- **One replay breaks it**: the variant is injected with no more registrations
than there were before. -/
theorem not_fresh_of_replays (he : e ∈ monitor.history s calls) (h : Replays e) :
    ¬ Fresh (monitor.history s calls) := by
  obtain ⟨supply, verifySignature, jitTask, hcall, hhalt, hnil, hatt⟩ := h
  intro hfresh
  have hinst : Installs e := installs_of_attested he hcall hhalt (by
    rw [apply_of_nil hnil]
    exact ⟨hatt.vid, hatt.verified⟩)
  obtain ⟨metadata, ⟨hlt, -⟩, -⟩ := hfresh.own e he _ _ hinst.booked
  rw [hinst.shared_eq hcall, registrations_apply, hnil, List.append_nil] at hlt
  exact lt_irrefl _ hlt

/-- **A run is fresh exactly when no cycle of it replays**: a cycle in which
nothing is registered does not leave bytes in `guest_ram` for which the slot,
as it stands, carries the id asked for and a signature the fTPM accepts. -/
theorem fresh_iff (calls : List Call) :
    Fresh (monitor.history boot calls) ↔
      ∀ e ∈ monitor.history boot calls, ¬ Replays e := by
  constructor
  · exact fun hfresh e he hreplay => not_fresh_of_replays he hreplay hfresh
  · intro hnone
    have hown : ∀ e ∈ monitor.history boot calls, ∀ id n, injection? e = some (id, n) →
        ∃ metadata, Registers e n metadata ∧ metadata.vid.toInt32 = id := by
      intro e he id n hbook
      obtain ⟨hinst, rfl, rfl⟩ := installs_of_booked he hbook
      obtain ⟨supply, verifySignature, jitTask, hcall, hhalt, hshared, hatt⟩ := hinst.source
      by_cases hnil : supply.registrations = []
      · rw [apply_of_nil hnil] at hatt
        exact absurd ⟨supply, verifySignature, jitTask, hcall, hhalt, hnil, hatt.vid, hatt.verified⟩
          (hnone e he)
      · exact ⟨_, registers_slot hshared hnil, hinst.vid⟩
    refine ⟨hown, fun before e after hsplit id n hbook e' he' _ metadata => ?_⟩
    have he : e ∈ monitor.history boot calls := Machine.mem_of_split hsplit
    obtain ⟨_, ⟨hlt, -⟩, -⟩ := hown e he id n hbook
    exact not_registers_of_before hsplit he' hlt

/-! ## A registration replayed -/

/-- The Generator leaves `clearEax` in both buffers and registers nothing. -/
def unregistered : Supply := ⟨.ofList clearEax, .ofList clearEax, []⟩

/-- A swap, a cycle that is blocked, and one that registers nothing. -/
def replayed : List Call :=
  [(Supply.registered 1 clearEax clearEax).call zeroWorld,
    (Supply.registered 2 clearEcx clearEax).call zeroWorld, unregistered.call zeroWorld]

/-- The third cycle starts with the slot that the second one left. -/
theorem history_replayed :
    monitor.history boot replayed =
      monitor.history boot [(Supply.registered 1 clearEax clearEax).call zeroWorld,
        (Supply.registered 2 clearEcx clearEax).call zeroWorld] ++
          monitor.event afterBlocked (unregistered.call zeroWorld) :: [] := by
  rw [replayed, Machine.history_cons, step_boot, Machine.history_cons, step_afterSwap,
    Machine.history_cons, Machine.history_nil, Machine.history_cons, step_boot,
    Machine.history_cons, Machine.history_nil]
  rfl

theorem replays_unregistered :
    Replays (monitor.event afterBlocked (unregistered.call zeroWorld)) := by
  have hfirst : (Region.ofList clearEax : Region 67108864).first clearEax.length = clearEax :=
    Region.first_ofList (by decide)
  have hatt := (@attested_commit_iff
    { afterSwap.shared with guestRam := .ofList clearEax, genBuf := .ofList clearEax } clearEax 2
    zeroWorld.verifyStack (by decide)).2 (by rw [hfirst])
  exact ⟨unregistered, _, zeroWorld.jitTask, rfl, rfl, rfl, hatt⟩

/-- A first cycle swaps in a variant. A second one registers it again, as the Repository
does, and leaves other bytes in `guest_ram`: it is blocked, and the Worker runs the
first variant and comes back. A third registers nothing and leaves the variant there:
it is injected with the registration of the second. -/
theorem not_fresh_replayed :
    zeroWorld.addVariant 2 3
        { afterSwap.shared with guestRam := .ofList clearEcx, genBuf := .ofList clearEax } =
      some afterBlocked.shared ∧
      ¬ Fresh (monitor.history boot replayed) := by
  refine ⟨@addVariant_registered afterSwap.shared clearEcx clearEax zeroWorld 2 (by decide), ?_⟩
  have hmem : monitor.event afterBlocked (unregistered.call zeroWorld) ∈
      monitor.history boot replayed := by
    rw [history_replayed]
    exact List.mem_append_right _ (List.mem_singleton.2 rfl)
  exact not_fresh_of_replays hmem replays_unregistered

/-- The cycle that left it is one of the first two, and the two registrations are used
once each. -/
theorem left_by_refused_replayed :
    (∃ e' ∈ monitor.history boot [(Supply.registered 1 clearEax clearEax).call zeroWorld,
        (Supply.registered 2 clearEcx clearEax).call zeroWorld],
      Refuses e' ∧ Registers e' 2 (metadataOf 2 clearEax)) ∧
      (injections (monitor.history boot replayed)).Pairwise fun p q => p.2 < q.2 := by
  obtain ⟨hleft, horder⟩ := left_by_refused replayed
  exact ⟨hleft _ _ _ history_replayed replays_unregistered, horder⟩

end Dispatcher

end HkSystem
