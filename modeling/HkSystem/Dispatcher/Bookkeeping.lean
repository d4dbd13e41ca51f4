import HkSystem.Dispatcher.Supplies
/-!
# Swap bookkeeping

The counters over a whole run, against the list of injections the run made.
Every injection names the registration it used, by its place among all the
registrations the Repository has committed. The invariant `Booked` ties the
two: the counters count the injections, the ids are consecutive, and the
registrations are used in order, each at most once. It survives any supply
of metadata and memory and any answer of the fTPM.

A retry after a refused cycle asks for the same id again while the slot may
still hold the old registration. It cannot be used twice: once a
registration has been injected its id is that of the active variant, and the
next cycle asks for the next one.
-/

namespace HkSystem

namespace Dispatcher

variable {s : State} {shared : Shared} {e : Event State Call Answer} {calls : List Call}
  {used : List (Int32 × ℕ)}

/-! ## The Repository's slot -/

/-- More registrations were committed, and the slot holds the last of them. -/
def Extends (shared shared' : Shared) : Prop :=
  ∃ added, shared'.registrations = shared.registrations ++ added ∧
    shared'.secureStorage = added.getLast?.getD shared.secureStorage

theorem extends_refl (shared : Shared) : Extends shared shared := ⟨[], by simp, rfl⟩

/-- Nothing registered is ever taken back. -/
theorem Extends.length_le {shared' : Shared} (h : Extends shared shared') :
    shared.registrations.length ≤ shared'.registrations.length := by
  obtain ⟨added, hregs, -⟩ := h
  rw [hregs, List.length_append]
  exact Nat.le_add_right _ _

/-- Commits append to the list. -/
theorem registrations_commits (added : List Metadata) : ∀ shared : Shared,
    (added.foldl Shared.commit shared).registrations = shared.registrations ++ added := by
  induction added with
  | nil => intro shared; rw [List.foldl_nil, List.append_nil]
  | cons metadata added ih =>
    intro shared
    rw [List.foldl_cons, ih, Shared.commit, List.append_assoc, List.singleton_append]

/-- The last commit is in the slot. -/
theorem secureStorage_commits (added : List Metadata) (shared : Shared) :
    (added.foldl Shared.commit shared).secureStorage =
      added.getLast?.getD shared.secureStorage := by
  rcases List.eq_nil_or_concat added with rfl | ⟨before, metadata, rfl⟩
  · rfl
  · rw [List.concat_eq_append, List.foldl_append, List.getLast?_concat, Option.getD_some]
    rfl

theorem registrations_apply (supply : Supply) (shared : Shared) :
    (supply.apply shared).registrations = shared.registrations ++ supply.registrations :=
  registrations_commits supply.registrations _

theorem secureStorage_apply (supply : Supply) (shared : Shared) :
    (supply.apply shared).secureStorage =
      supply.registrations.getLast?.getD shared.secureStorage :=
  secureStorage_commits supply.registrations _

theorem extends_apply (supply : Supply) (shared : Shared) :
    Extends shared (supply.apply shared) :=
  ⟨supply.registrations, registrations_apply supply shared, secureStorage_apply supply shared⟩

/-! ## Injections of a run -/

/-- The id a call injected and the place of the registration it used. -/
def injection? (e : Event State Call Answer) : Option (Int32 × ℕ) :=
  match e.answer with
  | .cycle ⟨some (.injected id), _, _, _⟩ => some (id, e.post.shared.registrations.length)
  | _ => none

/-- The injections of a history, in order. -/
def injections (history : List (Event State Call Answer)) : List (Int32 × ℕ) :=
  history.filterMap injection?

/-- One more call adds its own. -/
theorem injections_concat (s : State) (calls : List Call) (call : Call) :
    injections (monitor.history s (calls ++ [call])) =
      injections (monitor.history s calls) ++
        (injection? (monitor.event (monitor.final s calls) call)).toList := by
  rw [injections, Machine.history_append, List.filterMap_append]
  rfl

/-- The call left the arena and both counters as they were. -/
structure Unchanged (e : Event State Call Answer) : Prop where
  arena : e.post.workerArena = e.pre.workerArena
  active : e.post.currentActiveVariant = e.pre.currentActiveVariant
  total : e.post.totalMutationsCount = e.pre.totalMutationsCount

/-- A call that touches only the dataports and the control thread. -/
theorem unchanged_of_post {halted : Bool}
    (h : e.post = { e.pre with shared := shared, halted := halted }) : Unchanged e :=
  ⟨by rw [h], by rw [h], by rw [h]⟩

/-- **A call that injects**: what it left in the dataports is attested for the
id it asked for, the arena holds the copy, and both counters moved. -/
structure Installs (e : Event State Call Answer) : Prop where
  booked : injection? e =
    some (e.pre.totalMutationsCount + 1, e.post.shared.registrations.length)
  source : ∃ supply verifySignature jitTask,
    e.call = .forceMutation (some supply) verifySignature jitTask ∧ e.pre.halted = false ∧
      e.post.shared = supply.apply e.pre.shared ∧
      Attested verifySignature (supply.apply e.pre.shared) (e.pre.totalMutationsCount + 1)
  arena : Region.memcpy e.pre.workerArena e.post.shared.guestRam 4096 = some e.post.workerArena
  total : e.post.totalMutationsCount = e.pre.totalMutationsCount + 1
  active : e.post.currentActiveVariant = e.pre.totalMutationsCount + 1

/-- The metadata in the slot names the variant injected. -/
theorem Installs.vid (h : Installs e) :
    e.post.shared.secureStorage.vid.toInt32 = e.pre.totalMutationsCount + 1 := by
  obtain ⟨supply, verifySignature, jitTask, -, -, hshared, hatt⟩ := h.source
  rw [hshared]
  exact hatt.vid

/-- The dataports are those the call supplied. -/
theorem Installs.shared_eq (h : Installs e) {supply : Supply}
    {verifySignature : UInt32 → UInt32 → Option Int32} {jitTask : Region 4096 → Option UInt32}
    (hcall : e.call = .forceMutation (some supply) verifySignature jitTask) :
    e.post.shared = supply.apply e.pre.shared := by
  obtain ⟨supply', _, _, hcall', -, hshared, -⟩ := h.source
  rw [hcall] at hcall'
  cases hcall'
  exact hshared

/-- An attested supply is injected. -/
theorem installs_of_attested (h : e ∈ monitor.history s calls) {supply : Supply}
    {verifySignature : UInt32 → UInt32 → Option Int32} {jitTask : Region 4096 → Option UInt32}
    (hcall : e.call = .forceMutation (some supply) verifySignature jitTask)
    (hhalt : e.pre.halted = false)
    (hatt : Attested verifySignature (supply.apply e.pre.shared)
      (e.pre.totalMutationsCount + 1)) : Installs e := by
  obtain ⟨hpost, hans⟩ := event_of_served h hcall hhalt
  obtain ⟨arena, hcopy, heq⟩ := cycle_of_attested
    (Supply.env (some supply) verifySignature jitTask) rfl hatt
  rw [heq] at hpost hans
  refine ⟨by simp [injection?, hans], ⟨supply, verifySignature, jitTask, hcall, hhalt, ?_, hatt⟩,
    ?_, by rw [hpost], by rw [hpost]⟩
  · rw [hpost]
  · rw [hpost]
    exact hcopy

/-- **What a call can do to the books.** -/
theorem event_effect (h : e ∈ monitor.history s calls) :
    Extends e.pre.shared e.post.shared ∧
      ((injection? e = none ∧ Unchanged e) ∨ Installs e) := by
  rcases event_cases h with ⟨hpost, hidle⟩ |
    ⟨supply, verifySignature, jitTask, hcall, hhalt, hpost, hans⟩
  · have hnone : injection? e = none := by
      unfold injection?
      split
      · next hcyc => exact absurd hcyc (hidle _)
      · rfl
    have hsame : Unchanged e := unchanged_of_post hpost
    rw [hpost]
    exact ⟨extends_refl _, Or.inl ⟨hnone, hsame⟩⟩
  · rcases supply with _ | supply
    · rw [cycle_of_lost _ rfl] at hpost hans
      have hsame : Unchanged e := unchanged_of_post hpost
      rw [hpost]
      exact ⟨extends_refl _, Or.inl ⟨by simp [injection?, hans], hsame⟩⟩
    -- synthesis returned: only an attested cycle enters anything in the books
    · have hext := extends_apply supply e.pre.shared
      by_cases hatt : Attested verifySignature (supply.apply e.pre.shared)
          (e.pre.totalMutationsCount + 1)
      · have hinst := installs_of_attested h hcall hhalt hatt
        exact ⟨by rw [hinst.shared_eq hcall]; exact hext, Or.inr hinst⟩
      · by_cases hstuck : Stuck verifySignature (supply.apply e.pre.shared)
            (e.pre.totalMutationsCount + 1)
        · rw [cycle_of_stuck _ rfl hstuck] at hpost hans
          exact ⟨by rw [hpost]; exact hext,
            Or.inl ⟨by simp [injection?, hans], unchanged_of_post hpost⟩⟩
        · obtain ⟨outcome, -, hne, heq⟩ := cycle_of_refused
            (Supply.env (some supply) verifySignature jitTask) rfl hatt hstuck
          rw [heq] at hpost hans
          refine ⟨by rw [hpost]; exact hext, Or.inl ⟨?_, unchanged_of_post hpost⟩⟩
          rcases outcome with _ | _ | _ | id
          · simp [injection?, hans]
          · simp [injection?, hans]
          · simp [injection?, hans]
          · exact absurd rfl (hne id)

/-- What the books enter is an injection. -/
theorem installs_of_booked (h : e ∈ monitor.history s calls) {id : Int32} {n : ℕ}
    (hbook : injection? e = some (id, n)) :
    Installs e ∧ id = e.pre.totalMutationsCount + 1 ∧
      n = e.post.shared.registrations.length := by
  obtain ⟨-, ⟨hnone, -⟩ | hinst⟩ := event_effect h
  · rw [hnone] at hbook
    cases hbook
  · rw [hinst.booked, Option.some.injEq, Prod.mk.injEq] at hbook
    exact ⟨hinst, hbook.1.symm, hbook.2.symm⟩

/-! ## The invariant -/

/-- **The books agree with the injections made so far.** -/
structure Booked (s : State) (used : List (Int32 × ℕ)) : Prop where
  total : s.totalMutationsCount.toInt = used.length
  active : s.currentActiveVariant = s.totalMutationsCount
  /-- The `k`-th injection carries the id `k`. -/
  ids : used.map (·.1.toInt) = (List.range used.length).map fun k : ℕ => (k : ℤ) + 1
  /-- Registrations are used in order, so none is used twice. -/
  fresh : used.Pairwise fun p q => p.2 < q.2
  /-- Each injection used a registration of its own id. -/
  named : ∀ p ∈ used, ∃ metadata, 0 < p.2 ∧
    s.shared.registrations[p.2 - 1]? = some metadata ∧ metadata.vid.toInt32 = p.1
  /-- The slot holds the last registration. -/
  slot : s.shared.secureStorage = s.shared.registrations.getLast?.getD ⟨0, 0, 0⟩

theorem booked_boot : Booked boot [] :=
  ⟨by decide, rfl, rfl, List.Pairwise.nil, by simp, rfl⟩

/-- An id already used is at most the count. -/
theorem Booked.id_le (h : Booked s used) {p : Int32 × ℕ} (hp : p ∈ used) :
    p.1.toInt ≤ used.length := by
  have hmem : p.1.toInt ∈ used.map (·.1.toInt) := List.mem_map_of_mem hp
  rw [h.ids, List.mem_map] at hmem
  obtain ⟨k, hk, heq⟩ := hmem
  have := List.mem_range.1 hk
  omega

/-- Registering more variants disturbs nothing that is booked. -/
theorem named_of_extends {shared' : Shared} {p : Int32 × ℕ} (hext : Extends shared shared')
    (h : ∃ metadata, 0 < p.2 ∧ shared.registrations[p.2 - 1]? = some metadata ∧
      metadata.vid.toInt32 = p.1) :
    ∃ metadata, 0 < p.2 ∧ shared'.registrations[p.2 - 1]? = some metadata ∧
      metadata.vid.toInt32 = p.1 := by
  obtain ⟨added, hregs, -⟩ := hext
  obtain ⟨metadata, hpos, hget, hvid⟩ := h
  refine ⟨metadata, hpos, ?_, hvid⟩
  rw [hregs, List.getElem?_append_left (List.getElem?_eq_some_iff.1 hget).1, hget]

theorem slot_of_extends {shared' : Shared} (hext : Extends shared shared')
    (h : shared.secureStorage = shared.registrations.getLast?.getD ⟨0, 0, 0⟩) :
    shared'.secureStorage = shared'.registrations.getLast?.getD ⟨0, 0, 0⟩ := by
  obtain ⟨added, hregs, hslot⟩ := hext
  rw [hslot, hregs, List.getLast?_append, h]
  cases added.getLast? <;> rfl

/-- **The step that matters**: the registration an injection uses was made
after every registration used before it. -/
theorem Booked.lt_length (h : Booked s used) {shared' : Shared} (hext : Extends s.shared shared')
    (hvid : shared'.secureStorage.vid.toInt32.toInt = used.length + 1) {p : Int32 × ℕ}
    (hp : p ∈ used) : p.2 < shared'.registrations.length := by
  obtain ⟨metadata, hpos, hget, hid⟩ := named_of_extends hext (h.named p hp)
  have hle := (List.getElem?_eq_some_iff.1 hget).1
  rcases Nat.lt_or_ge p.2 shared'.registrations.length with hlt | hge
  · exact hlt
  -- the slot would still hold the registration `p` used, whose id is too old
  · have hlast : p.2 - 1 = shared'.registrations.length - 1 := by omega
    rw [hlast, ← List.getLast?_eq_getElem?] at hget
    have hslot := slot_of_extends hext h.slot
    rw [hget, Option.getD_some] at hslot
    rw [hslot, hid] at hvid
    have := h.id_le hp
    omega

/-- A registration is in the slot whenever its id is not zero. -/
theorem exists_registration
    (hslot : shared.secureStorage = shared.registrations.getLast?.getD ⟨0, 0, 0⟩)
    (hvid : 0 < shared.secureStorage.vid.toInt32.toInt) :
    0 < shared.registrations.length ∧
      shared.registrations[shared.registrations.length - 1]? = some shared.secureStorage := by
  rw [← List.getLast?_eq_getElem?]
  rcases hlast : shared.registrations.getLast? with _ | metadata
  · rw [hlast] at hslot
    rw [hslot] at hvid
    exact absurd hvid (by decide)
  · rw [hlast, Option.getD_some] at hslot
    rw [hslot]
    refine ⟨List.length_pos_iff.2 fun hnil => ?_, rfl⟩
    rw [hnil] at hlast
    cases hlast

/-- **Every call keeps the books.** -/
theorem booked_step (h : e ∈ monitor.history s calls) (hbooked : Booked e.pre used)
    (hfew : (used ++ (injection? e).toList).length < 2 ^ 31) :
    Booked e.post (used ++ (injection? e).toList) := by
  obtain ⟨hext, ⟨hnone, hsame⟩ | hinst⟩ := event_effect h
  · rw [hnone, Option.toList_none, List.append_nil]
    exact ⟨by rw [hsame.total]; exact hbooked.total,
      by rw [hsame.active, hsame.total]; exact hbooked.active, hbooked.ids, hbooked.fresh,
      fun p hp => named_of_extends hext (hbooked.named p hp), slot_of_extends hext hbooked.slot⟩
  · rw [hinst.booked, Option.toList_some] at hfew ⊢
    rw [List.length_append, List.length_singleton] at hfew
    -- below the limit the counter does not wrap, so the new id is the new count
    have hcount := hbooked.total
    have hnext : (e.pre.totalMutationsCount + 1).toInt = used.length + 1 := by
      rw [Words.toInt_add_one (by omega), hcount]
    have hslot := slot_of_extends hext hbooked.slot
    have hid : e.post.shared.secureStorage.vid.toInt32.toInt = used.length + 1 := by
      rw [hinst.vid, hnext]
    obtain ⟨hpos, hget⟩ := exists_registration hslot (by omega)
    refine ⟨?_, by rw [hinst.active, hinst.total], ?_, ?_, ?_, hslot⟩
    · rw [hinst.total, hnext, List.length_append]
      rfl
    · rw [List.map_append, hbooked.ids, List.length_append, List.length_singleton,
        List.range_succ, List.map_append, List.map_singleton, List.map_singleton, hnext]
    · refine List.pairwise_append.2 ⟨hbooked.fresh, List.pairwise_singleton _ _, ?_⟩
      intro p hp q hq
      rw [List.mem_singleton.1 hq]
      exact hbooked.lt_length hext hid hp
    · intro p hp
      rcases List.mem_append.1 hp with hp | hp
      · exact named_of_extends hext (hbooked.named p hp)
      · rw [List.mem_singleton.1 hp]
        exact ⟨_, hpos, hget, hinst.vid⟩

/-- **Every run keeps the books.** -/
theorem booked_run : ∀ calls : List Call,
    (injections (monitor.history boot calls)).length < 2 ^ 31 →
      Booked (monitor.final boot calls) (injections (monitor.history boot calls)) := by
  intro calls
  -- on the last call, so that the books before it are those of the run so far
  induction calls using List.reverseRecOn with
  | nil => intro _; exact booked_boot
  | append_singleton calls call ih =>
    intro hfew
    rw [injections_concat] at hfew ⊢
    rw [Machine.final_append]
    refine booked_step Machine.event_mem_concat (ih ?_) hfew
    rw [List.length_append] at hfew
    omega

/-- **Swap bookkeeping over whole runs.** Whatever is supplied and whatever
the fTPM answers, the books agree with the injections made, and a call that
does not inject leaves the arena and both counters alone. -/
theorem swap_bookkeeping (calls : List Call)
    (hfew : (injections (monitor.history boot calls)).length < 2 ^ 31 - 1) :
    Booked (monitor.final boot calls) (injections (monitor.history boot calls)) ∧
      ∀ e ∈ monitor.history boot calls, injection? e = none → Unchanged e := by
  refine ⟨booked_run calls (by omega), fun e he hnone => ?_⟩
  obtain ⟨-, ⟨-, hsame⟩ | hinst⟩ := event_effect he
  · exact hsame
  · have hsome := hinst.booked
    rw [hnone] at hsome
    cases hsome

/-! ## A retry -/

section Retry

variable {variantId : Int32} {ram buf : List UInt8}

/-- A variant that is registered and left is booked with its registration. -/
theorem injection?_registered (w : World) (hhalt : s.halted = false)
    (hid : s.totalMutationsCount + 1 = variantId) (hbuf : buf.length ≤ 16777216) :
    injection? (monitor.event s ((Supply.registered variantId buf buf).call w)) =
      some (variantId, s.shared.registrations.length + 1) := by
  subst hid
  have hmem : monitor.event s ((Supply.registered (s.totalMutationsCount + 1) buf buf).call w) ∈
      monitor.history s [(Supply.registered (s.totalMutationsCount + 1) buf buf).call w] :=
    List.mem_cons_self ..
  have hatt : Attested (Tpm.cryptoApiVerifySignature w.verifyStack Tpm.tpmSecretKey)
      ((Supply.registered (s.totalMutationsCount + 1) buf buf).apply s.shared)
      (s.totalMutationsCount + 1) := (attested_registered_iff _ hbuf rfl).2 rfl
  have hinst := installs_of_attested hmem rfl hhalt hatt
  rw [hinst.booked, hinst.shared_eq rfl, registrations_apply, List.length_append]
  rfl

/-- One that is replaced is not. -/
theorem injection?_replaced (w : World) (hid : s.totalMutationsCount + 1 = variantId)
    (hbuf : buf.length ≤ 16777216) (hram : ram.length = buf.length)
    (hsig : Tpm.signatureOf Tpm.tpmSecretKey (OneAtATime.digest buf) ≠
      Tpm.signatureOf Tpm.tpmSecretKey (OneAtATime.digest ram)) :
    injection? (monitor.event s ((Supply.registered variantId ram buf).call w)) = none := by
  subst hid
  have hmem : monitor.event s ((Supply.registered (s.totalMutationsCount + 1) ram buf).call w) ∈
      monitor.history s [(Supply.registered (s.totalMutationsCount + 1) ram buf).call w] :=
    List.mem_cons_self ..
  obtain ⟨-, ⟨hnone, -⟩ | hinst⟩ := event_effect hmem
  · exact hnone
  · obtain ⟨supply, verifySignature, jitTask, hcall, -, -, hatt⟩ := hinst.source
    cases hcall
    exact absurd ((attested_registered_iff _ hbuf hram).1 hatt) hsig

end Retry

/-- A swap, a cycle that is blocked, and the same variant registered and left anew. -/
def retried : List Call :=
  [(Supply.registered 1 clearEax clearEax).call zeroWorld, .printStatus,
    (Supply.registered 2 clearEcx clearEax).call zeroWorld,
    (Supply.registered 2 clearEax clearEax).call zeroWorld]

/-- The second injection uses the third registration. -/
theorem injections_retried : injections (monitor.history boot retried) = [(1, 1), (2, 3)] := by
  have hswap := @injection?_registered boot 1 clearEax zeroWorld rfl rfl (by decide)
  have hstatus : injection? (monitor.event afterSwap .printStatus) = none := rfl
  have hblocked := @injection?_replaced afterSwap 2 clearEcx clearEax zeroWorld rfl (by decide) rfl
    signatureOf_clear_ne
  have hretry := @injection?_registered afterBlocked 2 clearEax zeroWorld rfl rfl (by decide)
  have hsame : (monitor.step afterSwap .printStatus).1 = afterSwap := rfl
  rw [retried, injections, Machine.history_cons, step_boot, Machine.history_cons, hsame,
    Machine.history_cons, step_afterSwap, Machine.history_cons, Machine.history_nil,
    List.filterMap_cons_some hswap, List.filterMap_cons_none hstatus,
    List.filterMap_cons_none hblocked, List.filterMap_cons_some hretry]
  rfl

theorem swap_bookkeeping_retried :
    injections (monitor.history boot retried) = [(1, 1), (2, 3)] ∧
      Booked (monitor.final boot retried) [(1, 1), (2, 3)] := by
  have hbooked := (swap_bookkeeping retried (by rw [injections_retried]; decide)).1
  rw [injections_retried] at hbooked
  exact ⟨injections_retried, hbooked⟩

end Dispatcher

end HkSystem
