import HkSystem.Common.Rpc
/-!
# Calls among threads are calls of functions

In a layered assembly the threads that are not idle form a chain, each waiting for
the next, down from the client; only its last thread, or the message it is waiting
for, can move (`Ordered.exists_mover`). So at every moment there is one move to
make, and what is left to do is known: `Ordered` carries it, with the number of
moves. Whatever the order the threads are given, the run is that of the nested
calls, as `RpcRun` says.
-/

namespace HkSystem

namespace Rpc

variable {π ν σ : Type} {A : Assembly π ν σ} {rank : π → ℕ} {c c' : Config π ν σ}
variable {t u : Option π} {ts l : List (Option π)} {rest : ν → σ → Option (ν × σ × ℕ)}
variable {todo : Option (ν × σ × ℕ)}

/-! ## The chain of waiting threads -/

/-- A thread calls interfaces below its own; the client calls any. -/
def Fits (rank : π → ℕ) (t : Option π) (code : Code π ν σ) : Prop :=
  ∀ p, t = some p → code.Below rank (rank p)

/-- One computation after another. -/
def andThen (x : Option (ν × σ × ℕ)) (rest : ν → σ → Option (ν × σ × ℕ)) : Option (ν × σ × ℕ) :=
  x.bind fun r => (rest r.1 r.2.1).map (Code.tick r.2.2)

theorem andThen_tick (n : ℕ) (x : Option (ν × σ × ℕ)) (rest : ν → σ → Option (ν × σ × ℕ)) :
    andThen (x.map (Code.tick n)) rest = (andThen x rest).map (Code.tick n) := by
  rcases x with _ | r
  · rfl
  · simp only [andThen, Option.map_some, Option.bind_some, Option.map_map, Code.tick_comp_tick]
    rfl

theorem andThen_done (x : Option (ν × σ × ℕ)) : andThen x (fun v s => some (v, s, 0)) = x := by
  rcases x with _ | r
  · rfl
  · simp [andThen, Code.tick]

variable (A rank) in
/-- Threads waiting for one another, the last to be called first, and what is to be
done once that one has a reply to give. -/
inductive Chain (c : Config π ν σ) :
    List (Option π) → (ν → σ → Option (ν × σ × ℕ)) → Prop
  | client : Chain c [none] fun v s => some (v, s, 0)
  | frame {t : Option π} {ts : List (Option π)} {p : π} {next : ν → Code π ν σ}
      {rest : ν → σ → Option (ν × σ × ℕ)} :
      Chain c (t :: ts) rest → c.thread t = .waiting p next → c.caller p = t →
      (∀ v, Fits rank t (next v)) → (∀ q, some q ∈ t :: ts → rank p < rank q) →
      Chain c (some p :: t :: ts) fun v s =>
        (andThen ((next v).exec (A.evalCount rank c.turn) s) rest).map (Code.tick 2)

namespace Chain

/-- The threads behind the first are waiting. -/
theorem waiting (h : Chain A rank c l rest) :
    ∀ u ∈ l.tail, ∃ p next, c.thread u = .waiting p next := by
  induction h with
  | client => simp
  | frame hchain hwait _ _ _ ih =>
    intro u hu
    rcases List.mem_cons.1 hu with rfl | hu
    · exact ⟨_, _, hwait⟩
    · exact ih u hu

/-- Nobody waits for itself. -/
theorem head_notMem (h : Chain A rank c (t :: ts) rest) : t ∉ ts := by
  cases h with
  | client => simp
  | frame _ _ _ _ hrank => exact fun hmem => lt_irrefl _ (hrank _ hmem)

theorem client_mem (h : Chain A rank c l rest) : none ∈ l := by
  induction h with
  | client => exact List.mem_singleton.2 rfl
  | frame _ _ _ _ _ ih => exact List.mem_cons_of_mem _ ih

/-- A chain stays while its waiting threads do. -/
theorem congr (h : Chain A rank c l rest) (hturn : c'.turn = c.turn)
    (hthread : ∀ u ∈ l.tail, c'.thread u = c.thread u)
    (hcaller : ∀ p, some p ∈ l → c'.caller p = c.caller p) : Chain A rank c' l rest := by
  induction h with
  | client => exact .client
  | @frame t ts p next rest _ hwait hcall hfits hrank ih =>
    rw [← hturn]
    refine .frame (ih (fun u hu => ?_) fun q hq => ?_) ?_ ?_ hfits hrank
    · exact hthread u (List.mem_cons_of_mem _ hu)
    · exact hcaller q (List.mem_cons_of_mem _ hq)
    · rw [hthread t (List.mem_cons_self ..), hwait]
    · rw [hcaller p (List.mem_cons_self ..), hcall]

end Chain

/-! ## The one move to make -/

variable (A rank) in
/-- Where the first thread of a chain is, with all that is left to do in the turn. -/
inductive Situation (c : Config π ν σ) (t : Option π) (rest : ν → σ → Option (ν × σ × ℕ)) :
    Option (ν × σ × ℕ) → Prop
  | busy {code : Code π ν σ} : c.thread t = .busy code → Fits rank t code →
      (∀ p, c.calls p = []) → (∀ u, c.reply u = none) →
      Situation c t rest (andThen (code.exec (A.evalCount rank c.turn) c.mem) rest)
  /-- Its call is at the endpoint. -/
  | called {p : π} {v : ν} {next : ν → Code π ν σ} : c.thread t = .waiting p next →
      (∀ v, Fits rank t (next v)) → (∀ q, t = some q → rank p < rank q) →
      c.calls p = [(t, v)] → (∀ q, q ≠ p → c.calls q = []) → (∀ u, c.reply u = none) →
      Situation c t rest ((A.evalCount rank c.turn p v c.mem).bind fun r =>
        (andThen ((next r.1).exec (A.evalCount rank c.turn) r.2.1) rest).map
          (Code.tick (r.2.2 + 3)))
  /-- The reply has come. -/
  | replied {p : π} {v : ν} {next : ν → Code π ν σ} : c.thread t = .waiting p next →
      (∀ v, Fits rank t (next v)) → (∀ p, c.calls p = []) → c.reply t = some v →
      (∀ u, u ≠ t → c.reply u = none) →
      Situation c t rest
        ((andThen ((next v).exec (A.evalCount rank c.turn) c.mem) rest).map (Code.tick 1))

variable (A rank) in
/-- **The threads form one chain**, and so much is left to do in the turn. -/
def Ordered (c : Config π ν σ) (todo : Option (ν × σ × ℕ)) : Prop :=
  ∃ t ts rest, Chain A rank c (t :: ts) rest ∧ (∀ u, u ∉ t :: ts → c.thread u = .idle) ∧
    Situation A rank c t rest todo

variable (A rank) in
/-- What a move leads to: one move less to make, or the next turn. -/
inductive Next (c : Config π ν σ) (todo : Option (ν × σ × ℕ)) (c' : Config π ν σ) : Prop
  | same (todo' : Option (ν × σ × ℕ)) : Ordered A rank c' todo' →
      todo = todo'.map (Code.tick 1) → c'.turn = c.turn → Next c todo c'
  | turn (v : ν) : todo = some (v, c.mem, 0) → c'.turn = c.turn + 1 →
      Ordered A rank c' ((A.client c'.turn).exec (A.evalCount rank c'.turn) c.mem) → Next c todo c'

/-- The threads of an ordered configuration but the first are idle or waiting. -/
theorem idle_or_waiting (hchain : Chain A rank c (t :: ts) rest)
    (hidle : ∀ u, u ∉ t :: ts → c.thread u = .idle) (h : u ≠ t) :
    c.thread u = .idle ∨ ∃ p next, c.thread u = .waiting p next := by
  by_cases hmem : u ∈ ts
  · exact Or.inr (hchain.waiting u hmem)
  · exact Or.inl (hidle u (by simp [h, hmem]))

section Moves

variable [DecidableEq π] (hA : A.Layered rank) (hchain : Chain A rank c (t :: ts) rest)
  (hidle : ∀ u, u ∉ t :: ts → c.thread u = .idle)

include hchain hidle

/-- The thread at the head takes a step of its own. -/
theorem Next.of_act {update : σ → σ} {next : σ → Code π ν σ}
    (hbusy : c.thread t = .busy (.act update next)) (hfits : Fits rank t (.act update next))
    (hcalls : ∀ p, c.calls p = []) (hreply : ∀ u, c.reply u = none) :
    ∃ c', A.move c t = some c' ∧ Next A rank c
      (andThen ((Code.act update next).exec (A.evalCount rank c.turn) c.mem) rest) c' := by
  refine ⟨_, move_act hbusy, ?_⟩
  refine .same _ ⟨t, ts, rest, hchain.congr rfl (fun u hu => ?_) (fun _ _ => rfl), fun u hu => ?_,
    .busy (Function.update_self ..) (fun p hp => ?_) hcalls hreply⟩ ?_ rfl
  · have hne : u ≠ t := fun h => hchain.head_notMem (h ▸ hu)
    exact Function.update_of_ne hne ..
  · have hne : u ≠ t := fun h => hu (h ▸ List.mem_cons_self ..)
    exact (Function.update_of_ne hne ..).trans (hidle u hu)
  · cases hfits p hp with
    | act h => exact h c.mem
  · rw [Code.exec, andThen_tick]

/-- It sends a call. -/
theorem Next.of_call {p : π} {v : ν} {next : ν → Code π ν σ}
    (hbusy : c.thread t = .busy (.call p v next)) (hfits : Fits rank t (.call p v next))
    (hcalls : ∀ p, c.calls p = []) (hreply : ∀ u, c.reply u = none) :
    ∃ c', A.move c t = some c' ∧ Next A rank c
      (andThen ((Code.call p v next).exec (A.evalCount rank c.turn) c.mem) rest) c' := by
  have hsent : Function.update c.calls p (c.calls p ++ [(t, v)]) p = [(t, v)] := by
    rw [Function.update_self, hcalls, List.nil_append]
  refine ⟨_, move_call hbusy, ?_⟩
  refine .same _ ⟨t, ts, rest, hchain.congr rfl (fun u hu => ?_) (fun _ _ => rfl), fun u hu => ?_,
    .called (Function.update_self ..) (fun v q hq => ?_) (fun q hq => ?_) hsent (fun q hq => ?_)
      hreply⟩ ?_ rfl
  · have hne : u ≠ t := fun h => hchain.head_notMem (h ▸ hu)
    exact Function.update_of_ne hne ..
  · have hne : u ≠ t := fun h => hu (h ▸ List.mem_cons_self ..)
    exact (Function.update_of_ne hne ..).trans (hidle u hu)
  · cases hfits q hq with
    | call _ h => exact h v
  · cases hfits q hq with
    | call h _ => exact h
  · exact (Function.update_of_ne hq ..).trans (hcalls q)
  · rcases h : A.evalCount rank c.turn p v c.mem with _ | r
    · simp [Code.exec, h, andThen]
    · simp [Code.exec, h, andThen_tick]

/-- It replies, and its caller is at the head. -/
theorem Next.of_reply {p : π} {v : ν} (ht : t = some p) (hbusy : c.thread t = .busy (.ret v))
    (hcalls : ∀ p, c.calls p = []) (hreply : ∀ u, c.reply u = none) :
    ∃ c', A.move c t = some c' ∧ Next A rank c
      (andThen ((Code.ret v).exec (A.evalCount rank c.turn) c.mem) rest) c' := by
  subst ht
  refine ⟨_, move_reply hbusy, ?_⟩
  have hhead := hchain.head_notMem
  cases hchain with
  | @frame t ts _ next rest hchain hwait hcaller hfits hrank =>
    have hne : t ≠ some p := fun h => hhead (h ▸ List.mem_cons_self ..)
    have hsent : Function.update c.reply (c.caller p) (some v) t = some v := by
      rw [hcaller, Function.update_self]
    refine .same _ ⟨t, ts, rest, hchain.congr rfl (fun u hu => ?_) (fun _ _ => rfl),
      fun u hu => ?_, .replied ((Function.update_of_ne hne ..).trans hwait) hfits hcalls hsent
        (fun u hu => ?_)⟩ ?_ rfl
    · have hne : u ≠ some p := fun h => hhead (h ▸ List.mem_cons_of_mem _ hu)
      exact Function.update_of_ne hne ..
    · by_cases h : u = some p
      · rw [h]
        exact Function.update_self ..
      · exact (Function.update_of_ne h ..).trans (hidle u (by simpa [h] using hu))
    · simp only [hcaller]
      exact (Function.update_of_ne hu ..).trans (hreply u)
    · simp [Code.exec, andThen, Code.tick, Function.comp_def]

/-- The client is through with its turn. -/
theorem Next.of_turn {v : ν} (ht : t = none) (hbusy : c.thread t = .busy (.ret v))
    (hcalls : ∀ p, c.calls p = []) (hreply : ∀ u, c.reply u = none) :
    ∃ c', A.move c t = some c' ∧ Next A rank c
      (andThen ((Code.ret v).exec (A.evalCount rank c.turn) c.mem) rest) c' := by
  subst ht
  refine ⟨_, move_turn hbusy, ?_⟩
  cases hchain with
  | client =>
    refine .turn v (andThen_done _) rfl ⟨none, [], _, .client, fun u hu => ?_, ?_⟩
    · have hne : u ≠ none := fun h => hu (h ▸ List.mem_cons_self ..)
      exact (Function.update_of_ne hne ..).trans (hidle u hu)
    · have hfits : Fits rank none (A.client (c.turn + 1)) := by
        intro p hp
        cases hp
      have hbusy' : Function.update c.thread none (.busy (A.client (c.turn + 1))) none =
          .busy (A.client (c.turn + 1)) := Function.update_self ..
      rw [← andThen_done (Code.exec _ _ _)]
      exact .busy hbusy' hfits hcalls hreply

include hA in
/-- The interface takes the call. -/
theorem Next.of_receive {p : π} {v : ν} {next : ν → Code π ν σ}
    (hwait : c.thread t = .waiting p next) (hfits : ∀ v, Fits rank t (next v))
    (hrank : ∀ q, some q ∈ t :: ts → rank p < rank q) (hcall : c.calls p = [(t, v)])
    (hcalls : ∀ q, q ≠ p → c.calls q = []) (hreply : ∀ u, c.reply u = none) :
    ∃ c', A.move c (some p) = some c' ∧ Next A rank c
      ((A.evalCount rank c.turn p v c.mem).bind fun r =>
        (andThen ((next r.1).exec (A.evalCount rank c.turn) r.2.1) rest).map
          (Code.tick (r.2.2 + 3))) c' := by
  have hnew : some p ∉ t :: ts := fun h => lt_irrefl _ (hrank p h)
  refine ⟨_, move_receive (hidle _ hnew) hcall, ?_⟩
  have hne : t ≠ some p := fun h => hnew (h ▸ List.mem_cons_self ..)
  refine .same _ ⟨some p, t :: ts, _, .frame (hchain.congr rfl (fun u hu => ?_) fun q hq => ?_)
    ((Function.update_of_ne hne ..).trans hwait) (Function.update_self ..) hfits hrank,
    fun u hu => ?_, .busy (Function.update_self ..) (fun q hq => ?_) (fun q => ?_) hreply⟩ ?_ rfl
  · have hne : u ≠ some p := fun h => hnew (h ▸ List.mem_cons_of_mem _ hu)
    exact Function.update_of_ne hne ..
  · have hne : q ≠ p := fun h => hnew (h ▸ hq)
    exact Function.update_of_ne hne ..
  · rw [List.mem_cons, not_or] at hu
    exact (Function.update_of_ne hu.1 ..).trans (hidle u hu.2)
  · obtain rfl := Option.some.inj hq
    exact hA c.turn p v
  · by_cases h : q = p
    · rw [h]
      exact Function.update_self ..
    · exact (Function.update_of_ne h ..).trans (hcalls q h)
  · rw [hA.evalCount_eq]
    rcases h : (A.serve c.turn p v).exec (A.evalCount rank c.turn) c.mem with _ | r
    · rfl
    · simp only [andThen, Option.bind_some, Option.map_map, Code.tick_comp_tick]
      congr 2
      omega

/-- The caller goes on with the reply. -/
theorem Next.of_resume {p : π} {v : ν} {next : ν → Code π ν σ}
    (hwait : c.thread t = .waiting p next) (hfits : ∀ v, Fits rank t (next v))
    (hcalls : ∀ p, c.calls p = []) (hv : c.reply t = some v)
    (hreply : ∀ u, u ≠ t → c.reply u = none) :
    ∃ c', A.move c t = some c' ∧ Next A rank c
      ((andThen ((next v).exec (A.evalCount rank c.turn) c.mem) rest).map (Code.tick 1)) c' := by
  refine ⟨_, move_resume hwait hv, ?_⟩
  refine .same _ ⟨t, ts, rest, hchain.congr rfl (fun u hu => ?_) (fun _ _ => rfl), fun u hu => ?_,
    .busy (Function.update_self ..) (hfits v) hcalls (fun u => ?_)⟩ rfl rfl
  · have hne : u ≠ t := fun h => hchain.head_notMem (h ▸ hu)
    exact Function.update_of_ne hne ..
  · have hne : u ≠ t := fun h => hu (h ▸ List.mem_cons_self ..)
    exact (Function.update_of_ne hne ..).trans (hidle u hu)
  · by_cases h : u = t
    · rw [h]
      exact Function.update_self ..
    · exact (Function.update_of_ne h ..).trans (hreply u h)

end Moves

/-- What a thread calls lies below everything in its chain. -/
theorem Chain.rank_lt (h : Chain A rank c (t :: ts) rest) {p : π}
    (hp : ∀ q, t = some q → rank p < rank q) : ∀ q, some q ∈ t :: ts → rank p < rank q := by
  intro q hmem
  rcases List.mem_cons.1 hmem with hq | hq
  · exact hp q hq.symm
  · cases h with
    | client => exact absurd hq (by simp)
    | frame _ _ _ _ hrank => exact (hp _ rfl).trans (hrank q hq)

/-- When the client has its reply, the turn is over. -/
theorem Ordered.of_client_ret {v : ν} (h : Ordered A rank c todo)
    (hret : c.thread none = .busy (.ret v)) : todo = some (v, c.mem, 0) := by
  obtain ⟨t, ts, rest, hchain, hidle, hsit⟩ := h
  -- the client is busy, so it is not among those that wait
  have hts : none ∉ ts := by
    intro hmem
    obtain ⟨p, next, hwait⟩ := hchain.waiting none hmem
    rw [hret] at hwait
    cases hwait
  have ht : t = none := by
    rcases List.mem_cons.1 hchain.client_mem with h | h
    · exact h.symm
    · exact absurd h hts
  subst ht
  cases hchain with
  | client =>
    cases hsit with
    | busy hbusy =>
      rw [← Thread.busy.inj (hret.symm.trans hbusy)]
      exact andThen_done _
    | called hwait => cases hret.symm.trans hwait
    | replied hwait => cases hret.symm.trans hwait

variable [DecidableEq π]

/-- **There is one move to make**, or the turn cannot be completed. -/
theorem Ordered.exists_mover (hA : A.Layered rank) (h : Ordered A rank c todo) :
    ∃ t, (∀ u, u ≠ t → A.move c u = none) ∧
      ((todo = none ∧ A.move c t = none) ∨ ∃ c', A.move c t = some c' ∧ Next A rank c todo c') := by
  obtain ⟨t, ts, rest, hchain, hidle, hsit⟩ := h
  cases hsit with
  | @busy code hbusy hfits hcalls hreply =>
    refine ⟨t, fun u hu => ?_, ?_⟩
    · exact move_eq_none (idle_or_waiting hchain hidle hu) (fun p _ => hcalls p) (hreply u)
    · cases code with
      | ret v =>
        cases t with
        | none => exact Or.inr (Next.of_turn hchain hidle rfl hbusy hcalls hreply)
        | some p => exact Or.inr (Next.of_reply hchain hidle rfl hbusy hcalls hreply)
      | act update next => exact Or.inr (Next.of_act hchain hidle hbusy hfits hcalls hreply)
      | call p v next => exact Or.inr (Next.of_call hchain hidle hbusy hfits hcalls hreply)
      | fault => exact Or.inl ⟨rfl, move_fault hbusy⟩
  | @called p v next hwait hfits hrank hcall hcalls hreply =>
    refine ⟨some p, fun u hu => move_eq_none ?_ (fun q hq => ?_) (hreply u), Or.inr ?_⟩
    · by_cases h : u = t
      · exact Or.inr ⟨p, next, h ▸ hwait⟩
      · exact idle_or_waiting hchain hidle h
    · exact hcalls q fun h => hu (h ▸ hq)
    · exact Next.of_receive hA hchain hidle hwait hfits (hchain.rank_lt hrank) hcall hcalls hreply
  | @replied p v next hwait hfits hcalls hv hreply =>
    refine ⟨t, fun u hu => ?_, Or.inr ?_⟩
    · exact move_eq_none (idle_or_waiting hchain hidle hu) (fun p _ => hcalls p) (hreply u hu)
    · exact Next.of_resume hchain hidle hwait hfits hcalls hv hreply

end Rpc

end HkSystem
