import HkSystem.Common.RpcChain
/-!
# Runs of an assembly

In whatever order the threads of a layered assembly are given the chance to move,
the run is that of the nested calls (`Assembly.Layered.synced`). The client's
turns end with the memory of `atTurn`; the number of moves made says how far the
run has got, whatever the order (`Synced.final_eq`); and an order in
which every thread comes up again and again gets through every turn
(`Assembly.Layered.turn_of_rounds`).
-/

namespace HkSystem

namespace Rpc

variable {π ν σ : Type} {A : Assembly π ν σ} {rank : π → ℕ} {c c' : Config π ν σ}
variable {t : Option π} {ts us : List (Option π)} {s s₀ : σ} {todo : Option (ν × σ × ℕ)} {n i : ℕ}

/-! ## Moves and turns -/

variable (A rank) in
/-- The moves a turn of the client takes, up to its end. -/
def Assembly.turnMoves (s₀ : σ) (i : ℕ) : ℕ :=
  (((A.atTurn rank s₀ i).bind ((A.client i).exec (A.evalCount rank i))).map (·.2.2)).getD 0

/-- The moves of all turns before, with the one that ends each. -/
def Assembly.clock (A : Assembly π ν σ) (rank : π → ℕ) (s₀ : σ) : ℕ → ℕ
  | 0 => 0
  | i + 1 => A.clock rank s₀ i + (A.turnMoves rank s₀ i + 1)

theorem clock_mono {j : ℕ} (h : i ≤ j) : A.clock rank s₀ i ≤ A.clock rank s₀ j := by
  induction j, h using Nat.le_induction with
  | base => exact le_refl _
  | succ j _ ih => exact ih.trans (Nat.le_add_right ..)

theorem atTurn_succ (h : A.atTurn rank s₀ i = some s) :
    A.atTurn rank s₀ (i + 1) = ((A.client i).exec (A.evalCount rank i) s).map (·.2.1) := by
  have hrun : ((A.client i).exec (A.evalCount rank i) s).map Code.uncount =
      (A.client i).run (A.eval rank i) s := Code.map_exec (A.client i) s
  rw [Assembly.atTurn, h, Option.bind_some, ← hrun, Option.map_map]
  rfl

/-! ## Keeping step with the nested calls -/

variable (A rank) in
/-- **A run after so many moves**: the turns before are those of the nested calls, and
what is left of this one is what is left of the nested calls. -/
def Synced (s₀ : σ) (c : Config π ν σ) (moves : ℕ) : Prop :=
  ∃ s todo made, A.atTurn rank s₀ c.turn = some s ∧ Ordered A rank c todo ∧
    (A.client c.turn).exec (A.evalCount rank c.turn) s = todo.map (Code.tick made) ∧
    moves = A.clock rank s₀ c.turn + made

theorem synced_start (s₀ : σ) : Synced A rank s₀ (A.start s₀) 0 := by
  have hbusy : (A.start s₀).thread none = .busy (A.client 0) := by simp [Assembly.start]
  refine ⟨s₀, _, 0, rfl, ⟨none, [], _, .client, fun u hu => ?_, .busy hbusy (fun p hp => ?_)
    (fun _ => rfl) fun _ => rfl⟩, ?_, rfl⟩
  · have hne : u ≠ none := fun h => hu (List.mem_singleton.2 h)
    simp [Assembly.start, hne]
  · cases hp
  · rw [andThen_done]
    exact (Option.map_id' ..).symm

/-- **A turn ends with the memory of the nested calls.** -/
theorem Synced.atTurn_succ_eq (h : Synced A rank s₀ c n) {v : ν}
    (hret : c.thread none = .busy (.ret v)) : A.atTurn rank s₀ (c.turn + 1) = some c.mem := by
  obtain ⟨s, todo, made, hturn, hordered, hexec, -⟩ := h
  rw [atTurn_succ hturn, hexec, hordered.of_client_ret hret]
  rfl

/-- The moves say which turn it is. -/
theorem Synced.turn_bounds (h : Synced A rank s₀ c n)
    (hturn : (A.atTurn rank s₀ (c.turn + 1)).isSome) :
    A.clock rank s₀ c.turn ≤ n ∧ n < A.clock rank s₀ (c.turn + 1) := by
  obtain ⟨s, todo, made, hat, hordered, hexec, rfl⟩ := h
  refine ⟨Nat.le_add_right .., ?_⟩
  rw [atTurn_succ hat, hexec] at hturn
  rcases todo with _ | r
  · cases hturn
  · have hmoves : A.turnMoves rank s₀ c.turn = r.2.2 + made := by
      rw [Assembly.turnMoves, hat, Option.bind_some, hexec]
      rfl
    rw [Assembly.clock, hmoves]
    omega

/-! ## Every order of moves -/

variable [DecidableEq π]

/-- How often a thread moved in a run. -/
def Assembly.moved (A : Assembly π ν σ) (c : Config π ν σ) (ts : List (Option π)) : ℕ :=
  ((A.threads.history c ts).map (·.answer)).count true

theorem final_of_move (h : A.move c t = some c') :
    A.threads.final c (t :: ts) = A.threads.final c' ts := by
  have hstep : (A.threads.step c t).1 = c' := by simp [Assembly.threads, h]
  rw [Machine.final_cons, hstep]

theorem final_of_passed (h : A.move c t = none) :
    A.threads.final c (t :: ts) = A.threads.final c ts := by
  have hstep : (A.threads.step c t).1 = c := by simp [Assembly.threads, h]
  rw [Machine.final_cons, hstep]

theorem moved_of_move (h : A.move c t = some c') : A.moved c (t :: ts) = A.moved c' ts + 1 := by
  have hstep : A.threads.step c t = (c', true) := by simp [Assembly.threads, h]
  simp [Assembly.moved, Machine.event, hstep]

theorem moved_of_passed (h : A.move c t = none) : A.moved c (t :: ts) = A.moved c ts := by
  have hstep : A.threads.step c t = (c, false) := by simp [Assembly.threads, h]
  simp [Assembly.moved, Machine.event, hstep]

/-- One more move. -/
theorem Synced.next (h : Synced A rank s₀ c n) (hA : A.Layered rank) (hmove : A.move c t = some c') :
    Synced A rank s₀ c' (n + 1) := by
  obtain ⟨s, todo, made, hturn, hordered, hexec, rfl⟩ := h
  obtain ⟨t', hother, ⟨-, hnone⟩ | ⟨c'', hmove', hnext⟩⟩ := hordered.exists_mover hA
  · by_cases ht : t = t'
    · rw [ht, hnone] at hmove
      cases hmove
    · rw [hother t ht] at hmove
      cases hmove
  · have ht : t = t' := by
      by_contra ht
      rw [hother t ht] at hmove
      cases hmove
    subst ht
    obtain rfl := Option.some.inj (hmove.symm.trans hmove')
    cases hnext with
    | same todo' hordered' htodo hsame =>
      refine ⟨s, todo', 1 + made, ?_, hordered', ?_, ?_⟩
      · rw [hsame, hturn]
      · rw [hsame, hexec, htodo, Option.map_map, Code.tick_comp_tick]
      · rw [hsame]
        omega
    | turn v htodo hsucc hordered' =>
      have hdone : (A.client c.turn).exec (A.evalCount rank c.turn) s = some (v, c.mem, made) := by
        rw [hexec, htodo]
        simp [Code.tick]
      have hmoves : A.turnMoves rank s₀ c.turn = made := by
        rw [Assembly.turnMoves, hturn, Option.bind_some, hdone]
        rfl
      refine ⟨c.mem, _, 0, ?_, hordered', (Option.map_id' ..).symm, ?_⟩
      · rw [hsucc, atTurn_succ hturn, hdone]
        rfl
      · rw [hsucc, Assembly.clock, hmoves]
        omega

/-- **The run is that of the nested calls**, whatever the order. -/
theorem Synced.run (hA : A.Layered rank) :
    ∀ (ts : List (Option π)) {c : Config π ν σ} {n : ℕ}, Synced A rank s₀ c n →
      Synced A rank s₀ (A.threads.final c ts) (n + A.moved c ts) := by
  intro ts
  induction ts with
  | nil => exact fun h => h
  | cons t ts ih =>
    intro c n h
    rcases hmove : A.move c t with _ | c'
    · rw [final_of_passed hmove, moved_of_passed hmove]
      exact ih h
    · have hnext := ih (h.next hA hmove)
      rw [final_of_move hmove, moved_of_move hmove]
      rwa [Nat.add_right_comm, Nat.add_assoc] at hnext

theorem Assembly.Layered.synced (hA : A.Layered rank) (s₀ : σ) (ts : List (Option π)) :
    Synced A rank s₀ (A.threads.final (A.start s₀) ts) (A.moved (A.start s₀) ts) := by
  have h := (synced_start s₀).run hA ts
  rwa [Nat.zero_add] at h

/-- **No two threads can move.** -/
theorem Synced.mover_unique (h : Synced A rank s₀ c n) (hA : A.Layered rank) {u : Option π}
    (ht : (A.move c t).isSome) (hu : (A.move c u).isSome) : t = u := by
  obtain ⟨_, _, _, _, hordered, _, _⟩ := h
  obtain ⟨t', hother, -⟩ := hordered.exists_mover hA
  have heq : ∀ {u : Option π}, (A.move c u).isSome → u = t' := by
    intro u hu
    by_contra hne
    rw [hother u hne] at hu
    cases hu
  rw [heq ht, heq hu]

/-- **Some thread can move**, if the nested calls return. -/
theorem Synced.exists_move (h : Synced A rank s₀ c n) (hA : A.Layered rank)
    (hturn : (A.atTurn rank s₀ (c.turn + 1)).isSome) : ∃ t, (A.move c t).isSome := by
  obtain ⟨s, todo, made, hat, hordered, hexec, -⟩ := h
  obtain ⟨t, -, ⟨rfl, -⟩ | ⟨c', hmove, -⟩⟩ := hordered.exists_mover hA
  · rw [atTurn_succ hat, hexec] at hturn
    cases hturn
  · exact ⟨t, by rw [hmove]; rfl⟩

/-- **The order does not matter**: after as many moves, the configuration is the same. -/
theorem Synced.final_eq (hA : A.Layered rank) :
    ∀ (ts us : List (Option π)) {c : Config π ν σ} {n : ℕ}, Synced A rank s₀ c n →
      A.moved c ts = A.moved c us → A.threads.final c ts = A.threads.final c us := by
  intro ts
  induction ts with
  | nil =>
    intro us
    induction us with
    | nil => exact fun _ _ => rfl
    | cons u us ih =>
      intro c n h hmoved
      rcases hmove : A.move c u with _ | c'
      · rw [final_of_passed hmove]
        exact ih h (hmoved.trans (moved_of_passed hmove))
      · rw [moved_of_move hmove] at hmoved
        cases hmoved
  | cons t ts ih =>
    intro us c n h hmoved
    rcases hmove : A.move c t with _ | c'
    · rw [final_of_passed hmove]
      rw [moved_of_passed hmove] at hmoved
      exact ih us h hmoved
    · rw [final_of_move hmove]
      rw [moved_of_move hmove] at hmoved
      -- the others are passed over until this thread comes up
      induction us with
      | nil => cases hmoved
      | cons u us ihus =>
        rcases hmove' : A.move c u with _ | c''
        · rw [final_of_passed hmove']
          rw [moved_of_passed hmove'] at hmoved
          exact ihus hmoved
        · have htu : t = u := h.mover_unique hA (by rw [hmove]; rfl) (by rw [hmove']; rfl)
          subst htu
          obtain rfl := Option.some.inj (hmove.symm.trans hmove')
          rw [final_of_move hmove]
          rw [moved_of_move hmove] at hmoved
          exact ih us (h.next hA hmove) (Nat.succ.inj hmoved)

/-! ## Fair orders -/

theorem moved_append : A.moved c (ts ++ us) = A.moved c ts + A.moved (A.threads.final c ts) us := by
  simp [Assembly.moved, Machine.history_append]

/-- An order that every thread is in makes a move. -/
theorem moved_pos (hall : t ∈ ts) (ht : (A.move c t).isSome) : 0 < A.moved c ts := by
  induction ts with
  | nil => cases hall
  | cons u ts ih =>
    rcases hmove : A.move c u with _ | c'
    · rw [moved_of_passed hmove]
      refine ih ?_
      rcases List.mem_cons.1 hall with rfl | hmem
      · rw [hmove] at ht
        cases ht
      · exact hmem
    · rw [moved_of_move hmove]
      exact Nat.succ_pos _

theorem turn_le_final (c : Config π ν σ) (ts : List (Option π)) :
    c.turn ≤ (A.threads.final c ts).turn := by
  refine @Machine.inv_final _ _ _ A.threads c ts (c.turn ≤ ·.turn) (le_refl c.turn)
    fun c' t h => ?_
  rcases hmove : A.move c' t with _ | c''
  · simpa [Assembly.threads, hmove] using h
  · simpa [Assembly.threads, hmove] using h.trans (turn_le_of_move hmove)

/-- A run into a later turn was at the end of this one. -/
theorem exists_turn_end :
    ∀ (ts : List (Option π)) {c : Config π ν σ}, c.turn ≤ i → i < (A.threads.final c ts).turn →
      ∃ us v, (A.threads.final c us).turn = i ∧ (A.threads.final c us).thread none = .busy (.ret v) := by
  intro ts
  induction ts with
  | nil =>
    intro c hle hlt
    rw [Machine.final_nil] at hlt
    omega
  | cons t ts ih =>
    intro c hle hlt
    rcases hmove : A.move c t with _ | c'
    · rw [final_of_passed hmove] at hlt
      exact ih hle hlt
    · rw [final_of_move hmove] at hlt
      by_cases hle' : c'.turn ≤ i
      · obtain ⟨us, v, hturn, hret⟩ := ih hle' hlt
        refine ⟨t :: us, v, ?_⟩
        rw [final_of_move hmove]
        exact ⟨hturn, hret⟩
      · rcases turn_of_move hmove with hsame | ⟨v, hret, hsucc⟩
        · omega
        · exact ⟨[], v, by rw [Machine.final_nil]; omega, hret⟩

/-- While the nested calls return, every round makes a move. -/
theorem Synced.length_le_moved (hA : A.Layered rank) (hturns : ∀ j ≤ i, (A.atTurn rank s₀ j).isSome) :
    ∀ (rounds : List (List (Option π))) {c : Config π ν σ} {n : ℕ}, Synced A rank s₀ c n →
      (∀ round ∈ rounds, ∀ t, t ∈ round) → (A.threads.final c rounds.flatten).turn < i →
        rounds.length ≤ A.moved c rounds.flatten := by
  intro rounds
  induction rounds with
  | nil => exact fun _ _ _ => Nat.zero_le _
  | cons round rounds ih =>
    intro c n h hall hlt
    obtain ⟨hround, hrounds⟩ := List.forall_mem_cons.1 hall
    rw [List.flatten_cons, Machine.final_append] at hlt
    have hturn : c.turn < i := lt_of_le_of_lt ((turn_le_final c round).trans (turn_le_final ..)) hlt
    obtain ⟨t, ht⟩ := h.exists_move hA (hturns _ hturn)
    have hfirst := moved_pos (hround t) ht
    have hrest := ih (h.run hA round) hrounds hlt
    rw [List.flatten_cons, moved_append, List.length_cons]
    omega

/-- **Every fair order gets through every turn**: `clock i` rounds are enough for the
first `i`. -/
theorem Assembly.Layered.turn_of_rounds (hA : A.Layered rank)
    (hturns : ∀ j ≤ i, (A.atTurn rank s₀ j).isSome) {rounds : List (List (Option π))}
    (hall : ∀ round ∈ rounds, ∀ t, t ∈ round) (hlen : A.clock rank s₀ i ≤ rounds.length) :
    i ≤ (A.threads.final (A.start s₀) rounds.flatten).turn := by
  by_contra hlt
  have hsynced := hA.synced s₀ rounds.flatten
  have hmoved := (synced_start s₀).length_le_moved hA hturns rounds hall (not_le.1 hlt)
  obtain ⟨-, hbound⟩ := hsynced.turn_bounds (hturns _ (not_le.1 hlt))
  have hmono : A.clock rank s₀ ((A.threads.final (A.start s₀) rounds.flatten).turn + 1) ≤
      A.clock rank s₀ i := clock_mono (by omega)
  omega

end Rpc

end HkSystem
