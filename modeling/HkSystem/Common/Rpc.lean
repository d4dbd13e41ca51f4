import HkSystem.Common.Machine
import Mathlib.Logic.Function.Basic
/-!
# Components that call each other

A component serves an interface with a thread of its own. A call is a message at
the endpoint of the interface; the caller waits, the server takes a message when
it has nothing to do, and its reply lets the caller go on. One thread is a
client: it goes through its loop and serves nobody. Any thread may move next.

The same code has a plain reading, in which a call is a call of a function
(`Code.run`). `Code.exec` is that reading with the moves counted.
-/

namespace HkSystem

namespace Rpc

/-! ## Code -/

/-- What a thread does, over interfaces `π`, messages `ν` and a memory `σ`. -/
inductive Code (π ν σ : Type) where
  /-- The reply. -/
  | ret (v : ν)
  /-- A step on the memory; how it goes on depends on what it read. -/
  | act (update : σ → σ) (next : σ → Code π ν σ)
  | call (p : π) (v : ν) (next : ν → Code π ν σ)
  /-- The thread never goes on. -/
  | fault

variable {π ν σ : Type}

namespace Code

/-- The code, with calls as function calls. -/
def run (callee : π → ν → σ → Option (ν × σ)) : Code π ν σ → σ → Option (ν × σ)
  | .ret v, s => some (v, s)
  | .act update next, s => (next s).run callee (update s)
  | .call p v next, s => (callee p v s).bind fun r => (next r.1).run callee r.2
  | .fault, _ => none

section Run

variable (callee : π → ν → σ → Option (ν × σ)) (s : σ)

@[simp] theorem run_ret (v : ν) : (ret v : Code π ν σ).run callee s = some (v, s) := rfl

@[simp] theorem run_act (update : σ → σ) (next : σ → Code π ν σ) :
    (act update next).run callee s = (next s).run callee (update s) := rfl

@[simp] theorem run_call (p : π) (v : ν) (next : ν → Code π ν σ) :
    (call p v next).run callee s =
      (callee p v s).bind fun r => (next r.1).run callee r.2 := rfl

@[simp] theorem run_fault : (fault : Code π ν σ).run callee s = none := rfl

end Run

/-- So many more moves. -/
def tick (n : ℕ) (r : ν × σ × ℕ) : ν × σ × ℕ := (r.1, r.2.1, r.2.2 + n)

/-- The code up to its reply, with the moves of all threads counted: a call takes
four of its own, to send, to receive, to reply and to go on. -/
def exec (callee : π → ν → σ → Option (ν × σ × ℕ)) : Code π ν σ → σ → Option (ν × σ × ℕ)
  | .ret v, s => some (v, s, 0)
  | .act update next, s => ((next s).exec callee (update s)).map (tick 1)
  | .call p v next, s =>
    (callee p v s).bind fun r => ((next r.1).exec callee r.2.1).map (tick (r.2.2 + 4))
  | .fault, _ => none

/-- The result without the count. -/
def uncount (r : ν × σ × ℕ) : ν × σ := (r.1, r.2.1)

@[simp] theorem uncount_tick (n : ℕ) (r : ν × σ × ℕ) : uncount (tick n r) = uncount r := rfl

@[simp] theorem tick_tick (m n : ℕ) (r : ν × σ × ℕ) : tick m (tick n r) = tick (n + m) r := by
  simp [tick, Nat.add_assoc]

@[simp] theorem tick_comp_tick (m n : ℕ) : (tick m ∘ tick n : ν × σ × ℕ → ν × σ × ℕ) = tick (n + m) :=
  funext (tick_tick m n)

/-- Counting the moves changes nothing else. -/
theorem map_exec {callee : π → ν → σ → Option (ν × σ × ℕ)} (c : Code π ν σ) (s : σ) :
    (c.exec callee s).map uncount = c.run (fun p v s => (callee p v s).map uncount) s := by
  induction c generalizing s with
  | ret v => rfl
  | act update next ih => simp [exec, run, ← ih, Function.comp_def]
  | call p v next ih =>
    rcases h : callee p v s with _ | r
    · simp [exec, run, h]
    · simp only [exec, run, h, Option.bind_some, Option.map_some, Option.map_map, ← ih]
      rfl
  | fault => rfl

/-- The code calls interfaces of a rank below `r` only. -/
inductive Below (rank : π → ℕ) (r : ℕ) : Code π ν σ → Prop
  | ret (v : ν) : Below rank r (.ret v)
  | act {update : σ → σ} {next : σ → Code π ν σ} :
      (∀ s, Below rank r (next s)) → Below rank r (.act update next)
  | call {p : π} {v : ν} {next : ν → Code π ν σ} :
      rank p < r → (∀ v, Below rank r (next v)) → Below rank r (.call p v next)
  | fault : Below rank r .fault

theorem Below.mono {rank : π → ℕ} {r r' : ℕ} {c : Code π ν σ} (hc : c.Below rank r)
    (hle : r ≤ r') : c.Below rank r' := by
  induction hc with
  | ret v => exact .ret v
  | act _ ih => exact .act ih
  | call hp _ ih => exact .call (hp.trans_le hle) ih
  | fault => exact .fault

/-- Only the callees below matter. -/
theorem Below.exec_congr {rank : π → ℕ} {r : ℕ} {f g : π → ν → σ → Option (ν × σ × ℕ)}
    {c : Code π ν σ} (hc : c.Below rank r) (h : ∀ p, rank p < r → f p = g p) (s : σ) :
    c.exec f s = c.exec g s := by
  induction hc generalizing s with
  | ret v => rfl
  | act _ ih => rw [exec, exec, ih]
  | call hp _ ih => rw [exec, exec, h _ hp]; simp only [ih]
  | fault => rfl

end Code

/-! ## Assemblies -/

/-- The code of an assembly, turn after turn of the client's loop. What it finds
outside may differ from turn to turn. -/
structure Assembly (π ν σ : Type) where
  client : ℕ → Code π ν σ
  serve : ℕ → π → ν → Code π ν σ

/-- No interface is called, directly or not, by its own handler. -/
def Assembly.Layered (A : Assembly π ν σ) (rank : π → ℕ) : Prop :=
  ∀ i p v, (A.serve i p v).Below rank (rank p)

/-- A handler as a function, up to a depth of calls. -/
def Assembly.evalTo (A : Assembly π ν σ) (i : ℕ) : ℕ → π → ν → σ → Option (ν × σ × ℕ)
  | 0, _, _, _ => none
  | depth + 1, p, v, s => (A.serve i p v).exec (A.evalTo i depth) s

variable (A : Assembly π ν σ) (rank : π → ℕ)

/-- A handler as a function, with the moves it takes. -/
def Assembly.evalCount (i : ℕ) (p : π) : ν → σ → Option (ν × σ × ℕ) := A.evalTo i (rank p + 1) p

/-- A handler as a function. -/
def Assembly.eval (i : ℕ) (p : π) (v : ν) (s : σ) : Option (ν × σ) :=
  (A.evalCount rank i p v s).map Code.uncount

variable {A rank}

/-- More depth than the rank of the interface gives the same. -/
theorem Assembly.Layered.evalTo_eq (hA : A.Layered rank) (i : ℕ) :
    ∀ {r m n : ℕ} {p : π}, rank p ≤ r → rank p < m → rank p < n →
      A.evalTo i m p = A.evalTo i n p := by
  intro r
  induction r with
  | zero =>
    intro m n p hr hm hn
    obtain ⟨m, rfl⟩ := Nat.exists_eq_succ_of_ne_zero (by omega : m ≠ 0)
    obtain ⟨n, rfl⟩ := Nat.exists_eq_succ_of_ne_zero (by omega : n ≠ 0)
    funext v s
    exact (hA i p v).exec_congr (fun q hq => by omega) s
  | succ r ih =>
    intro m n p hr hm hn
    obtain ⟨m, rfl⟩ := Nat.exists_eq_succ_of_ne_zero (by omega : m ≠ 0)
    obtain ⟨n, rfl⟩ := Nat.exists_eq_succ_of_ne_zero (by omega : n ≠ 0)
    funext v s
    exact (hA i p v).exec_congr
      (fun q hq => ih (by omega : rank q ≤ r) (by omega) (by omega)) s

/-- **A handler calls the others as functions.** -/
theorem Assembly.Layered.evalCount_eq (hA : A.Layered rank) (i : ℕ) (p : π) (v : ν) (s : σ) :
    A.evalCount rank i p v s = (A.serve i p v).exec (A.evalCount rank i) s := by
  refine (hA i p v).exec_congr (fun q hq => ?_) s
  exact hA.evalTo_eq i (le_refl (rank q)) hq (Nat.lt_succ_self _)

/-- **A handler evaluates to its code**, with its calls evaluated. -/
theorem Assembly.Layered.eval_eq (hA : A.Layered rank) (i : ℕ) (p : π) (v : ν) (s : σ) :
    A.eval rank i p v s = (A.serve i p v).run (A.eval rank i) s := by
  rw [Assembly.eval, hA.evalCount_eq, Code.map_exec]
  rfl

/-- The memory at the start of each turn, if calls are function calls. -/
def Assembly.atTurn (A : Assembly π ν σ) (rank : π → ℕ) (s₀ : σ) : ℕ → Option σ
  | 0 => some s₀
  | i + 1 => (A.atTurn rank s₀ i).bind fun s => ((A.client i).run (A.eval rank i) s).map Prod.snd

/-- What every turn keeps holds at every turn. -/
theorem atTurn_induction {s₀ : σ} {P : ℕ → σ → Prop} (h₀ : P 0 s₀)
    (hturn : ∀ i s s', P i s → ((A.client i).run (A.eval rank i) s).map Prod.snd = some s' →
      P (i + 1) s') : ∀ {n : ℕ} {s : σ}, A.atTurn rank s₀ n = some s → P n s := by
  intro n
  induction n with
  | zero =>
    intro s h
    cases h
    exact h₀
  | succ n ih =>
    intro s' h
    obtain ⟨s, hs, hrun⟩ := Option.bind_eq_some_iff.1 h
    exact hturn n s s' (ih hs) hrun

/-! ## Threads and messages -/

/-- Where a thread is. -/
inductive Thread (π ν σ : Type) where
  /-- Waiting for a call. -/
  | idle
  | busy (code : Code π ν σ)
  /-- Waiting for the reply of an interface. -/
  | waiting (p : π) (next : ν → Code π ν σ)

/-- The client's thread is `none`, an interface's is `some`. -/
structure Config (π ν σ : Type) where
  mem : σ
  /-- How often the client has gone through its loop. -/
  turn : ℕ
  thread : Option π → Thread π ν σ
  /-- The calls at an endpoint, with who waits for the reply. -/
  calls : π → List (Option π × ν)
  /-- Whose call an interface has taken last. -/
  caller : π → Option π
  reply : Option π → Option ν

variable [DecidableEq π] (A)

/-- A thread moves, if it can. -/
def Assembly.move (c : Config π ν σ) (t : Option π) : Option (Config π ν σ) :=
  match c.thread t with
  | .idle =>
    match t with
    | none => none
    | some p =>
      match c.calls p with
      | [] => none
      | (caller, v) :: rest =>
        some { c with
          thread := Function.update c.thread t (.busy (A.serve c.turn p v))
          calls := Function.update c.calls p rest
          caller := Function.update c.caller p caller }
  | .busy (.ret v) =>
    match t with
    | none =>
      some { c with
        turn := c.turn + 1
        thread := Function.update c.thread t (.busy (A.client (c.turn + 1))) }
    | some p =>
      some { c with
        thread := Function.update c.thread t .idle
        reply := Function.update c.reply (c.caller p) (some v) }
  | .busy (.act update next) =>
    some { c with
      mem := update c.mem
      thread := Function.update c.thread t (.busy (next c.mem)) }
  | .busy (.call p v next) =>
    some { c with
      thread := Function.update c.thread t (.waiting p next)
      calls := Function.update c.calls p (c.calls p ++ [(t, v)]) }
  | .busy .fault => none
  | .waiting _ next =>
    match c.reply t with
    | none => none
    | some v =>
      some { c with
        thread := Function.update c.thread t (.busy (next v))
        reply := Function.update c.reply t none }

section Move

variable {A} {c : Config π ν σ} {t : Option π} {p : π} {v : ν}

/-- A step on the memory. -/
theorem move_act {update : σ → σ} {next : σ → Code π ν σ}
    (h : c.thread t = .busy (.act update next)) :
    A.move c t = some { c with
      mem := update c.mem
      thread := Function.update c.thread t (.busy (next c.mem)) } := by
  simp only [Assembly.move, h]

/-- A call is put at the endpoint, and the thread waits. -/
theorem move_call {next : ν → Code π ν σ} (h : c.thread t = .busy (.call p v next)) :
    A.move c t = some { c with
      thread := Function.update c.thread t (.waiting p next)
      calls := Function.update c.calls p (c.calls p ++ [(t, v)]) } := by
  simp only [Assembly.move, h]

/-- A handler that is through replies to its caller. -/
theorem move_reply (h : c.thread (some p) = .busy (.ret v)) :
    A.move c (some p) = some { c with
      thread := Function.update c.thread (some p) .idle
      reply := Function.update c.reply (c.caller p) (some v) } := by
  simp only [Assembly.move, h]

/-- A client that is through goes on to its next turn. -/
theorem move_turn (h : c.thread none = .busy (.ret v)) :
    A.move c none = some { c with
      turn := c.turn + 1
      thread := Function.update c.thread none (.busy (A.client (c.turn + 1))) } := by
  simp only [Assembly.move, h]

/-- A handler takes the first call at its endpoint. -/
theorem move_receive {rest : List (Option π × ν)} (h : c.thread (some p) = .idle)
    (hcalls : c.calls p = (t, v) :: rest) :
    A.move c (some p) = some { c with
      thread := Function.update c.thread (some p) (.busy (A.serve c.turn p v))
      calls := Function.update c.calls p rest
      caller := Function.update c.caller p t } := by
  simp only [Assembly.move, h, hcalls]

/-- A caller goes on with the reply. -/
theorem move_resume {next : ν → Code π ν σ} (h : c.thread t = .waiting p next)
    (hreply : c.reply t = some v) :
    A.move c t = some { c with
      thread := Function.update c.thread t (.busy (next v))
      reply := Function.update c.reply t none } := by
  simp only [Assembly.move, h, hreply]

theorem move_fault (h : c.thread t = .busy .fault) : A.move c t = none := by
  simp only [Assembly.move, h]

/-- **Only the client's own move ends a turn**, when it has nothing left to do in it. -/
theorem turn_of_move {c' : Config π ν σ} (h : A.move c t = some c') :
    c'.turn = c.turn ∨ ∃ v, c.thread none = .busy (.ret v) ∧ c'.turn = c.turn + 1 := by
  unfold Assembly.move at h
  split at h
  next =>
    split at h
    · cases h
    · split at h
      · cases h
      · cases h
        exact .inl rfl
  next v hbusy =>
    split at h
    · cases h
      exact .inr ⟨v, hbusy, rfl⟩
    · cases h
      exact .inl rfl
  next =>
    cases h
    exact .inl rfl
  next =>
    cases h
    exact .inl rfl
  next => cases h
  next =>
    split at h
    · cases h
    · cases h
      exact .inl rfl

/-- Turns do not go back. -/
theorem turn_le_of_move {c' : Config π ν σ} (h : A.move c t = some c') : c.turn ≤ c'.turn := by
  rcases turn_of_move h with hturn | ⟨v, -, hturn⟩ <;> omega

/-- A thread without a message to take cannot move. -/
theorem move_eq_none (h : c.thread t = .idle ∨ ∃ p next, c.thread t = .waiting p next)
    (hcalls : ∀ p, t = some p → c.calls p = []) (hreply : c.reply t = none) :
    A.move c t = none := by
  unfold Assembly.move
  rcases h with hidle | ⟨p, next, hwait⟩
  · rw [hidle]
    cases t with
    | none => rfl
    | some p => simp only [hcalls p rfl]
  · simp only [hwait, hreply]

end Move

/-- The threads in any order. A thread that cannot move is passed over; the answer
says whether it moved. -/
def Assembly.threads : Machine (Config π ν σ) (Option π) Bool :=
  ⟨fun c t => ((A.move c t).getD c, (A.move c t).isSome)⟩

/-- The client at the start of its loop, all servers idle. -/
def Assembly.start (s₀ : σ) : Config π ν σ where
  mem := s₀
  turn := 0
  thread t := if t = none then .busy (A.client 0) else .idle
  calls _ := []
  caller _ := none
  reply _ := none

end Rpc

end HkSystem
