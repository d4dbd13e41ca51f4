import HkSystem.Common.Ssa
/-!
# Refinement of SSA functions

When one function may stand for another (`Refines`): on every input, each of
its runs, of any length, goes through the same blocks and has the same effects
as a run of the other, and ends the same way, unless the other may run into
undefined behaviour before that. It does not get stuck where the other goes on.
Refinements compose (`Refines.trans`), so a pass that changes a function many
times is shown to refine one change at a time.
-/

namespace HkSystem

namespace Ssa

variable {κ ο α μ η : Type} [Preorder α]

/-! ## Lawful semantics -/

/-- Pointwise relations compose. -/
theorem forall₂_trans {β : Type} {R : β → β → Prop} (hR : ∀ a b c, R a b → R b c → R a c)
    {l₁ l₂ : List β} (h : List.Forall₂ R l₁ l₂) :
    ∀ {l₃ : List β}, List.Forall₂ R l₂ l₃ → List.Forall₂ R l₁ l₃ := by
  induction h with
  | nil => intro l₃ h'; exact h'
  | cons hab _ ih =>
    intro l₃ h'
    cases h' with
    | cons hbc h' => exact .cons (hR _ _ _ hab hbc) (ih h')

/-- The same action, on values at least as definite. -/
def Effect.Le (e e' : Effect η α) : Prop :=
  e.name = e'.name ∧ List.Forall₂ (· ≤ ·) e.args e'.args

theorem Effect.Le.refl (e : Effect η α) : e.Le e :=
  ⟨rfl, List.forall₂_same.2 fun v _ => le_refl v⟩

theorem Effect.Le.trans (e₁ e₂ e₃ : Effect η α) (h : e₁.Le e₂) (h' : e₂.Le e₃) : e₁.Le e₃ :=
  ⟨h.1.trans h'.1, forall₂_trans (R := (· ≤ ·)) (fun _ _ _ => le_trans) h.2 h'.2⟩

/-- The same actions in the same order. -/
def EffsLe : List (Effect η α) → List (Effect η α) → Prop := List.Forall₂ Effect.Le

theorem EffsLe.refl (effs : List (Effect η α)) : EffsLe effs effs :=
  List.forall₂_same.2 fun e _ => .refl e

theorem EffsLe.trans {effs effs' effs'' : List (Effect η α)} (h : EffsLe effs effs')
    (h' : EffsLe effs' effs'') : EffsLe effs effs'' :=
  forall₂_trans Effect.Le.trans h h'

theorem EffsLe.append {effs effs' more more' : List (Effect η α)} (h : EffsLe effs effs')
    (h' : EffsLe more more') : EffsLe (effs ++ more) (effs' ++ more') :=
  List.rel_append h h'

/-- The same actions up to some point of the second list. -/
def EffsUpTo (effs effs' : List (Effect η α)) : Prop := ∃ k, EffsLe effs (effs'.take k)

theorem EffsUpTo.append {effs effs' more more' : List (Effect η α)} (h : EffsLe effs effs')
    (h' : EffsUpTo more more') : EffsUpTo (effs ++ more) (effs' ++ more') := by
  obtain ⟨k, hk⟩ := h'
  refine ⟨effs'.length + k, ?_⟩
  rw [List.take_append, List.take_of_length_le (Nat.le_add_right ..), Nat.add_sub_cancel_left]
  exact h.append hk

theorem EffsUpTo.append_right {effs effs' : List (Effect η α)} (h : EffsUpTo effs effs')
    (more' : List (Effect η α)) : EffsUpTo effs (effs' ++ more') := by
  obtain ⟨k, hk⟩ := h
  refine ⟨min k effs'.length, ?_⟩
  rw [List.take_append_of_le_length (Nat.min_le_right ..), ← List.take_take, List.take_length]
  exact hk

theorem EffsUpTo.trans {effs effs' effs'' : List (Effect η α)} (h : EffsUpTo effs effs')
    (h' : EffsUpTo effs' effs'') : EffsUpTo effs effs'' := by
  obtain ⟨k, hk⟩ := h
  obtain ⟨k', hk'⟩ := h'
  refine ⟨min k k', ?_⟩
  rw [← List.take_take]
  exact hk.trans (List.forall₂_take k hk')

theorem EffsLe.upTo {effs effs' : List (Effect η α)} (h : EffsLe effs effs') :
    EffsUpTo effs effs' :=
  ⟨effs'.length, by rwa [List.take_length]⟩

section Lawful

variable [Preorder μ]

inductive Outcome.Le : Outcome α μ → Outcome α μ → Prop
  | next {v v' : Value α} {m m' : μ} : v ≤ v' → m ≤ m' → Le (.next v m) (.next v' m')
  | goto {label : ℕ} {m m' : μ} : m ≤ m' → Le (.goto label m) (.goto label m')
  | ret {v v' : Value α} {m m' : μ} : v ≤ v' → m ≤ m' → Le (.ret v m) (.ret v' m')
  | halt {m m' : μ} : m ≤ m' → Le (.halt m) (.halt m')

/-- **The law of refinement for single instructions**: on more definite operands
an instruction does nothing it could not have done before, unless it had
undefined behaviour before, and it does not get stuck. -/
structure Semantics.Lawful (sem : Semantics κ ο α μ η) : Prop where
  refine : ∀ {o : ο} {vs vs' : List (Value α)} {m m' : μ} {effs' : List (Effect η α)}
    {out' : Outcome α μ}, List.Forall₂ (· ≤ ·) vs vs' → m ≤ m' → sem.exec o vs' m' effs' out' →
      (∃ effs, sem.exec o vs m effs .ub ∧ EffsUpTo effs effs') ∨
        ∃ effs out, sem.exec o vs m effs out ∧ EffsLe effs effs' ∧ Outcome.Le out out'
  progress : ∀ {o : ο} {vs vs' : List (Value α)} {m m' : μ} {effs : List (Effect η α)}
    {out : Outcome α μ}, List.Forall₂ (· ≤ ·) vs vs' → m ≤ m' → sem.exec o vs m effs out →
      ∃ effs' out', sem.exec o vs' m' effs' out'

end Lawful

variable {sem : Semantics κ ο α μ η} {args : ℕ → Value α}

/-! ## Safety -/

variable (sem args) in
/-- **No undefined behaviour and no dead end**, whatever the instructions of the
body do. -/
def Safe : List (Inst κ ο) → Env α → μ → Prop
  | [], _, _ => False
  | .bin id k w nsw nuw a b :: rest, env, m =>
    Safe rest (Function.update env id
      (evalBin k w nsw nuw (eval sem args env a) (eval sem args env b))) m
  | .other id o operands :: rest, env, m =>
    (∃ effs out, sem.exec o (operands.map (eval sem args env)) m effs out) ∧
    (∀ effs, ¬ sem.exec o (operands.map (eval sem args env)) m effs .ub) ∧
    ∀ effs v m', sem.exec o (operands.map (eval sem args env)) m effs (.next v m') →
      Safe rest (Function.update env id v) m'

variable (sem args) in
/-- A block can be entered and is safe. -/
def SafeAt (F : Blocks κ ο) (s : Entry α μ) : Prop :=
  ∃ b env, Blocks.find F s.label = some b ∧ enterPhis sem args s.before s.env b.phis = some env ∧
    Safe sem args b.body env s.mem

omit [Preorder α] in
/-- A safe body comes to an end. -/
theorem Safe.exists_exec : ∀ {body : List (Inst κ ο)} {env : Env α} {m : μ},
    Safe sem args body env m → ∃ effs e, Exec sem args body env m effs e
  | .bin .. :: _, _, _, h => by
    obtain ⟨effs, e, hexec⟩ := Safe.exists_exec (by rwa [Safe] at h)
    exact ⟨effs, e, .bin hexec⟩
  | .other .. :: _, _, _, h => by
    obtain ⟨⟨effs, out, hexec⟩, hub, hnext⟩ := h
    cases out with
    | next v m' =>
      obtain ⟨more, e, hrest⟩ := Safe.exists_exec (hnext effs v m' hexec)
      exact ⟨_, e, .next hexec hrest⟩
    | goto label m' => exact ⟨_, _, .goto hexec⟩
    | ret v m' => exact ⟨_, _, .ret hexec⟩
    | halt m' => exact ⟨_, _, .halt hexec⟩
    | ub => exact absurd hexec (hub effs)

section Refinement

variable [Preorder μ]

/-! ## Refinement -/

variable (sem args) in
/-- **What an observer compares** of two runs: the same place, the value
returned, the memory. If the run can go on safely on the one side, it can on
the other. -/
inductive Final.Le (F F' : Blocks κ ο) : Final α μ → Final α μ → Prop
  | running {s s' : Entry α μ} : s.before = s'.before → s.label = s'.label → s.mem ≤ s'.mem →
      (SafeAt sem args F s → SafeAt sem args F' s') → Final.Le F F' (.running s) (.running s')
  | ret {v v' : Value α} {m m' : μ} : v ≤ v' → m ≤ m' → Final.Le F F' (.ret v m) (.ret v' m')
  | halt {m m' : μ} : m ≤ m' → Final.Le F F' (.halt m) (.halt m')

variable (sem args) in
/-- A run on one side that is accounted for on the other: there is a run
through the same blocks with the same effects that ends the same way, or one
that runs into undefined behaviour on the way. -/
def Accounted (F F' : Blocks κ ο) (s : Entry α μ) (path : List ℕ) (effs' : List (Effect η α))
    (final' : Final α μ) : Prop :=
  (∃ path₀ effs, Runs sem args F s path₀ effs .ub ∧ path₀ <+: path ∧ EffsUpTo effs effs') ∨
    ∃ effs final, Runs sem args F s path effs final ∧ EffsLe effs effs' ∧
      Final.Le sem args F F' final final'

variable (sem) in
/-- **Refinement**: on every input, every run of the second function is accounted
for by the first. -/
def Refines (F F' : Blocks κ ο) : Prop :=
  ∀ (args : ℕ → Value α) (m : μ) (path : List ℕ) (effs' : List (Effect η α)) (final' : Final α μ),
    Runs sem args F' (start F' m) path effs' final' →
      Accounted sem args F F' (start F m) path effs' final'

theorem Accounted.of_block_ub {F F' : Blocks κ ο} {s : Entry α μ} {label : ℕ} {path : List ℕ}
    {effs effs' : List (Effect η α)} {final' : Final α μ} (hlabel : s.label = label)
    (hub : BlockExec sem args F s effs .ub) (hupto : EffsUpTo effs effs') :
    Accounted sem args F F' s (label :: path) effs' final' := by
  subst hlabel
  exact Or.inl ⟨[s.label], effs, .ub hub, ⟨path, rfl⟩, hupto⟩

theorem Refines.refl (F : Blocks κ ο) : Refines sem F F := by
  intro args m path effs final h
  cases final with
  | running s => exact Or.inr ⟨effs, _, h, .refl effs, .running rfl rfl (le_refl _) id⟩
  | ret v m' => exact Or.inr ⟨effs, _, h, .refl effs, .ret (le_refl v) (le_refl m')⟩
  | halt m' => exact Or.inr ⟨effs, _, h, .refl effs, .halt (le_refl m')⟩
  | ub => exact Or.inl ⟨path, effs, h, List.prefix_rfl, (EffsLe.refl effs).upTo⟩

theorem Final.Le.trans {F F' F'' : Blocks κ ο} {f f' f'' : Final α μ}
    (h : Final.Le sem args F F' f f') (h' : Final.Le sem args F' F'' f' f'') :
    Final.Le sem args F F'' f f'' := by
  cases h with
  | running hbefore hlabel hmem hsafe =>
    cases h' with
    | running hbefore' hlabel' hmem' hsafe' =>
      exact .running (hbefore.trans hbefore') (hlabel.trans hlabel') (hmem.trans hmem')
        fun hs => hsafe' (hsafe hs)
  | ret hv hm =>
    cases h' with
    | ret hv' hm' => exact .ret (hv.trans hv') (hm.trans hm')
  | halt hm =>
    cases h' with
    | halt hm' => exact .halt (hm.trans hm')

/-- No run into undefined behaviour is accounted for but by another. -/
theorem Accounted.of_ub {F F' : Blocks κ ο} {s : Entry α μ} {path : List ℕ}
    {effs' : List (Effect η α)} (h : Accounted sem args F F' s path effs' .ub) :
    ∃ path₀ effs, Runs sem args F s path₀ effs .ub ∧ path₀ <+: path ∧ EffsUpTo effs effs' := by
  rcases h with h | ⟨_, _, _, _, hfinal⟩
  · exact h
  · cases hfinal

/-- **Refinements compose.** -/
theorem Refines.trans {F F' F'' : Blocks κ ο} (h : Refines sem F F') (h' : Refines sem F' F'') :
    Refines sem F F'' := by
  intro args m path effs'' final'' hruns
  rcases h' args m path effs'' final'' hruns with
    ⟨path₁, effs', hub, hpath, hupto⟩ | ⟨effs', final', hruns', heffs', hfinal'⟩
  · obtain ⟨path₀, effs, hub₀, hpath₀, hupto₀⟩ := (h args m path₁ effs' .ub hub).of_ub
    exact Or.inl ⟨path₀, effs, hub₀, hpath₀.trans hpath, hupto₀.trans hupto⟩
  · rcases h args m path effs' final' hruns' with
      ⟨path₀, effs, hub, hpath, hupto⟩ | ⟨effs, final, hruns₀, heffs, hfinal⟩
    · exact Or.inl ⟨path₀, effs, hub, hpath, hupto.trans heffs'.upTo⟩
    · exact Or.inr ⟨effs, final, hruns₀, heffs.trans heffs', hfinal.trans hfinal'⟩

section

variable {F F' : Blocks κ ο} (h : Refines sem F F') {m : μ}
  (hub : ∀ path effs, ¬ Runs sem args F (start F m) path effs .ub)
  {path : List ℕ} {effs' : List (Effect η α)}

include h hub

/-- **Without undefined behaviour, what is returned is what the original
returns.** -/
theorem Refines.ret {v' : Value α} {m' : μ}
    (hruns : Runs sem args F' (start F' m) path effs' (.ret v' m')) :
    ∃ effs v m₀, Runs sem args F (start F m) path effs (.ret v m₀) ∧ EffsLe effs effs' ∧
      v ≤ v' ∧ m₀ ≤ m' := by
  rcases h args m path effs' _ hruns with ⟨path₀, effs, hbad, -⟩ | ⟨effs, _, hruns₀, heffs, hfinal⟩
  · exact absurd hbad (hub path₀ effs)
  · cases hfinal with
    | ret hv hm => exact ⟨effs, _, _, hruns₀, heffs, hv, hm⟩

/-- **And the run goes on where the original goes on.** -/
theorem Refines.progress {s' : Entry α μ}
    (hruns : Runs sem args F' (start F' m) path effs' (.running s')) :
    ∃ effs s, Runs sem args F (start F m) path effs (.running s) ∧ EffsLe effs effs' ∧
      s.label = s'.label ∧ s.mem ≤ s'.mem ∧
      (SafeAt sem args F s → ∃ more e, BlockExec sem args F' s' more e) := by
  rcases h args m path effs' _ hruns with ⟨path₀, effs, hbad, -⟩ | ⟨effs, _, hruns₀, heffs, hfinal⟩
  · exact absurd hbad (hub path₀ effs)
  · cases hfinal with
    | running hbefore hlabel hmem hsafe =>
      refine ⟨effs, _, hruns₀, heffs, hlabel, hmem, fun hs => ?_⟩
      obtain ⟨b, env, hfind, hphis, hbody⟩ := hsafe hs
      obtain ⟨more, e, hexec⟩ := hbody.exists_exec
      exact ⟨more, e, b, env, hfind, hphis, hexec⟩

end

end Refinement

end Ssa

end HkSystem
