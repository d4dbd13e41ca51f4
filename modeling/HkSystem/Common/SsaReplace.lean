import HkSystem.Common.SsaRefinement
import Mathlib.Data.List.Nodup
import Mathlib.Tactic.MkIffOfInductiveProp
/-!
# Replacing an instruction

An arithmetic instruction may be replaced by a sequence that computes something
at least as definite, if its uses are replaced by the result of the sequence:
the function that comes out refines the one before (`refines_replace`) and is
in static single assignment form again (`Blocks.WellFormed.replace`).

The simulation behind the rule relates the results of the two functions by the
replacement itself: what one has under a name, the other has in the operand
that stands for that name.
-/

namespace HkSystem

namespace Ssa

variable {κ ο α μ η : Type} [Preorder α]

/-! ## Replacing operands -/

/-- An operand with the results it names replaced. -/
def Operand.bind (σ : ℕ → Operand κ) : Operand κ → Operand κ
  | .inst id => σ id
  | a => a

/-- One result replaced by an operand. -/
def single (x : ℕ) (r : Operand κ) (id : ℕ) : Operand κ := if id = x then r else .inst id

/-- The operand names only results below `n`. -/
def Operand.Below (n : ℕ) : Operand κ → Prop
  | .inst id => id < n
  | _ => True

/-- The instruction with its operands substituted; its own name stays. -/
def Inst.bind (σ : ℕ → Operand κ) : Inst κ ο → Inst κ ο
  | .bin id k w nsw nuw a b => .bin id k w nsw nuw (a.bind σ) (b.bind σ)
  | .other id o operands => .other id o (operands.map (·.bind σ))

/-- The phi with its incoming operands substituted. -/
def Phi.bind (σ : ℕ → Operand κ) (p : Phi κ) : Phi κ :=
  ⟨p.id, p.incoming.map fun q => (q.1, q.2.bind σ)⟩

/-- The block with every operand substituted, that of its terminator too. -/
def Block.bind (σ : ℕ → Operand κ) (b : Block κ ο) : Block κ ο :=
  ⟨b.label, b.phis.map (·.bind σ), b.body.map (·.bind σ)⟩

/-- The body with one instruction replaced by a sequence. -/
def expand (x : ℕ) (seq body : List (Inst κ ο)) : List (Inst κ ο) :=
  body.flatMap fun i => if i.id = x then seq else [i]

/-- Only the instruction of that name is expanded. -/
theorem expand_cons (x : ℕ) (seq : List (Inst κ ο)) (i : Inst κ ο) (body : List (Inst κ ο))
    (σ : ℕ → Operand κ) : (expand x seq (i :: body)).map (·.bind σ) =
      (if i.id = x then seq.map (·.bind σ) else [i.bind σ]) ++
        (expand x seq body).map (·.bind σ) := by
  rw [expand, List.flatMap_cons, List.map_append, apply_ite (List.map _), List.map_singleton,
    expand]

/-- Where the name is not defined, nothing is expanded. -/
theorem expand_of_notMem {x : ℕ} {seq body : List (Inst κ ο)} (h : x ∉ body.map Inst.id) :
    expand x seq body = body := by
  have hsingle : expand x seq body = body.flatMap fun i => [i] :=
    List.flatMap_congr fun i hi => if_neg fun hid => h (List.mem_map.2 ⟨i, hi, hid⟩)
  rw [hsingle, List.flatMap_singleton']

/-- **An instruction replaced by a sequence, and its uses by an operand.** -/
def Block.replace (x : ℕ) (seq : List (Inst κ ο)) (r : Operand κ) (b : Block κ ο) : Block κ ο :=
  Block.bind (single x r) { b with body := expand x seq b.body }

/-- The replacement in every block, of which one has the instruction. -/
def Blocks.replace (F : Blocks κ ο) (x : ℕ) (seq : List (Inst κ ο)) (r : Operand κ) :
    Blocks κ ο :=
  F.map (Block.replace x seq r)

/-- A block without the instruction is only substituted in. -/
theorem Block.replace_of_notMem {x : ℕ} {b : Block κ ο} (h : x ∉ b.body.map Inst.id)
    (seq : List (Inst κ ο)) (r : Operand κ) : b.replace x seq r = b.bind (single x r) := by
  rw [Block.replace, expand_of_notMem h]

/-- All names are below `n`. -/
@[mk_iff]
structure Inst.Below (n : ℕ) (i : Inst κ ο) : Prop where
  id : i.id < n
  operands : ∀ a ∈ i.operands, a.Below n

/-- Those of a phi are. -/
@[mk_iff]
structure Phi.Below (n : ℕ) (p : Phi κ) : Prop where
  id : p.id < n
  operands : ∀ q ∈ p.incoming, q.2.Below n

/-- Those of a block's phis and of its body are. -/
@[mk_iff]
structure Block.Below (n : ℕ) (b : Block κ ο) : Prop where
  phis : ∀ p ∈ b.phis, p.Below n
  body : ∀ i ∈ b.body, i.Below n

/-- What a block may contain for the instruction to be replaced: names below
`n`, and no other instruction under its name. -/
structure Block.Replaceable (n : ℕ) (I : Inst κ ο) (b : Block κ ο) : Prop where
  phis : ∀ p ∈ b.phis, p.Below n ∧ p.id ≠ I.id
  body : ∀ i ∈ b.body, i.Below n ∧ (i.id = I.id → i = I)

/-- **Static single assignment**: no name is defined twice, and `n` is above all
of them. -/
@[mk_iff]
structure Blocks.WellFormed (F : Blocks κ ο) (n : ℕ) : Prop where
  below : ∀ b ∈ F, b.Below n
  unique : (F.flatMap Block.ids).Nodup

section Names

variable {n n' x : ℕ} {r : Operand κ}

@[simp] theorem Inst.id_bind (σ : ℕ → Operand κ) (i : Inst κ ο) : (i.bind σ).id = i.id := by
  cases i <;> rfl

/-- A substitution keeps to the larger bound. -/
theorem Operand.Below.single {a : Operand κ} (h : a.Below n) (hn : n ≤ n') (hr : r.Below n') :
    (a.bind (single x r)).Below n' := by
  cases a with
  | inst id =>
    have hid : id < n := h
    simp only [Operand.bind, Ssa.single]
    split
    · exact hr
    · exact lt_of_lt_of_le hid hn
  | arg i => trivial
  | const c => trivial

/-- A name that stands after a replacement stood before, or came with it. -/
theorem Operand.Below.of_bind_single {a : Operand κ} (h : a.Below n) {id : ℕ}
    (ha : a.bind (Ssa.single x r) = .inst id) : id < n ∨ r = .inst id := by
  cases a with
  | inst j =>
    simp only [Operand.bind, Ssa.single] at ha
    split at ha
    · exact Or.inr ha
    · obtain rfl := Operand.inst.inj ha
      exact Or.inl h
  | arg i => cases ha
  | const c => cases ha

theorem Inst.Below.single {i : Inst κ ο} (h : i.Below n) (hn : n ≤ n') (hr : r.Below n') :
    (i.bind (single x r)).Below n' := by
  refine ⟨by rw [Inst.id_bind]; exact lt_of_lt_of_le h.id hn, fun a' ha' => ?_⟩
  have hmap : (i.bind (Ssa.single x r)).operands = i.operands.map (·.bind (Ssa.single x r)) := by
    cases i <;> rfl
  rw [hmap] at ha'
  obtain ⟨a, ha, rfl⟩ := List.mem_map.1 ha'
  exact (h.operands a ha).single hn hr

/-- **A replacement keeps to the larger bound.** -/
theorem Block.Below.replace {b : Block κ ο} (h : b.Below n) (hn : n ≤ n') {seq : List (Inst κ ο)}
    (hseq : ∀ i ∈ seq, i.Below n') (hr : r.Below n') : (b.replace x seq r).Below n' := by
  refine ⟨fun p' hp' => ?_, fun i' hi' => ?_⟩
  · obtain ⟨p, hp, rfl⟩ := List.mem_map.1 hp'
    refine ⟨lt_of_lt_of_le (h.phis p hp).id hn, fun q' hq' => ?_⟩
    obtain ⟨q, hq, rfl⟩ := List.mem_map.1 hq'
    exact ((h.phis p hp).operands q hq).single hn hr
  · obtain ⟨i, hi, rfl⟩ := List.mem_map.1 hi'
    obtain ⟨j, hj, hi⟩ := List.mem_flatMap.1 hi
    split at hi
    · exact (hseq i hi).single (le_refl n') hr
    · rw [List.mem_singleton.1 hi]
      exact (h.body j hj).single hn hr

theorem Block.Below.lt_of_mem_ids {b : Block κ ο} (h : b.Below n) {id : ℕ} (hid : id ∈ b.ids) :
    id < n := by
  rcases List.mem_append.1 hid with hid | hid
  · obtain ⟨p, hp, rfl⟩ := List.mem_map.1 hid
    exact (h.phis p hp).id
  · obtain ⟨i, hi, rfl⟩ := List.mem_map.1 hid
    exact (h.body i hi).id

/-- The names a block defines after a replacement: those of the sequence for the one
replaced. -/
theorem Block.ids_replace {b : Block κ ο} (hphis : ∀ p ∈ b.phis, p.id ≠ x)
    (seq : List (Inst κ ο)) (r : Operand κ) : (b.replace x seq r).ids =
      b.ids.flatMap fun id => if id = x then seq.map Inst.id else [id] := by
  have hphi : (b.phis.map Phi.id).flatMap (fun id => if id = x then seq.map Inst.id else [id]) =
      b.phis.map Phi.id := by
    rw [List.flatMap_map, ← List.flatMap_pure_eq_map Phi.id]
    exact List.flatMap_congr fun p hp => if_neg (hphis p hp)
  have hbody : (b.body.map Inst.id).flatMap (fun id => if id = x then seq.map Inst.id else [id]) =
      (expand x seq b.body).map Inst.id := by
    rw [List.flatMap_map, expand, List.map_flatMap]
    refine List.flatMap_congr fun i _ => ?_
    rw [apply_ite (List.map Inst.id), List.map_singleton]
  rw [Block.ids, Block.ids, List.flatMap_append, hphi, hbody]
  simp [Block.replace, Block.bind, Phi.bind, Function.comp_def]

theorem Operand.Below.mono {a : Operand κ} (h : a.Below n) (hn : n ≤ n') : a.Below n' := by
  cases a with
  | inst id => exact lt_of_lt_of_le h hn
  | arg i => trivial
  | const c => trivial

theorem Inst.Below.mono {i : Inst κ ο} (h : i.Below n) (hn : n ≤ n') : i.Below n' :=
  ⟨lt_of_lt_of_le h.id hn, fun a ha => (h.operands a ha).mono hn⟩

end Names

section Decidable

variable {n : ℕ}

instance : DecidablePred (Operand.Below n : Operand κ → Prop)
  | .inst id => inferInstanceAs (Decidable (id < n))
  | .arg _ => .isTrue trivial
  | .const _ => .isTrue trivial

instance (i : Inst κ ο) : Decidable (i.Below n) := decidable_of_iff' _ (Inst.below_iff n i)

instance (p : Phi κ) : Decidable (p.Below n) := decidable_of_iff' _ (Phi.below_iff n p)

instance (b : Block κ ο) : Decidable (b.Below n) := decidable_of_iff' _ (Block.below_iff n b)

instance (F : Blocks κ ο) : Decidable (F.WellFormed n) :=
  decidable_of_iff' _ (Blocks.wellFormed_iff F n)

end Decidable

namespace Blocks.WellFormed

variable {F : Blocks κ ο} {n n' x : ℕ}

/-- A name stands for one instruction. -/
theorem replaceable (hF : F.WellFormed n) {B : Block κ ο} (hB : B ∈ F) {I : Inst κ ο}
    (hI : I ∈ B.body) : ∀ B' ∈ F, B'.Replaceable n I := by
  -- the definitions of the function, of which the names are the image
  let defs (b : Block κ ο) : List (Phi κ ⊕ Inst κ ο) := b.phis.map .inl ++ b.body.map .inr
  have hids : F.flatMap Block.ids = (F.flatMap defs).map (Sum.elim Phi.id Inst.id) := by
    rw [List.map_flatMap]
    refine List.flatMap_congr fun b _ => ?_
    simp [defs, Block.ids]
  have hinj := List.inj_on_of_nodup_map (hids ▸ hF.unique)
  have hmemI : Sum.inr I ∈ F.flatMap defs := List.mem_flatMap.2 ⟨B, hB, by simp [defs, hI]⟩
  intro B' hB'
  refine ⟨fun p hp => ⟨(hF.below B' hB').phis p hp, fun heq => ?_⟩,
    fun i hi => ⟨(hF.below B' hB').body i hi, fun heq => ?_⟩⟩
  · have hmem : Sum.inl p ∈ F.flatMap defs := List.mem_flatMap.2 ⟨B', hB', by simp [defs, hp]⟩
    cases hinj hmem hmemI heq
  · have hmem : Sum.inr i ∈ F.flatMap defs := List.mem_flatMap.2 ⟨B', hB', by simp [defs, hi]⟩
    exact Sum.inr.inj (hinj hmem hmemI heq)

/-- **A replacement by new names keeps the form.** -/
theorem replace (hF : F.WellFormed n) (hphis : ∀ b ∈ F, ∀ p ∈ b.phis, p.id ≠ x) (hn : n ≤ n')
    {seq : List (Inst κ ο)} (hseq : ∀ i ∈ seq, n ≤ i.id ∧ i.Below n')
    (hnodup : (seq.map Inst.id).Nodup) {r : Operand κ} (hr : r.Below n') :
    (F.replace x seq r).WellFormed n' := by
  refine ⟨fun b' hb' => ?_, ?_⟩
  · obtain ⟨b, hb, rfl⟩ := List.mem_map.1 hb'
    exact (hF.below b hb).replace hn (fun i hi => (hseq i hi).2) hr
  · have hids : (F.replace x seq r).flatMap Block.ids =
        (F.flatMap Block.ids).flatMap fun id => if id = x then seq.map Inst.id else [id] := by
      rw [Blocks.replace, List.flatMap_map, List.flatMap_assoc]
      exact List.flatMap_congr fun b hb => Block.ids_replace (hphis b hb) seq r
    have hlt : ∀ id ∈ F.flatMap Block.ids, id < n := by
      intro id hid
      obtain ⟨b, hb, hid⟩ := List.mem_flatMap.1 hid
      exact (hF.below b hb).lt_of_mem_ids hid
    rw [hids, List.nodup_flatMap]
    refine ⟨fun id _ => ?_, hF.unique.imp_of_mem fun {i j} hi hj hne => ?_⟩
    · split
      · exact hnodup
      · exact List.nodup_singleton id
    -- the names that stay are below `n`, the new ones are not
    · have hnew : ∀ id ∈ seq.map Inst.id, n ≤ id := by
        intro id hid
        obtain ⟨i', hi', rfl⟩ := List.mem_map.1 hid
        exact (hseq i' hi').1
      have hi' := hlt i hi
      have hj' := hlt j hj
      intro id hid hid'
      simp only at hid hid'
      split at hid <;> split at hid'
      · omega
      · have := hnew id hid
        rw [List.mem_singleton] at hid'
        omega
      · have := hnew id hid'
        rw [List.mem_singleton] at hid
        omega
      · rw [List.mem_singleton] at hid hid'
        omega

end Blocks.WellFormed

/-! ## Related results -/

variable (sem : Semantics κ ο α μ η) (args : ℕ → Value α)

/-- What one function computed below `n`, the other has in the replacements,
at least as definite. -/
def EnvLe (σ : ℕ → Operand κ) (n : ℕ) (env env' : Env α) : Prop :=
  ∀ id, id < n → env id ≤ eval sem args env' (σ id)

variable {sem args} {σ : ℕ → Operand κ} {n x : ℕ} {r : Operand κ} {env env' : Env α}

/-- An operand evaluates to the same or to something more defined. -/
theorem EnvLe.eval_le (h : EnvLe sem args σ n env env') {a : Operand κ} (ha : a.Below n) :
    eval sem args env a ≤ eval sem args env' (a.bind σ) := by
  cases a with
  | inst id => exact h id ha
  | arg i => exact le_refl _
  | const c => exact le_refl _

theorem EnvLe.evals_le (h : EnvLe sem args σ n env env') {operands : List (Operand κ)}
    (ha : ∀ a ∈ operands, a.Below n) :
    List.Forall₂ (· ≤ ·) (operands.map (eval sem args env))
      ((operands.map (·.bind σ)).map (eval sem args env')) := by
  induction operands with
  | nil => exact .nil
  | cons a operands ih =>
    exact .cons (h.eval_le (ha a (List.mem_cons_self ..)))
      (ih fun b hb => ha b (List.mem_cons_of_mem _ hb))

/-- A replacement that only names results from `n` on. -/
def Operand.Fresh (n : ℕ) : Operand κ → Prop
  | .inst id => n ≤ id
  | .arg _ => False
  | .const _ => True

theorem Operand.Fresh.mono {n' : ℕ} (h : r.Fresh n') (hn : n ≤ n') : r.Fresh n := by
  cases r with
  | inst id => exact le_trans hn h
  | arg i => cases h
  | const c => trivial

/-- What is fresh is not what is replaced. -/
theorem Operand.Fresh.bind_single (h : r.Fresh n) (hx : x < n) (r' : Operand κ) :
    r.bind (single x r') = r := by
  cases r with
  | inst id =>
    have hid : n ≤ id := h
    exact if_neg (by omega)
  | arg i => rfl
  | const c => rfl

/-- The same instruction, executed on both sides. -/
theorem EnvLe.update (h : EnvLe sem args (single x r) n env env') (hr : r.Fresh n) {id : ℕ}
    (hid : id < n) (hne : id ≠ x) {v v' : Value α} (hv : v ≤ v') :
    EnvLe sem args (single x r) n (Function.update env id v) (Function.update env' id v') := by
  intro j hj
  have hold := h j hj
  rcases eq_or_ne j id with rfl | hji
  · simp only [single, if_neg hne, eval, Function.update_self]
    exact hv
  · rw [Function.update_of_ne hji]
    refine le_trans hold (le_of_eq ?_)
    unfold single
    split
    · cases r with
      | inst rid =>
        have : rid ≠ id := fun heq => absurd hid (by rw [← heq]; exact Nat.not_lt.2 hr)
        simp [eval, Function.update_of_ne this]
      | arg i => cases hr
      | const c => rfl
    · simp [eval, Function.update_of_ne hji]

/-! ## The sequence -/

variable (sem args) in
/-- The results after a sequence of arithmetic. -/
noncomputable def runBins : List (Inst κ ο) → Env α → Env α
  | .bin id k w nsw nuw a b :: rest, env =>
    runBins rest (Function.update env id
      (evalBin k w nsw nuw (eval sem args env a) (eval sem args env b)))
  | _, env => env

/-- Arithmetic that defines a name from `n` on. -/
def Inst.Scratch (n : ℕ) : Inst κ ο → Prop
  | .bin id _ _ _ _ _ _ => n ≤ id
  | .other _ _ _ => False

theorem Inst.Scratch.le {i : Inst κ ο} (h : i.Scratch n) : n ≤ i.id := by
  cases i with
  | bin => exact h
  | other => cases h

theorem Inst.Scratch.bind {i : Inst κ ο} (h : i.Scratch n) (σ : ℕ → Operand κ) :
    (i.bind σ).Scratch n := by
  cases i with
  | bin => exact h
  | other => exact h

omit [Preorder α] in
/-- It leaves the names below alone. -/
theorem runBins_of_lt {seq : List (Inst κ ο)} (hseq : ∀ i ∈ seq, i.Scratch n) :
    ∀ {env : Env α} {id : ℕ}, id < n → runBins sem args seq env id = env id := by
  induction seq with
  | nil => intro env id _; rfl
  | cons i seq ih =>
    intro env id hid
    have hi := hseq i (List.mem_cons_self ..)
    cases i with
    | bin j k w nsw nuw a b =>
      have hne : id ≠ j := fun heq => absurd hid (by rw [heq]; exact Nat.not_lt.2 hi)
      rw [runBins, ih (fun i' hi' => hseq i' (List.mem_cons_of_mem _ hi')) hid,
        Function.update_of_ne hne]
    | other => cases hi

omit [Preorder α] in
/-- Scratch instructions run one after the other. -/
theorem runBins_append {seq rest : List (Inst κ ο)} (hseq : ∀ i ∈ seq, i.Scratch n) :
    ∀ {env : Env α}, runBins sem args (seq ++ rest) env =
      runBins sem args rest (runBins sem args seq env) := by
  induction seq with
  | nil => intro env; rfl
  | cons i seq ih =>
    intro env
    have hi := hseq i (List.mem_cons_self ..)
    cases i with
    | bin => exact ih fun i' hi' => hseq i' (List.mem_cons_of_mem _ hi')
    | other => cases hi

omit [Preorder α] in
/-- It has no effect but its results. -/
theorem exec_bins {seq rest : List (Inst κ ο)} (hseq : ∀ i ∈ seq, i.Scratch n) :
    ∀ {env : Env α} {m : μ} {effs : List (Effect η α)} {e : End α μ},
      Exec sem args (seq ++ rest) env m effs e →
        Exec sem args rest (runBins sem args seq env) m effs e := by
  induction seq with
  | nil => intro env m effs e h; exact h
  | cons i seq ih =>
    intro env m effs e h
    have hi := hseq i (List.mem_cons_self ..)
    cases h with
    | bin h => exact ih (fun i' hi' => hseq i' (List.mem_cons_of_mem _ hi')) h
    | _ => cases hi

variable (sem) in
/-- **The sequence computes the instruction**: its last result, or the constant
it was folded to, is at least as definite. -/
structure Expands (n x : ℕ) (k : BinKind) (w : ℕ) (nsw nuw : Bool) (a b : Operand κ)
    (seq : List (Inst κ ο)) (r : Operand κ) : Prop where
  scratch : ∀ i ∈ seq, i.Scratch n
  fresh : r.Fresh n
  sound : ∀ (args : ℕ → Value α) (env env' : Env α), EnvLe sem args (single x r) n env env' →
    evalBin k w nsw nuw (eval sem args env a) (eval sem args env b) ≤
      eval sem args (runBins sem args (seq.map (·.bind (single x r))) env') r

theorem Expands.scratch_bind {k : BinKind} {w : ℕ} {nsw nuw : Bool} {a b : Operand κ}
    {seq : List (Inst κ ο)} (hexp : Expands sem n x k w nsw nuw a b seq r)
    {σ : ℕ → Operand κ} : ∀ i ∈ seq.map (·.bind σ), i.Scratch n := by
  intro i hi
  obtain ⟨j, hj, rfl⟩ := List.mem_map.1 hi
  exact (hexp.scratch j hj).bind σ

/-- The instruction on one side, its sequence on the other. -/
theorem EnvLe.expand {k : BinKind} {w : ℕ} {nsw nuw : Bool} {a b : Operand κ}
    {seq : List (Inst κ ο)} (hexp : Expands sem n x k w nsw nuw a b seq r)
    (h : EnvLe sem args (single x r) n env env') :
    EnvLe sem args (single x r) n
      (Function.update env x
        (evalBin k w nsw nuw (eval sem args env a) (eval sem args env b)))
      (runBins sem args (seq.map (·.bind (single x r))) env') := by
  intro j hj
  rcases eq_or_ne j x with rfl | hjx
  · rw [Function.update_self, single, if_pos rfl]
    exact hexp.sound args env env' h
  · have hold := h j hj
    rw [Function.update_of_ne hjx]
    simp only [single, if_neg hjx, eval] at hold ⊢
    rw [runBins_of_lt hexp.scratch_bind hj]
    exact hold

omit [Preorder α] in
/-- Scratch instructions have no effect, so what follows them is as safe as before. -/
theorem safe_bins {seq rest : List (Inst κ ο)} (hseq : ∀ i ∈ seq, i.Scratch n) :
    ∀ {env : Env α} {m : μ}, Safe sem args rest (runBins sem args seq env) m →
      Safe sem args (seq ++ rest) env m := by
  induction seq with
  | nil => intro env m h; exact h
  | cons i seq ih =>
    intro env m h
    have hi := hseq i (List.mem_cons_self ..)
    cases i with
    | bin => exact ih (fun i' hi' => hseq i' (List.mem_cons_of_mem _ hi')) h
    | other => cases hi

/-! ## Bodies -/

section Simulation

variable [Preorder μ]

variable (sem args) in
/-- How related blocks end. -/
inductive End.Le (σ : ℕ → Operand κ) (n : ℕ) : End α μ → End α μ → Prop
  | goto {label : ℕ} {env env' : Env α} {m m' : μ} :
      EnvLe sem args σ n env env' → m ≤ m' → End.Le σ n (.goto label env m) (.goto label env' m')
  | ret {v v' : Value α} {m m' : μ} : v ≤ v' → m ≤ m' → End.Le σ n (.ret v m) (.ret v' m')
  | halt {m m' : μ} : m ≤ m' → End.Le σ n (.halt m) (.halt m')

variable {k : BinKind} {w : ℕ} {nsw nuw : Bool} {a b : Operand κ} {seq : List (Inst κ ο)}

omit [Preorder μ] in
/-- The same arithmetic on both sides. -/
theorem EnvLe.bin (h : EnvLe sem args (single x r) n env env') (hr : r.Fresh n) {id : ℕ}
    (hbelow : (Inst.bin id k w nsw nuw a b : Inst κ ο).Below n) (hne : id ≠ x) :
    EnvLe sem args (single x r) n
      (Function.update env id (evalBin k w nsw nuw (eval sem args env a) (eval sem args env b)))
      (Function.update env' id (evalBin k w nsw nuw (eval sem args env' (a.bind (single x r)))
        (eval sem args env' (b.bind (single x r))))) :=
  h.update hr hbelow.id hne
    (evalBin_mono (h.eval_le (hbelow.operands a (by simp [Inst.operands])))
      (h.eval_le (hbelow.operands b (by simp [Inst.operands]))))

section

variable (hlaw : sem.Lawful) (hexp : Expands sem n x k w nsw nuw a b seq r)

include hlaw hexp

/-- **What the new body does, the old one may do.** -/
theorem exec_replace : ∀ {body : List (Inst κ ο)} {env env' : Env α} {m m' : μ}
    {effs' : List (Effect η α)} {e' : End α μ},
    (∀ i ∈ body, i.Below n ∧ (i.id = x → i = .bin x k w nsw nuw a b)) →
    EnvLe sem args (single x r) n env env' → m ≤ m' →
    Exec sem args ((Ssa.expand x seq body).map (·.bind (single x r))) env' m' effs' e' →
    (∃ effs, Exec sem args body env m effs .ub ∧ EffsUpTo effs effs') ∨
      ∃ effs e, Exec sem args body env m effs e ∧ EffsLe effs effs' ∧
        End.Le sem args (single x r) n e e' := by
  intro body
  induction body with
  | nil =>
    intro env env' m m' effs' e' _ _ _ h
    cases h
  | cons i body ih =>
    intro env env' m m' effs' e' hbody henv hm h
    obtain ⟨⟨hbelow, huniq⟩, hrest⟩ := List.forall_mem_cons.1 hbody
    rw [expand_cons] at h
    by_cases hid : i.id = x
    -- the sequence runs through and leaves what the instruction leaves
    · obtain rfl := huniq hid
      rw [if_pos hid] at h
      rcases ih hrest (henv.expand hexp) hm (exec_bins hexp.scratch_bind h) with
        ⟨effs, hub, hupto⟩ | ⟨effs, e, hexec, hrel⟩
      · exact Or.inl ⟨effs, .bin hub, hupto⟩
      · exact Or.inr ⟨effs, e, .bin hexec, hrel⟩
    · rw [if_neg hid] at h
      cases i with
      | bin id k' w' nsw' nuw' a' b' =>
        cases h with
        | bin h =>
          rcases ih hrest (henv.bin hexp.fresh hbelow hid) hm h with
            ⟨effs, hub, hupto⟩ | ⟨effs, e, hexec, hrel⟩
          · exact Or.inl ⟨effs, .bin hub, hupto⟩
          · exact Or.inr ⟨effs, e, .bin hexec, hrel⟩
      -- however the instruction ends, on less definite operands it may end so, or be undefined
      | other id o operands =>
        have hvs := henv.evals_le hbelow.operands
        cases h with
        | next hstep h =>
          rcases hlaw.refine hvs hm hstep with ⟨effs, hub, hupto⟩ | ⟨effs, _, hold, heffs, hout⟩
          · exact Or.inl ⟨effs, .ub hub, hupto.append_right _⟩
          · cases hout with
            | next hv hm' =>
              rcases ih hrest (henv.update hexp.fresh hbelow.id hid hv) hm' h with
                ⟨more, hub, hupto⟩ | ⟨more, e, hexec, hmore, hrel⟩
              · exact Or.inl ⟨_, .next hold hub, .append heffs hupto⟩
              · exact Or.inr ⟨_, e, .next hold hexec, heffs.append hmore, hrel⟩
        | goto hstep =>
          rcases hlaw.refine hvs hm hstep with ⟨effs, hub, hupto⟩ | ⟨effs, _, hold, heffs, hout⟩
          · exact Or.inl ⟨effs, .ub hub, hupto⟩
          · cases hout with
            | goto hm' => exact Or.inr ⟨effs, _, .goto hold, heffs, .goto henv hm'⟩
        | ret hstep =>
          rcases hlaw.refine hvs hm hstep with ⟨effs, hub, hupto⟩ | ⟨effs, _, hold, heffs, hout⟩
          · exact Or.inl ⟨effs, .ub hub, hupto⟩
          · cases hout with
            | ret hv hm' => exact Or.inr ⟨effs, _, .ret hold, heffs, .ret hv hm'⟩
        | halt hstep =>
          rcases hlaw.refine hvs hm hstep with ⟨effs, hub, hupto⟩ | ⟨effs, _, hold, heffs, hout⟩
          · exact Or.inl ⟨effs, .ub hub, hupto⟩
          · cases hout with
            | halt hm' => exact Or.inr ⟨effs, _, .halt hold, heffs, .halt hm'⟩
        | ub hstep =>
          rcases hlaw.refine hvs hm hstep with ⟨effs, hub, hupto⟩ | ⟨effs, _, hold, heffs, hout⟩
          · exact Or.inl ⟨effs, .ub hub, hupto⟩
          · cases hout

/-- **Where the old body is safe, so is the new one.** -/
theorem safe_replace : ∀ {body : List (Inst κ ο)} {env env' : Env α} {m m' : μ},
    (∀ i ∈ body, i.Below n ∧ (i.id = x → i = .bin x k w nsw nuw a b)) →
    EnvLe sem args (single x r) n env env' → m ≤ m' → Safe sem args body env m →
    Safe sem args ((Ssa.expand x seq body).map (·.bind (single x r))) env' m' := by
  intro body
  induction body with
  | nil =>
    intro env env' m m' _ _ _ h
    exact h
  | cons i body ih =>
    intro env env' m m' hbody henv hm h
    obtain ⟨⟨hbelow, huniq⟩, hrest⟩ := List.forall_mem_cons.1 hbody
    rw [expand_cons]
    by_cases hid : i.id = x
    · obtain rfl := huniq hid
      rw [if_pos hid]
      exact safe_bins hexp.scratch_bind (ih hrest (henv.expand hexp) hm h)
    · rw [if_neg hid]
      cases i with
      | bin id k' w' nsw' nuw' a' b' => exact ih hrest (henv.bin hexp.fresh hbelow hid) hm h
      | other id o operands =>
        have hvs := henv.evals_le hbelow.operands
        obtain ⟨⟨effs, out, hexec⟩, hub, hnext⟩ := h
        refine ⟨hlaw.progress hvs hm hexec, ?_, ?_⟩
        · intro effs' hub'
          rcases hlaw.refine hvs hm hub' with ⟨effs, hub₀, -⟩ | ⟨effs, out, -, -, hout⟩
          · exact hub effs hub₀
          · cases hout
        · intro effs' v' m'' hstep
          rcases hlaw.refine hvs hm hstep with ⟨effs, hub₀, -⟩ | ⟨effs, out, hold, -, hout⟩
          · exact absurd hub₀ (hub effs)
          · cases hout with
            | next hv hm' =>
              exact ih hrest (henv.update hexp.fresh hbelow.id hid hv) hm' (hnext _ _ _ hold)

end

/-! ## Blocks -/

omit [Preorder μ] in
/-- A block is found under its label before and after. -/
theorem find_replace (F : Blocks κ ο) (label : ℕ) :
    Blocks.find (Blocks.replace F x seq r) label =
      (Blocks.find F label).map (Block.replace x seq r) := by
  rw [Blocks.find, Blocks.replace, List.find?_map]
  rfl

omit [Preorder α] [Preorder μ] in
theorem mem_of_find {F : Blocks κ ο} {label : ℕ} {b : Block κ ο}
    (h : Blocks.find F label = some b) : b ∈ F :=
  List.mem_of_find?_eq_some h

omit [Preorder μ] in
/-- The phis of a block can be entered on both sides or on neither. -/
theorem enterPhis_bind (hr : r.Fresh n) (before : Option ℕ)
    (henv : EnvLe sem args (single x r) n env env') :
    ∀ {phis : List (Phi κ)}, (∀ p ∈ phis, p.Below n ∧ p.id ≠ x) →
      Option.Rel (EnvLe sem args (single x r) n) (enterPhis sem args before env phis)
        (enterPhis sem args before env' (phis.map (·.bind (single x r)))) := by
  intro phis
  induction phis with
  | nil =>
    intro _
    exact .some henv
  | cons p phis ih =>
    intro hphis
    obtain ⟨⟨hbelow, hne⟩, hrest⟩ := List.forall_mem_cons.1 hphis
    have hrec := ih hrest
    have hfind : (p.bind (single x r)).incoming.find? (fun q => some q.1 == before) =
        (p.incoming.find? fun q => some q.1 == before).map fun q =>
          (q.1, q.2.bind (single x r)) := by
      rw [Phi.bind, List.find?_map]
      rfl
    rw [List.map_cons, enterPhis, enterPhis, hfind]
    rcases hq : p.incoming.find? (fun q => some q.1 == before) with _ | q
    · rw [hq]
      exact .none
    · rw [hq]
      have hvalue := henv.eval_le (hbelow.operands q (List.mem_of_find?_eq_some hq))
      generalize enterPhis sem args before env phis = old at hrec ⊢
      generalize enterPhis sem args before env' (phis.map (·.bind (single x r))) = new at hrec ⊢
      cases hrec with
      | none => exact .none
      | some hrec => exact .some (hrec.update hr hbelow.id hne hvalue)

variable (sem args) in
/-- Related entries of a block. -/
structure Entry.Le (σ : ℕ → Operand κ) (n : ℕ) (s s' : Entry α μ) : Prop where
  before : s.before = s'.before
  label : s.label = s'.label
  env : EnvLe sem args σ n s.env s'.env
  mem : s.mem ≤ s'.mem

section

variable {F : Blocks κ ο} (hlaw : sem.Lawful) (hexp : Expands sem n x k w nsw nuw a b seq r)
  (hF : ∀ B ∈ F, Block.Replaceable n (.bin x k w nsw nuw a b) B) {s s' : Entry α μ}
  (hs : Entry.Le sem args (single x r) n s s')

include hlaw hexp hF hs

/-- **What a block does after the replacement** it did before, unless that was undefined. -/
theorem blockExec_replace {effs' : List (Effect η α)} {e' : End α μ}
    (h : BlockExec sem args (Blocks.replace F x seq r) s' effs' e') :
    (∃ effs, BlockExec sem args F s effs .ub ∧ EffsUpTo effs effs') ∨
      ∃ effs e, BlockExec sem args F s effs e ∧ EffsLe effs effs' ∧
        End.Le sem args (single x r) n e e' := by
  obtain ⟨B', env', hfind, hphis, hexec⟩ := h
  rw [find_replace, ← hs.label, Option.map_eq_some_iff] at hfind
  obtain ⟨B, hfind, rfl⟩ := hfind
  have hB := hF B (mem_of_find hfind)
  have hrel := enterPhis_bind hexp.fresh s'.before hs.env hB.phis
  rw [Block.replace, Block.bind] at hphis
  rw [hphis] at hrel
  generalize hold : enterPhis sem args s'.before s.env B.phis = old at hrel
  cases hrel with
  | @some env _ henv =>
    rcases exec_replace hlaw hexp hB.body henv hs.mem hexec with
      ⟨effs, hub, hupto⟩ | ⟨effs, e, hexec, hrel⟩
    · exact Or.inl ⟨effs, ⟨B, env, hfind, by rw [hs.before, hold], hub⟩, hupto⟩
    · exact Or.inr ⟨effs, e, ⟨B, env, hfind, by rw [hs.before, hold], hexec⟩, hrel⟩

/-- **And it is as safe.** -/
theorem safeAt_replace (h : SafeAt sem args F s) :
    SafeAt sem args (Blocks.replace F x seq r) s' := by
  obtain ⟨B, env, hfind, hphis, hsafe⟩ := h
  have hB := hF B (mem_of_find hfind)
  have hrel := enterPhis_bind hexp.fresh s.before hs.env hB.phis
  rw [hphis] at hrel
  generalize hnew : enterPhis sem args s.before s'.env _ = new at hrel
  cases hrel with
  | @some _ env' henv =>
    refine ⟨Block.replace x seq r B, env', ?_, ?_, ?_⟩
    · rw [find_replace, ← hs.label, hfind, Option.map_some]
    · rw [← hs.before, ← hnew]
      rfl
    · exact safe_replace hlaw hexp hB.body henv hs.mem hsafe

end

/-! ## Functions -/

omit [Preorder μ] in
theorem head_label_replace (F : Blocks κ ο) :
    (Blocks.replace F x seq r).head?.map Block.label = F.head?.map Block.label := by
  cases F <;> rfl

/-- **Every run after the replacement is accounted for** by one before it. -/
theorem runs_replace {F : Blocks κ ο} (hlaw : sem.Lawful)
    (hexp : Expands sem n x k w nsw nuw a b seq r)
    (hF : ∀ B ∈ F, Block.Replaceable n (.bin x k w nsw nuw a b) B) {s' : Entry α μ}
    {path : List ℕ} {effs' : List (Effect η α)} {final' : Final α μ}
    (h : Runs sem args (Blocks.replace F x seq r) s' path effs' final') :
    ∀ {s : Entry α μ}, Entry.Le sem args (single x r) n s s' →
      Accounted sem args F (Blocks.replace F x seq r) s path effs' final' := by
  induction h with
  | here s' =>
    intro s hs
    exact Or.inr ⟨[], _, .here s, .nil,
      .running hs.before hs.label hs.mem (safeAt_replace hlaw hexp hF hs)⟩
  | @goto s' effs' more' label env' m' path final' hblock hrest ih =>
    intro s hs
    -- undefined behaviour in this block, or later, or a run to the same end
    rcases blockExec_replace hlaw hexp hF hs hblock with
      ⟨effs, hub, hupto⟩ | ⟨effs, _, hold, heffs, hend⟩
    · exact .of_block_ub hs.label hub (hupto.append_right more')
    · cases hend with
      | @goto _ env _ m _ henv hm =>
        have hnext : Entry.Le sem args (single x r) n ⟨some s.label, label, env, m⟩
            ⟨some s'.label, label, env', m'⟩ := ⟨congrArg some hs.label, rfl, henv, hm⟩
        rcases ih hnext with
          ⟨path₀, more, hub, hpath, hupto⟩ | ⟨more, final, hruns, hmore, hfinal⟩
        · refine Or.inl ⟨_, _, .goto hold hub, ?_, .append heffs hupto⟩
          rw [hs.label]
          exact List.cons_prefix_cons.2 ⟨rfl, hpath⟩
        · refine Or.inr ⟨_, final, ?_, heffs.append hmore, hfinal⟩
          rw [← hs.label]
          exact .goto hold hruns
  | ret hblock =>
    intro s hs
    rcases blockExec_replace hlaw hexp hF hs hblock with
      ⟨effs, hub, hupto⟩ | ⟨effs, _, hold, heffs, hend⟩
    · exact .of_block_ub hs.label hub hupto
    · cases hend with
      | ret hv hm => exact Or.inr ⟨effs, _, hs.label ▸ .ret hold, heffs, .ret hv hm⟩
  | halt hblock =>
    intro s hs
    rcases blockExec_replace hlaw hexp hF hs hblock with
      ⟨effs, hub, hupto⟩ | ⟨effs, _, hold, heffs, hend⟩
    · exact .of_block_ub hs.label hub hupto
    · cases hend with
      | halt hm => exact Or.inr ⟨effs, _, hs.label ▸ .halt hold, heffs, .halt hm⟩
  | ub hblock =>
    intro s hs
    rcases blockExec_replace hlaw hexp hF hs hblock with
      ⟨effs, hub, hupto⟩ | ⟨effs, _, hold, heffs, hend⟩
    · exact .of_block_ub hs.label hub hupto
    · cases hend

/-- **The replacement rule.** -/
theorem refines_replace {F : Blocks κ ο} (hlaw : sem.Lawful)
    (hexp : Expands sem n x k w nsw nuw a b seq r)
    (hF : ∀ B ∈ F, Block.Replaceable n (.bin x k w nsw nuw a b) B) :
    Refines sem F (Blocks.replace F x seq r) := by
  intro args m path effs' final' h
  refine runs_replace hlaw hexp hF h ⟨rfl, ?_, fun _ _ => Value.poison_le _, le_refl m⟩
  rw [start, start, head_label_replace]

end Simulation

end Ssa

end HkSystem
