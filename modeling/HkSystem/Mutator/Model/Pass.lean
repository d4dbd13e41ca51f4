import HkSystem.Common.SsaReplace
/-!
# The mutation pass, as code

`BinaryObfuscationPass::run` of the build tools, over the intermediate
language of `Common.Ssa`. The function is edited in place while it is
traversed: `Cursor` is the function with the position of the two loops in it,
`visit` the body of the inner loop, and a use is replaced in the whole
function, in blocks not yet reached as well as in those done with.

Of LLVM the model takes the builder: `createNot` and `createSub` insert
flag-free instructions in front of the one that is visited, or give a constant
where both operands are constants and the folder knows the result. The folder
is a parameter.
-/

namespace HkSystem

namespace Mutator

open Ssa

variable {κ ο : Type}

/-- A function as the pass sees it. -/
structure Func (κ ο : Type) where
  /-- Whether it has the attribute the pass looks for. -/
  hkMutate : Bool
  blocks : Blocks κ ο
  /-- A number no result has yet, nor any number above it. -/
  nextId : ℕ
  wellFormed : blocks.WellFormed nextId

/-- What an operation on constants folds to, if the folder knows. -/
abbrev Folder (κ : Type) := BinKind → ℕ → Const κ → Const κ → Option (Const κ)

/-! ## The builder -/

/-- The builder, and what it has inserted so far. -/
structure IRBuilder (κ ο : Type) where
  nextId : ℕ
  inserted : List (Inst κ ο)

variable (fold : Folder κ)

def fold? (k : BinKind) (w : ℕ) : Operand κ → Operand κ → Option (Const κ)
  | .const c, .const d => fold k w c d
  | _, _ => none

def createBinOp (k : BinKind) (w : ℕ) (a b : Operand κ) (builder : IRBuilder κ ο) :
    Operand κ × IRBuilder κ ο :=
  match fold? fold k w a b with
  | some c => (.const c, builder)
  | none => (.inst builder.nextId,
      ⟨builder.nextId + 1, builder.inserted ++ [.bin builder.nextId k w false false a b]⟩)

def createNot (w : ℕ) (a : Operand κ) : IRBuilder κ ο → Operand κ × IRBuilder κ ο :=
  createBinOp fold .xor w a (.const (.int w (BitVec.allOnes w)))

def createSub (w : ℕ) (a b : Operand κ) : IRBuilder κ ο → Operand κ × IRBuilder κ ο :=
  createBinOp fold .sub w a b

/-- `a = b + c` becomes `a = b - (~c) - 1`. -/
def obfuscate (w : ℕ) (op1 op2 : Operand κ) (builder : IRBuilder κ ο) :
    Operand κ × IRBuilder κ ο :=
  let (notOp2, builder) := createNot fold w op2 builder
  let (sub1, builder) := createSub fold w op1 notOp2 builder
  let one : Operand κ := .const (.int w 1)
  createSub fold w sub1 one builder

/-! ## The traversal -/

/-- The function while the pass is in one of its blocks. -/
structure Cursor (κ ο : Type) where
  /-- The blocks in front of the one the outer loop is in. -/
  before : Blocks κ ο
  label : ℕ
  phis : List (Phi κ)
  /-- The instructions in front of the iterator of the inner loop. -/
  done : List (Inst κ ο)
  /-- The instruction the iterator is at, and those behind it. -/
  todo : List (Inst κ ο)
  after : Blocks κ ο
  nextId : ℕ
  changed : Bool

namespace Cursor

def block (c : Cursor κ ο) : Block κ ο := ⟨c.label, c.phis, c.done ++ c.todo⟩

def blocks (c : Cursor κ ο) : Blocks κ ο := c.before ++ c.block :: c.after

/-- Every use of a result replaced, wherever it is. -/
def replaceAllUsesWith (x : ℕ) (r : Operand κ) (c : Cursor κ ο) : Cursor κ ο :=
  { c with
    before := c.before.map (·.bind (single x r))
    phis := c.phis.map (·.bind (single x r))
    done := c.done.map (·.bind (single x r))
    todo := c.todo.map (·.bind (single x r))
    after := c.after.map (·.bind (single x r)) }

end Cursor

/-- The body of the inner loop, the iterator already behind `I`. What the
builder inserts goes in front of `I`, and an addition is itself erased. -/
def visit (I : Inst κ ο) (c : Cursor κ ο) : Cursor κ ο :=
  match I with
  | .bin x .add w _ _ op1 op2 =>
    let (finalSub, builder) := obfuscate fold w op1 op2 ⟨c.nextId, []⟩
    -- `I` goes with its own operands, so its uses are replaced in what stays
    { c with
      done := c.done ++ builder.inserted
      nextId := builder.nextId
      changed := true }.replaceAllUsesWith x finalSub
  | _ => { c with done := c.done ++ [I] }

@[simp] theorem length_todo_visit (I : Inst κ ο) (c : Cursor κ ο) :
    (visit fold I c).todo.length = c.todo.length := by
  unfold visit
  split
  · simp [Cursor.replaceAllUsesWith]
  · rfl

@[simp] theorem length_after_visit (I : Inst κ ο) (c : Cursor κ ο) :
    (visit fold I c).after.length = c.after.length := by
  unfold visit
  split
  · simp [Cursor.replaceAllUsesWith]
  · rfl

/-- The inner loop: one block to its end. -/
def visitBlock (c : Cursor κ ο) : Cursor κ ο :=
  match _h : c.todo with
  | [] => c
  | I :: rest => visitBlock (visit fold I { c with todo := rest })
  termination_by c.todo.length
  decreasing_by simp [*]

@[simp] theorem length_after_visitBlock (c : Cursor κ ο) :
    (visitBlock fold c).after.length = c.after.length := by
  fun_induction visitBlock fold c with
  | case1 c h => rfl
  | case2 c I rest h ih => rw [ih, length_after_visit]

/-- The outer loop: the blocks from `after` on. The phis at the front of a block
are instructions for the inner loop too, but none is an addition. -/
def visitBlocks (before after : Blocks κ ο) (nextId : ℕ) (changed : Bool) :
    Blocks κ ο × ℕ × Bool :=
  match after with
  | [] => (before, nextId, changed)
  | B :: after =>
    let c := visitBlock fold ⟨before, B.label, B.phis, [], B.body, after, nextId, changed⟩
    visitBlocks (c.before ++ [c.block]) c.after c.nextId c.changed
  termination_by after.length

/-! ## The names stay unique -/

/-- What the builder has inserted since the names were below `n`. -/
structure IRBuilder.Valid (n : ℕ) (builder : IRBuilder κ ο) : Prop where
  le : n ≤ builder.nextId
  inserted : ∀ i ∈ builder.inserted, i.Scratch n ∧ i.Below builder.nextId
  nodup : (builder.inserted.map Inst.id).Nodup

variable {fold} {n : ℕ} {builder : IRBuilder κ ο}

theorem fold?_eq_some {k : BinKind} {w : ℕ} {a b : Operand κ} {e : Const κ}
    (h : fold? fold k w a b = some e) :
    ∃ c d, a = .const c ∧ b = .const d ∧ fold k w c d = some e := by
  unfold fold? at h
  split at h
  · exact ⟨_, _, rfl, rfl, h⟩
  · cases h

/-- **What the builder does**: it folds two constants or inserts an instruction
under a new name. -/
theorem createBinOp_cases (fold : Folder κ) (k : BinKind) (w : ℕ) (a b : Operand κ)
    (builder : IRBuilder κ ο) :
    (∃ c d e, a = .const c ∧ b = .const d ∧ fold k w c d = some e ∧
      createBinOp fold k w a b builder = (.const e, builder)) ∨
    createBinOp fold k w a b builder = (.inst builder.nextId,
      ⟨builder.nextId + 1, builder.inserted ++ [.bin builder.nextId k w false false a b]⟩) := by
  rw [createBinOp]
  rcases hfold : fold? fold k w a b with _ | e
  · exact Or.inr rfl
  · obtain ⟨c, d, ha, hb, hcd⟩ := fold?_eq_some hfold
    exact Or.inl ⟨c, d, e, ha, hb, hcd, rfl⟩

theorem createBinOp_valid {k : BinKind} {w : ℕ} {a b r : Operand κ} {builder' : IRBuilder κ ο}
    (h : createBinOp fold k w a b builder = (r, builder')) (hvalid : builder.Valid n)
    (ha : a.Below builder.nextId) (hb : b.Below builder.nextId) :
    builder'.Valid n ∧ builder.nextId ≤ builder'.nextId ∧ r.Below builder'.nextId ∧
      r.Fresh builder.nextId := by
  rcases createBinOp_cases fold k w a b builder with ⟨_, _, e, _, _, _, heq⟩ | heq
  · obtain ⟨rfl, rfl⟩ := Prod.mk.inj (heq.symm.trans h)
    exact ⟨hvalid, le_refl _, trivial, trivial⟩
  · obtain ⟨rfl, rfl⟩ := Prod.mk.inj (heq.symm.trans h)
    have hle := hvalid.le
    refine ⟨⟨Nat.le_succ_of_le hle, ?_, ?_⟩, Nat.le_succ _, Nat.lt_succ_self _, le_refl _⟩
    · intro i hi
      rcases List.mem_append.1 hi with hi | hi
      · obtain ⟨hn, hbelow⟩ := hvalid.inserted i hi
        exact ⟨hn, hbelow.mono (Nat.le_succ _)⟩
      · obtain rfl := List.mem_singleton.1 hi
        refine ⟨hle, Nat.lt_succ_self _, fun o ho => ?_⟩
        simp only [Inst.operands, List.mem_cons, List.not_mem_nil, or_false] at ho
        rcases ho with rfl | rfl
        · exact ha.mono (Nat.le_succ _)
        · exact hb.mono (Nat.le_succ _)
    · have hnew : builder.nextId ∉ builder.inserted.map Inst.id := by
        intro hmem
        obtain ⟨i, hi, hid⟩ := List.mem_map.1 hmem
        have := (hvalid.inserted i hi).2.id
        omega
      rw [List.map_append, List.map_singleton, ← List.concat_eq_append]
      exact List.Nodup.concat hnew hvalid.nodup

/-- The three calls of the builder. -/
theorem obfuscate_calls {w : ℕ} {op1 op2 r : Operand κ} {builder₀ builder : IRBuilder κ ο}
    (h : obfuscate fold w op1 op2 builder₀ = (r, builder)) :
    ∃ notOp2 builder₁ sub1 builder₂, createNot fold w op2 builder₀ = (notOp2, builder₁) ∧
      createSub fold w op1 notOp2 builder₁ = (sub1, builder₂) ∧
      createSub fold w sub1 (.const (.int w 1)) builder₂ = (r, builder) :=
  ⟨_, _, _, _, rfl, rfl, h⟩

/-- A builder that has inserted nothing. -/
theorem valid_start (n : ℕ) : (⟨n, []⟩ : IRBuilder κ ο).Valid n :=
  ⟨le_refl n, by simp, List.nodup_nil⟩

theorem obfuscate_valid {w : ℕ} {op1 op2 r : Operand κ} {builder : IRBuilder κ ο}
    (h : obfuscate fold w op1 op2 ⟨n, []⟩ = (r, builder)) (h1 : op1.Below n) (h2 : op2.Below n) :
    builder.Valid n ∧ r.Below builder.nextId ∧ r.Fresh n := by
  obtain ⟨notOp2, builder₁, sub1, builder₂, hnot, hsub, hlast⟩ := obfuscate_calls h
  obtain ⟨hv₁, hle₁, hr₁, -⟩ := createBinOp_valid hnot (valid_start n) h2 trivial
  obtain ⟨hv₂, -, hr₂, -⟩ := createBinOp_valid hsub hv₁ (h1.mono hle₁) hr₁
  obtain ⟨hv, -, hr, hfresh⟩ := createBinOp_valid hlast hv₂ hr₂ trivial
  exact ⟨hv, hr, hfresh.mono hv₂.le⟩

/-- The names around the one the iterator is at. -/
theorem ids_of_todo {c : Cursor κ ο} {I : Inst κ ο} {rest : List (Inst κ ο)}
    (h : c.todo = I :: rest) : c.blocks.flatMap Block.ids =
      (c.before.flatMap Block.ids ++ c.phis.map Phi.id ++ c.done.map Inst.id) ++
        I.id :: (rest.map Inst.id ++ c.after.flatMap Block.ids) := by
  simp [Cursor.blocks, Cursor.block, Block.ids, h]

/-- Replacing the instruction at the iterator, as the loop does it: the name is
defined nowhere else, so all other instructions only change their operands. -/
theorem replace_todo {c : Cursor κ ο} (hc : c.blocks.WellFormed c.nextId) {I : Inst κ ο}
    {rest : List (Inst κ ο)} (h : c.todo = I :: rest) (seq : List (Inst κ ο)) (r : Operand κ) :
    ({ c with done := c.done ++ seq, todo := rest }.replaceAllUsesWith I.id r).blocks =
      c.blocks.replace I.id seq r := by
  have hnodup := List.nodup_middle.1 (ids_of_todo h ▸ hc.unique)
  have hout := hnodup.notMem
  simp only [List.mem_append, not_or] at hout
  obtain ⟨⟨⟨hbefore, -⟩, hdone⟩, hrest, hafter⟩ := hout
  have hother : ∀ {l : Blocks κ ο}, I.id ∉ l.flatMap Block.ids →
      l.map (Block.replace I.id seq r) = l.map (·.bind (single I.id r)) := by
    intro l hl
    refine List.map_congr_left fun b hb => Block.replace_of_notMem (fun hmem => hl ?_) seq r
    exact List.mem_flatMap.2 ⟨b, hb, List.mem_append_right _ hmem⟩
  have hbody : expand I.id seq (c.done ++ I :: rest) = (c.done ++ seq) ++ rest := by
    have happ : expand I.id seq (c.done ++ I :: rest) =
        expand I.id seq c.done ++ (seq ++ expand I.id seq rest) := by
      simp [expand]
    rw [happ, expand_of_notMem hdone, expand_of_notMem hrest, List.append_assoc]
  rw [Blocks.replace, Cursor.blocks, Cursor.blocks, List.map_append, List.map_cons,
    hother hbefore, hother hafter, Block.replace, Cursor.block, Cursor.block, h, hbody,
    Block.bind]
  simp [Cursor.replaceAllUsesWith]

/-- **A visit is a replacement**: of the addition the iterator is at, in the
whole function; any other instruction is left as it is. -/
theorem visit_cases {c : Cursor κ ο} (hc : c.blocks.WellFormed c.nextId) {I : Inst κ ο}
    {rest : List (Inst κ ο)} (h : c.todo = I :: rest) {c' : Cursor κ ο}
    (hvisit : visit fold I { c with todo := rest } = c') :
    (c'.blocks = c.blocks ∧ c'.nextId = c.nextId) ∨
      ∃ x w nsw nuw op1 op2 r builder, I = .bin x .add w nsw nuw op1 op2 ∧
        obfuscate fold w op1 op2 ⟨c.nextId, []⟩ = (r, builder) ∧
        c'.blocks = c.blocks.replace x builder.inserted r ∧ c'.nextId = builder.nextId := by
  subst hvisit
  unfold visit
  split
  · next x w nsw nuw op1 op2 =>
    rcases hobf : obfuscate fold w op1 op2 (⟨c.nextId, []⟩ : IRBuilder κ ο) with ⟨r, builder⟩
    refine Or.inr ⟨x, w, nsw, nuw, op1, op2, r, builder, rfl, hobf, ?_, ?_⟩
    · exact replace_todo hc h builder.inserted r
    · rfl
  · refine Or.inl ⟨?_, rfl⟩
    simp [Cursor.blocks, Cursor.block, h]

/-- The instruction the iterator is at. -/
theorem mem_of_todo {c : Cursor κ ο} {I : Inst κ ο} {rest : List (Inst κ ο)}
    (h : c.todo = I :: rest) : c.block ∈ c.blocks ∧ I ∈ c.block.body := by
  simp [Cursor.blocks, Cursor.block, h]

/-- The names an operation at the iterator mentions are in use. -/
theorem below_of_todo {c : Cursor κ ο} (hc : c.blocks.WellFormed c.nextId) {x w : ℕ} {k : BinKind}
    {nsw nuw : Bool} {op1 op2 : Operand κ} {rest : List (Inst κ ο)}
    (h : c.todo = .bin x k w nsw nuw op1 op2 :: rest) :
    x < c.nextId ∧ op1.Below c.nextId ∧ op2.Below c.nextId := by
  obtain ⟨hmem, hI⟩ := mem_of_todo h
  have hbelow := (hc.below _ hmem).body _ hI
  exact ⟨hbelow.id, hbelow.operands op1 (by simp [Inst.operands]),
    hbelow.operands op2 (by simp [Inst.operands])⟩

/-- **A visit keeps the names unique.** -/
theorem visit_wellFormed {c : Cursor κ ο} (hc : c.blocks.WellFormed c.nextId) {I : Inst κ ο}
    {rest : List (Inst κ ο)} (h : c.todo = I :: rest) :
    (visit fold I { c with todo := rest }).blocks.WellFormed
      (visit fold I { c with todo := rest }).nextId := by
  rcases visit_cases hc h (rfl : visit fold I _ = _) with ⟨hblocks, hnext⟩ |
    ⟨x, w, nsw, nuw, op1, op2, r, builder, rfl, hobf, hblocks, hnext⟩
  · rwa [hblocks, hnext]
  · obtain ⟨hmem, hI⟩ := mem_of_todo h
    obtain ⟨-, h1, h2⟩ := below_of_todo hc h
    obtain ⟨hvalid, hr, -⟩ := obfuscate_valid hobf h1 h2
    rw [hblocks, hnext]
    have hphis : ∀ b ∈ c.blocks, ∀ p ∈ b.phis, p.id ≠ x := fun b hb p hp =>
      ((hc.replaceable hmem hI b hb).phis p hp).2
    have hseq : ∀ i ∈ builder.inserted, c.nextId ≤ i.id ∧ i.Below builder.nextId := fun i hi =>
      ⟨(hvalid.inserted i hi).1.le, (hvalid.inserted i hi).2⟩
    exact hc.replace hphis hvalid.le hseq hvalid.nodup hr

section Invariant

variable {P : Blocks κ ο → ℕ → Prop}
variable (hvisit : ∀ (c : Cursor κ ο) (I : Inst κ ο) (rest : List (Inst κ ο)), c.todo = I :: rest →
  P c.blocks c.nextId →
    P (visit fold I { c with todo := rest }).blocks (visit fold I { c with todo := rest }).nextId)

include hvisit

/-- What every visit keeps, the inner loop keeps. -/
theorem visitBlock_inv (c : Cursor κ ο) (hc : P c.blocks c.nextId) :
    P (visitBlock fold c).blocks (visitBlock fold c).nextId := by
  fun_induction visitBlock fold c with
  | case1 c h => exact hc
  | case2 c I rest h ih => exact ih (hvisit c I rest h hc)

/-- **What every visit keeps, the pass keeps.** -/
theorem visitBlocks_inv (before after : Blocks κ ο) (nextId : ℕ) (changed : Bool)
    (hF : P (before ++ after) nextId) :
    P (visitBlocks fold before after nextId changed).1
      (visitBlocks fold before after nextId changed).2.1 := by
  fun_induction visitBlocks fold before after nextId changed with
  | case1 before nextId changed => simpa using hF
  | case2 before nextId changed B after c ih =>
    have hc : P c.blocks c.nextId := visitBlock_inv hvisit _ hF
    exact ih (by simpa [Cursor.blocks] using hc)

end Invariant

theorem visitBlock_wellFormed (c : Cursor κ ο) (hc : c.blocks.WellFormed c.nextId) :
    (visitBlock fold c).blocks.WellFormed (visitBlock fold c).nextId :=
  visitBlock_inv (fun _ _ _ h hwf => visit_wellFormed hwf h) c hc

theorem visitBlocks_wellFormed (before after : Blocks κ ο) (nextId : ℕ) (changed : Bool)
    (hF : Blocks.WellFormed (before ++ after) nextId) :
    (visitBlocks fold before after nextId changed).1.WellFormed
      (visitBlocks fold before after nextId changed).2.1 :=
  visitBlocks_inv (fun _ _ _ h hwf => visit_wellFormed hwf h) before after nextId changed hF

/-! ## The pass -/

/-- What the pass tells the analysis manager. -/
inductive PreservedAnalyses where
  | all | none
  deriving DecidableEq

/-- `BinaryObfuscationPass::run`. -/
def run (fold : Folder κ) (F : Func κ ο) : Func κ ο × PreservedAnalyses :=
  if F.hkMutate then
    let result := visitBlocks fold [] F.blocks F.nextId false
    ({ F with
        blocks := result.1
        nextId := result.2.1
        wellFormed := visitBlocks_wellFormed [] F.blocks F.nextId false F.wellFormed },
      if result.2.2 then .none else .all)
  else (F, .all)

/-- What it does to a function that has the attribute. -/
theorem run_of_hkMutate {F : Func κ ο} (h : F.hkMutate = true) :
    (run fold F).1.blocks = (visitBlocks fold [] F.blocks F.nextId false).1 ∧
      (run fold F).1.nextId = (visitBlocks fold [] F.blocks F.nextId false).2.1 ∧
      (run fold F).2 = if (visitBlocks fold [] F.blocks F.nextId false).2.2 then .none else .all := by
  rw [run, if_pos h]
  exact ⟨rfl, rfl, rfl⟩

end Mutator

end HkSystem
