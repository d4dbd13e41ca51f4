import HkSystem.Mutator.Model.Pass
import Mathlib.Data.BitVec
import Mathlib.Order.CompleteBooleanAlgebra
import Mathlib.Order.CompletePartialOrder
/-!
# The mutation pass preserves meaning

`b - ~c - 1` is `b + c` at every width (`sub_not_sub_one`), also where a use
of an undefined operand may see any bit pattern, and it is defined wherever the
addition is: the instructions the builder inserts have no flags. What they
compute is thus at least as definite as the addition (`add_le_obfuscated`), and
one visit of the inner loop replaces the one by the other in the whole function
(`visit_refines`). The pass is a run of such visits.
-/

namespace HkSystem

namespace Mutator

open Ssa

variable {κ ο α μ η : Type} [Preorder α]

/-! ## The identity -/

/-- **The identity behind the pass**, at every width. -/
theorem sub_not_sub_one {w : ℕ} (b c : BitVec w) :
    b - (c ^^^ BitVec.allOnes w) - 1 = b + c := by
  have hneg : -c = (c ^^^ BitVec.allOnes w) + 1 := by
    rw [BitVec.xor_allOnes, BitVec.neg_eq_not_add]
    rfl
  calc b - (c ^^^ BitVec.allOnes w) - 1
      = b - ((c ^^^ BitVec.allOnes w) + 1) := by rw [sub_sub]
    _ = b + c := by rw [← hneg, sub_neg_eq_add]

/-- The sequence is at least as definite as the addition, whatever its flags. -/
theorem add_le_obfuscated (w : ℕ) (nsw nuw : Bool) (x y : Value α) :
    evalBin .add w nsw nuw x y ≤
      evalBin .sub w false false
        (evalBin .sub w false false x
          (evalBin .xor w false false y (.ofBits (BitVec.allOnes w))))
        (.ofBits (1 : BitVec w)) := by
  refine le_trans (evalBin_le_wrap .add w nsw nuw x y) ?_
  rcases hS : x.asInt w with _ | S
  · simp [evalBin, hS, Value.poison_le]
  rcases hT : y.asInt w with _ | T
  · simp [evalBin, hS, hT, Value.poison_le]
  obtain rfl := Value.eq_int_of_asInt hS
  obtain rfl := Value.eq_int_of_asInt hT
  simp only [Value.ofBits, evalBin_int]
  -- each operand is used once, so every pattern the sequence can give is a sum
  refine Value.Le.int ?_
  rintro v ⟨d, ⟨b, hb, u, ⟨c, hc, ones, rfl, rfl⟩, rfl⟩, one, rfl, rfl⟩
  exact ⟨b, hb, c, hc, (sub_not_sub_one b c).symm⟩

/-! ## The builder -/

/-- **What is assumed of the folder**: the constant may stand for the operation. -/
def Folder.Sound (sem : Semantics κ ο α μ η) (fold : Folder κ) : Prop :=
  ∀ k w c d e, fold k w c d = some e →
    evalBin k w false false (sem.evalConst c) (sem.evalConst d) ≤ sem.evalConst e

variable {sem : Semantics κ ο α μ η} {fold : Folder κ} {args : ℕ → Value α}

variable (sem args) in
/-- The value of an operand after what the builder has inserted, the uses
replaced as they will be. -/
noncomputable def IRBuilder.value (σ : ℕ → Operand κ) (env : Env α) (builder : IRBuilder κ ο)
    (o : Operand κ) : Value α :=
  eval sem args (runBins sem args (builder.inserted.map (·.bind σ)) env) (o.bind σ)

section Builder

variable {n : ℕ} {builder builder' : IRBuilder κ ο} {k : BinKind} {w : ℕ} {a b r : Operand κ}
  {σ : ℕ → Operand κ} {env : Env α}

omit [Preorder α] in
theorem value_insert (hvalid : builder.Valid n) (id : ℕ) (o : Operand κ) :
    IRBuilder.value sem args σ env
        ⟨id + 1, builder.inserted ++ [.bin id k w false false a b]⟩ o =
      eval sem args (Function.update (runBins sem args (builder.inserted.map (·.bind σ)) env) id
        (evalBin k w false false (builder.value sem args σ env a)
          (builder.value sem args σ env b))) (o.bind σ) := by
  have hscratch : ∀ i ∈ builder.inserted.map (·.bind σ), i.Scratch n := by
    intro i hi
    obtain ⟨j, hj, rfl⟩ := List.mem_map.1 hi
    exact (hvalid.inserted j hj).1.bind σ
  rw [IRBuilder.value, List.map_append, runBins_append hscratch]
  rfl

/-- **The builder's result is the operation**, or what it folds to. -/
theorem createBinOp_value (h : createBinOp fold k w a b builder = (r, builder'))
    (hvalid : builder.Valid n) (hfold : fold.Sound sem)
    (hσ : σ builder.nextId = .inst builder.nextId) :
    evalBin k w false false (builder.value sem args σ env a) (builder.value sem args σ env b) ≤
      builder'.value sem args σ env r := by
  rcases createBinOp_cases fold k w a b builder with ⟨c, d, e, rfl, rfl, hcd, heq⟩ | heq
  · obtain ⟨rfl, rfl⟩ := Prod.mk.inj (heq.symm.trans h)
    exact hfold k w c d e hcd
  · obtain ⟨rfl, rfl⟩ := Prod.mk.inj (heq.symm.trans h)
    rw [value_insert hvalid, Operand.bind, hσ, eval, Function.update_self]

omit [Preorder α] in
/-- It changes no operand but its result. -/
theorem createBinOp_frame (h : createBinOp fold k w a b builder = (r, builder'))
    (hvalid : builder.Valid n) {o : Operand κ}
    (ho : ∀ id, o.bind σ = .inst id → id < builder.nextId ∨ builder'.nextId ≤ id) :
    builder'.value sem args σ env o = builder.value sem args σ env o := by
  rcases createBinOp_cases fold k w a b builder with ⟨c, d, e, rfl, rfl, hcd, heq⟩ | heq
  · obtain ⟨rfl, rfl⟩ := Prod.mk.inj (heq.symm.trans h)
    rfl
  · obtain ⟨rfl, rfl⟩ := Prod.mk.inj (heq.symm.trans h)
    have hne : o.bind σ ≠ .inst builder.nextId := by
      intro heq
      have hid := ho _ heq
      simp only at hid
      omega
    rw [value_insert hvalid, eval_update_of_ne _ _ hne, IRBuilder.value]

end Builder

/-- **The three instructions compute the addition.** -/
theorem obfuscate_expands (hfold : fold.Sound sem) {n x w : ℕ} (hx : x < n) {op1 op2 r : Operand κ}
    {builder : IRBuilder κ ο} (h : obfuscate fold w op1 op2 ⟨n, []⟩ = (r, builder))
    (h1 : op1.Below n) (h2 : op2.Below n) (nsw nuw : Bool) :
    Expands sem n x .add w nsw nuw op1 op2 builder.inserted r := by
  obtain ⟨hvalid, -, hfresh⟩ := obfuscate_valid h h1 h2
  refine ⟨fun i hi => (hvalid.inserted i hi).1, hfresh, fun args env env' henv => ?_⟩
  obtain ⟨notOp2, builder₁, sub1, builder₂, hnot, hsub, hlast⟩ := obfuscate_calls h
  obtain ⟨hv₁, hle₁, hr₁, -⟩ := createBinOp_valid hnot (valid_start n) h2 trivial
  obtain ⟨hv₂, hle₂, hr₂, -⟩ := createBinOp_valid hsub hv₁ (h1.mono hle₁) hr₁
  obtain ⟨-, -, -, hnew⟩ := createBinOp_valid hlast hv₂ hr₂ trivial
  have hσ : ∀ id, n ≤ id → single x r id = .inst id := fun id hid => if_neg (by omega)
  -- what the three calls compute
  have hnotv : evalBin .xor w false false (eval sem args env' (op2.bind (single x r)))
      (.ofBits (BitVec.allOnes w)) ≤ builder₁.value sem args (single x r) env' notOp2 :=
    createBinOp_value hnot (valid_start n) hfold (hσ _ (le_refl n))
  have hsubv : evalBin .sub w false false (builder₁.value sem args (single x r) env' op1)
      (builder₁.value sem args (single x r) env' notOp2) ≤
        builder₂.value sem args (single x r) env' sub1 :=
    createBinOp_value hsub hv₁ hfold (hσ _ hv₁.le)
  have hlastv : evalBin .sub w false false (builder₂.value sem args (single x r) env' sub1)
      (.ofBits (1 : BitVec w)) ≤ builder.value sem args (single x r) env' r :=
    createBinOp_value hlast hv₂ hfold (hσ _ hv₂.le)
  -- the negation leaves the first operand alone, even if that is the addition itself
  have hop1 : builder₁.value sem args (single x r) env' op1 =
      eval sem args env' (op1.bind (single x r)) := by
    refine createBinOp_frame hnot (valid_start n) fun id hid => ?_
    rcases h1.of_bind_single hid with hlt | rfl
    · exact Or.inl hlt
    · have hge : builder₂.nextId ≤ id := hnew
      exact Or.inr (le_trans hle₂ hge)
  have hvalue : builder.value sem args (single x r) env' r =
      eval sem args (runBins sem args (builder.inserted.map (·.bind (single x r))) env') r := by
    rw [IRBuilder.value, hfresh.bind_single hx]
  calc evalBin .add w nsw nuw (eval sem args env op1) (eval sem args env op2)
      ≤ evalBin .add w nsw nuw (eval sem args env' (op1.bind (single x r)))
          (eval sem args env' (op2.bind (single x r))) :=
        evalBin_mono (henv.eval_le h1) (henv.eval_le h2)
    _ ≤ _ := add_le_obfuscated w nsw nuw _ _
    _ ≤ _ := evalBin_mono (evalBin_mono (le_of_eq hop1.symm) hnotv) (le_refl _)
    _ ≤ _ := evalBin_mono hsubv (le_refl _)
    _ ≤ _ := hlastv
    _ = _ := hvalue

/-! ## The traversal -/

section Traversal

variable [Preorder μ] (hlaw : sem.Lawful) (hfold : fold.Sound sem)

include hlaw hfold

/-- **One visit refines the function.** -/
theorem visit_refines {c : Cursor κ ο} (hc : c.blocks.WellFormed c.nextId) {I : Inst κ ο}
    {rest : List (Inst κ ο)} (h : c.todo = I :: rest) :
    Refines sem c.blocks (visit fold I { c with todo := rest }).blocks := by
  rcases visit_cases hc h (rfl : visit fold I _ = _) with ⟨hblocks, -⟩ |
    ⟨x, w, nsw, nuw, op1, op2, r, builder, rfl, hobf, hblocks, -⟩
  · rw [hblocks]
    exact .refl c.blocks
  · obtain ⟨hmem, hI⟩ := mem_of_todo h
    obtain ⟨hx, h1, h2⟩ := below_of_todo hc h
    rw [hblocks]
    exact refines_replace hlaw (obfuscate_expands hfold hx hobf h1 h2 nsw nuw)
      (hc.replaceable hmem hI)

/-- The pass is a run of visits. -/
theorem refines_run (F : Func κ ο) : Refines sem F.blocks (run fold F).1.blocks := by
  unfold run
  split
  · refine (visitBlocks_inv (P := fun G n => G.WellFormed n ∧ Refines sem F.blocks G) ?_ [] F.blocks
      F.nextId false ⟨F.wellFormed, .refl F.blocks⟩).2
    rintro c I rest h ⟨hwf, hrefines⟩
    exact ⟨visit_wellFormed hwf h, hrefines.trans (visit_refines hlaw hfold hwf h)⟩
  · exact .refl F.blocks

/-- **The pass preserves meaning.** Whatever the function — any control flow, any
other instructions, any widths and flags, additions fed by additions — every
run of the rewritten function is accounted for by the original. Where the
original has no undefined behaviour, a run that returns has the path and the
effects of a run of the original and returns its value, and a run that has not
returned goes on where the original does. -/
theorem run_preserves_meaning (F : Func κ ο) :
    Refines sem F.blocks (run fold F).1.blocks ∧
    ∀ (args : ℕ → Value α) (m : μ),
      (∀ path effs, ¬ Runs sem args F.blocks (start F.blocks m) path effs .ub) →
      (∀ path effs' v' m',
        Runs sem args (run fold F).1.blocks (start (run fold F).1.blocks m) path effs'
          (.ret v' m') →
        ∃ effs v m₀, Runs sem args F.blocks (start F.blocks m) path effs (.ret v m₀) ∧
          EffsLe effs effs' ∧ m₀ ≤ m' ∧ v ≤ v' ∧
          ∀ {w : ℕ} (b : BitVec w), v = .ofBits b → v' = .ofBits b) ∧
      ∀ path effs' s',
        Runs sem args (run fold F).1.blocks (start (run fold F).1.blocks m) path effs'
          (.running s') →
        ∃ effs s, Runs sem args F.blocks (start F.blocks m) path effs (.running s) ∧
          EffsLe effs effs' ∧ s.label = s'.label ∧ s.mem ≤ s'.mem ∧
          (SafeAt sem args F.blocks s →
            ∃ more e, BlockExec sem args (run fold F).1.blocks s' more e) := by
  have hrefines := refines_run hlaw hfold F
  refine ⟨hrefines, fun args m hub => ⟨fun path effs' v' m' hruns => ?_, ?_⟩⟩
  · obtain ⟨effs, v, m₀, hruns₀, heffs, hv, hm⟩ := hrefines.ret hub hruns
    refine ⟨effs, v, m₀, hruns₀, heffs, hm, hv, ?_⟩
    rintro w b rfl
    exact Value.eq_of_ofBits_le hv
  · intro path effs' s' hruns
    exact hrefines.progress hub hruns

end Traversal

/-! ## A loop that prints -/

namespace Count

/-- The instructions of a small language. -/
inductive Op where
  | print
  | br (label : ℕ)

/-- Printing poison is undefined. -/
inductive Does : Op → List (Value Empty) → Unit → List (Effect Unit Empty) →
    Outcome Empty Unit → Prop
  | print {v : Value Empty} : v ≠ .poison → Does .print [v] () [⟨(), [v]⟩] (.next .poison ())
  | printPoison : Does .print [.poison] () [] .ub
  | br (label : ℕ) : Does (.br label) [] () [] (.goto label ())

def semantics : Semantics Empty Op Empty Unit Unit := ⟨Empty.elim, Does⟩

theorem lawful : semantics.Lawful := by
  refine ⟨fun {o vs vs' m m' effs' out'} hvs _ h => ?_, fun {o vs vs' m m' effs out} hvs _ h => ?_⟩
  · cases h with
    | @print v' hv' =>
      obtain ⟨v, _, hv, hnil, rfl⟩ := List.forall₂_cons_right_iff.1 hvs
      obtain rfl := List.forall₂_nil_right_iff.1 hnil
      by_cases hp : v = .poison
      · subst hp
        exact Or.inl ⟨[], .printPoison, 0, .nil⟩
      · exact Or.inr ⟨_, _, .print hp, .cons ⟨rfl, hvs⟩ .nil, .next (le_refl _) (le_refl _)⟩
    | printPoison =>
      obtain ⟨v, _, hv, hnil, rfl⟩ := List.forall₂_cons_right_iff.1 hvs
      obtain rfl := List.forall₂_nil_right_iff.1 hnil
      cases hv
      exact Or.inl ⟨[], .printPoison, 0, .nil⟩
    | br label =>
      obtain rfl := List.forall₂_nil_right_iff.1 hvs
      exact Or.inr ⟨_, _, .br label, .nil, .goto (le_refl _)⟩
  · have hprint : ∀ v', ∃ effs' out', semantics.exec .print [v'] () effs' out' := by
      intro v'
      by_cases hp : v' = .poison
      · subst hp
        exact ⟨_, _, .printPoison⟩
      · exact ⟨_, _, .print hp⟩
    cases h with
    | print hv =>
      obtain ⟨v', _, -, hnil, rfl⟩ := List.forall₂_cons_left_iff.1 hvs
      obtain rfl := List.forall₂_nil_left_iff.1 hnil
      exact hprint v'
    | printPoison =>
      obtain ⟨v', _, -, hnil, rfl⟩ := List.forall₂_cons_left_iff.1 hvs
      obtain rfl := List.forall₂_nil_left_iff.1 hnil
      exact hprint v'
    | br label =>
      obtain rfl := List.forall₂_nil_left_iff.1 hvs
      exact ⟨_, _, .br label⟩

/-- Folds integers of the width asked for. -/
def foldInts : Folder Empty
  | k, w, .int w₁ b, .int w₂ c =>
    if h : w₁ = w ∧ w₂ = w then some (.int w (k.apply (b.cast h.1) (c.cast h.2))) else none
  | _, _, _, _ => none

theorem foldInts_sound : foldInts.Sound semantics := by
  intro k w c d e h
  cases c with
  | int w₁ b =>
    cases d with
    | int w₂ b' =>
      rw [foldInts] at h
      split at h
      · next hw =>
        obtain ⟨rfl, rfl⟩ := hw
        obtain rfl := Option.some.inj h
        simp [Semantics.evalConst, Value.ofBits, evalBin_int]
      · cases h
    | other k' => exact k'.elim
  | other k' => exact k'.elim

/-- `for (i8 i = 0;;) print(++i)`, the increment without signed wrap. -/
def loop : Func Empty Op where
  hkMutate := true
  blocks :=
    [⟨0, [], [.other 0 (.br 1) []]⟩,
     ⟨1, [⟨1, [(0, .const (.int 8 0)), (1, .inst 2)]⟩],
      [.bin 2 .add 8 true false (.inst 1) (.const (.int 8 1)), .other 3 .print [.inst 2],
       .other 4 (.br 1) []]⟩]
  nextId := 5
  wellFormed := by decide

/-- What becomes of it: `~1` is folded, and the phi and the print read the last
subtraction. -/
def mutated : Blocks Empty Op :=
  [⟨0, [], [.other 0 (.br 1) []]⟩,
   ⟨1, [⟨1, [(0, .const (.int 8 0)), (1, .inst 6)]⟩],
    [.bin 5 .sub 8 false false (.inst 1) (.const (.int 8 254)),
     .bin 6 .sub 8 false false (.inst 5) (.const (.int 8 1)), .other 3 .print [.inst 6],
     .other 4 (.br 1) []]⟩]

theorem run_loop : (run foldInts loop).1.blocks = mutated := by
  simp [run, loop, mutated, visitBlocks, visitBlock, visit, obfuscate, createNot, createSub,
    createBinOp, fold?, foldInts, Cursor.replaceAllUsesWith, Cursor.block, Block.bind, Inst.bind,
    Phi.bind, Operand.bind, single, BinKind.apply]

end Count

/-- The loop, rewritten, prints what it printed. -/
theorem run_preserves_meaning_loop :
    Refines Count.semantics Count.loop.blocks Count.mutated := by
  have hrefines := (run_preserves_meaning Count.lawful Count.foldInts_sound Count.loop).1
  rwa [Count.run_loop] at hrefines

end Mutator

end HkSystem
