import HkSystem.Mutator.Completeness
import Mathlib.Algebra.Order.Ring.Nat
/-!
# What the pass reports, and how much it adds

The pass tells LLVM which analyses are still valid: none if it changed anything, all
otherwise. It sets `changed` where it replaces an addition and nowhere else, while
the rest of the function is edited under it. A ledger over the loops (`Passed`)
counts the additions it has been over: they decide the report (`report_exact`), and
they bound what the function grows by (`growth_exact`).
-/

namespace HkSystem

namespace Mutator

open Ssa

variable {κ ο : Type} {fold : Folder κ}

/-! ## Counting -/

def instructions (blocks : Blocks κ ο) : ℕ := (blocks.map (·.body.length)).sum

/-- The scalar integer additions of the blocks. -/
def additions (blocks : Blocks κ ο) : ℕ := (blocks.map (·.body.countP isAdd)).sum

theorem instructions_append (blocks blocks' : Blocks κ ο) :
    instructions (blocks ++ blocks') = instructions blocks + instructions blocks' := by
  simp [instructions]

theorem additions_cons (b : Block κ ο) (blocks : Blocks κ ο) :
    additions (b :: blocks) = b.body.countP isAdd + additions blocks := rfl

@[simp] theorem instructions_bind (blocks : Blocks κ ο) (σ : ℕ → Operand κ) :
    instructions (blocks.map (·.bind σ)) = instructions blocks := by
  have hblock : ∀ b : Block κ ο, (b.bind σ).body.length = b.body.length := fun b =>
    List.length_map _
  simp [instructions, Function.comp_def, hblock]

@[simp] theorem countP_isAdd_bind (body : List (Inst κ ο)) (σ : ℕ → Operand κ) :
    (body.map (·.bind σ)).countP isAdd = body.countP isAdd := by
  simp [List.countP_map, Function.comp_def]

@[simp] theorem additions_bind (blocks : Blocks κ ο) (σ : ℕ → Operand κ) :
    additions (blocks.map (·.bind σ)) = additions blocks := by
  have hblock : ∀ b : Block κ ο, (b.bind σ).body.countP isAdd = b.body.countP isAdd := fun b =>
    countP_isAdd_bind b.body σ
  simp [additions, Function.comp_def, hblock]

theorem additions_eq_zero {blocks : Blocks κ ο} :
    additions blocks = 0 ↔ ∀ b ∈ blocks, AddFree b.body := by
  induction blocks with
  | nil => simp [additions]
  | cons b blocks ih =>
    rw [additions_cons, Nat.add_eq_zero_iff, ih, List.forall_mem_cons]
    simp [AddFree]

/-- A builder that folds no constants. -/
def Unfolding (fold : Folder κ) : Prop := ∀ k w c d, fold k w c d = none

theorem createBinOp_length {k : BinKind} {w : ℕ} {a b r : Operand κ}
    {builder builder' : IRBuilder κ ο} (h : createBinOp fold k w a b builder = (r, builder')) :
    builder'.inserted.length + builder.nextId = builder.inserted.length + builder'.nextId ∧
      builder'.nextId ≤ builder.nextId + 1 ∧
      (Unfolding fold → builder'.nextId = builder.nextId + 1) := by
  rcases createBinOp_cases fold k w a b builder with ⟨c, d, e, _, _, hfold, heq⟩ | heq
  · obtain ⟨rfl, rfl⟩ := Prod.mk.inj (heq.symm.trans h)
    refine ⟨by omega, by omega, fun hnone => ?_⟩
    rw [hnone k w c d] at hfold
    cases hfold
  · obtain ⟨rfl, rfl⟩ := Prod.mk.inj (heq.symm.trans h)
    simp only [List.length_append, List.length_singleton]
    exact ⟨by omega, by omega, fun _ => trivial⟩

/-- For an addition at most three instructions are inserted, each under a new name. -/
theorem obfuscate_length {w m : ℕ} {op1 op2 r : Operand κ} {builder : IRBuilder κ ο}
    (h : obfuscate fold w op1 op2 ⟨m, []⟩ = (r, builder)) :
    builder.inserted.length + m = builder.nextId ∧ builder.nextId ≤ m + 3 ∧
      (Unfolding fold → builder.nextId = m + 3) := by
  obtain ⟨notOp2, builder₁, sub1, builder₂, hnot, hsub, hlast⟩ := obfuscate_calls h
  obtain ⟨hlen₁, hle₁, heq₁⟩ := createBinOp_length hnot
  obtain ⟨hlen₂, hle₂, heq₂⟩ := createBinOp_length hsub
  obtain ⟨hlen, hle, heq⟩ := createBinOp_length hlast
  simp only [List.length_nil] at hlen₁ hle₁ heq₁
  refine ⟨by omega, by omega, fun hnone => ?_⟩
  rw [heq hnone, heq₂ hnone, heq₁ hnone]

/-! ## The ledger -/

/-- The instructions of the function while the pass is in one of its blocks. -/
def Cursor.instructions (c : Cursor κ ο) : ℕ :=
  Mutator.instructions c.before + c.done.length + c.todo.length + Mutator.instructions c.after

/-- From `c` to `c'` the pass has been over `k` additions: it notes if there was one,
and each is gone, for the instructions that took a new name. -/
structure Passed (fold : Folder κ) (c c' : Cursor κ ο) (k : ℕ) : Prop where
  changed : c'.changed = (c.changed || decide (0 < k))
  instructions : c'.instructions + k + c.nextId = c.instructions + c'.nextId
  nextId_le : c'.nextId ≤ c.nextId + 3 * k
  nextId_eq : Unfolding fold → c'.nextId = c.nextId + 3 * k
  after : additions c'.after = additions c.after

theorem Passed.refl (c : Cursor κ ο) : Passed fold c c 0 :=
  ⟨by simp, rfl, le_refl _, fun _ => rfl, rfl⟩

theorem Passed.trans {c c' c'' : Cursor κ ο} {k k' : ℕ} (h : Passed fold c c' k)
    (h' : Passed fold c' c'' k') : Passed fold c c'' (k + k') := by
  have hchanged := h.changed
  have hcount := h.instructions
  have hcount' := h'.instructions
  have hle := h.nextId_le
  have hle' := h'.nextId_le
  refine ⟨?_, by omega, by omega, fun hnone => ?_, h'.after.trans h.after⟩
  · rw [h'.changed, hchanged, Bool.or_assoc, ← Bool.decide_or]
    congr 2
    exact propext (by omega)
  · rw [h'.nextId_eq hnone, h.nextId_eq hnone]
    omega

/-- **One visit**: of an addition, or of anything else. The additions behind are
left to be found. -/
theorem visit_passed {I : Inst κ ο} {rest : List (Inst κ ο)} {c : Cursor κ ο}
    (h : c.todo = I :: rest) :
    Passed fold c (visit fold I { c with todo := rest }) (if isAdd I then 1 else 0) ∧
      (visit fold I { c with todo := rest }).todo.countP isAdd = rest.countP isAdd := by
  cases hI : isAdd I with
  | false =>
    rw [visit_of_not_isAdd hI]
    refine ⟨⟨by simp, ?_, by simp, fun _ => rfl, rfl⟩, rfl⟩
    simp only [Cursor.instructions, h, List.length_append, List.length_cons, List.length_nil,
      Bool.false_eq_true, if_false]
    omega
  | true =>
    obtain ⟨x, w, nsw, nuw, op1, op2, rfl⟩ := exists_of_isAdd hI
    rcases hobf : obfuscate fold w op1 op2 (⟨c.nextId, []⟩ : IRBuilder κ ο) with ⟨r, builder⟩
    obtain ⟨hlen, hle, heq⟩ := obfuscate_length hobf
    simp only [visit, hobf, Cursor.replaceAllUsesWith, if_true, countP_isAdd_bind, and_true]
    refine ⟨by simp, ?_, hle, heq, by simp⟩
    simp only [Cursor.instructions, h, instructions_bind, List.length_map, List.length_append,
      List.length_cons]
    omega

/-- The inner loop goes over the additions of its block. -/
theorem visitBlock_passed (c : Cursor κ ο) :
    Passed fold c (visitBlock fold c) (c.todo.countP isAdd) := by
  fun_induction visitBlock fold c with
  | case1 c h =>
    rw [h]
    exact Passed.refl c
  | case2 c I rest h ih =>
    obtain ⟨hvisit, htodo⟩ := @visit_passed _ _ fold _ _ _ h
    rw [htodo] at ih
    rw [h, List.countP_cons, Nat.add_comm]
    exact hvisit.trans ih

/-- The outer loop goes over all there are. -/
theorem visitBlocks_passed (before after : Blocks κ ο) (nextId : ℕ) (changed : Bool) :
    (visitBlocks fold before after nextId changed).2.2
        = (changed || decide (0 < additions after)) ∧
      instructions (visitBlocks fold before after nextId changed).1 + additions after + nextId
        = instructions before + instructions after
          + (visitBlocks fold before after nextId changed).2.1 ∧
      (visitBlocks fold before after nextId changed).2.1 ≤ nextId + 3 * additions after ∧
      (Unfolding fold →
        (visitBlocks fold before after nextId changed).2.1 = nextId + 3 * additions after) := by
  fun_induction visitBlocks fold before after nextId changed with
  | case1 before nextId changed => simp [additions, instructions]
  | case2 before nextId changed B after c ih =>
    have hpassed : Passed fold ⟨before, B.label, B.phis, [], B.body, after, nextId, changed⟩ c
        (B.body.countP isAdd) := visitBlock_passed _
    have hinner : c.instructions + B.body.countP isAdd + nextId
        = instructions before + 0 + B.body.length + instructions after + c.nextId :=
      hpassed.instructions
    have hinner_le : c.nextId ≤ nextId + 3 * B.body.countP isAdd := hpassed.nextId_le
    have hafter : additions c.after = additions after := hpassed.after
    have htodo : c.todo = [] := todo_visitBlock _
    have hblock : instructions [c.block] = c.done.length := by
      simp [instructions, Cursor.block, htodo]
    have hcons : instructions (B :: after) = B.body.length + instructions after := rfl
    have hinner_eq : Unfolding fold → c.nextId = nextId + 3 * B.body.countP isAdd :=
      hpassed.nextId_eq
    obtain ⟨hchanged, hcount, hle, heq⟩ := ih
    rw [hafter] at hchanged hcount hle heq
    rw [instructions_append, hblock] at hcount
    simp only [Cursor.instructions, htodo, List.length_nil] at hinner
    rw [additions_cons, hcons]
    refine ⟨?_, by omega, by omega, fun hnone => ?_⟩
    · rw [hchanged, hpassed.changed, Bool.or_assoc, ← Bool.decide_or]
      congr 2
      exact propext (by omega)
    · rw [heq hnone, hinner_eq hnone]
      omega

/-! ## The report -/

/-- What the pass does to a function with the attribute, as it counts. -/
theorem run_passed (fold : Folder κ) {F : Func κ ο} (h : F.hkMutate = true) :
    (run fold F).2 = (if 0 < additions F.blocks then .none else .all) ∧
      instructions (run fold F).1.blocks + additions F.blocks + F.nextId
        = instructions F.blocks + (run fold F).1.nextId ∧
      (run fold F).1.nextId ≤ F.nextId + 3 * additions F.blocks ∧
      (Unfolding fold → (run fold F).1.nextId = F.nextId + 3 * additions F.blocks) := by
  obtain ⟨hblocks, hnext, hreport⟩ := @run_of_hkMutate _ _ fold F h
  obtain ⟨hchanged, hcount, hle, heq⟩ := @visitBlocks_passed _ _ fold [] F.blocks F.nextId false
  rw [hblocks, hnext, hreport, hchanged]
  refine ⟨by simp, ?_, hle, heq⟩
  rw [hcount]
  simp [instructions]

/-- **The report is exact.** The pass says that all analyses are preserved exactly when
the function does not carry the attribute or has no scalar integer addition; then
it returns the function as it was. Otherwise it says that none is, and the
instructions it returns are others. -/
theorem report_exact (fold : Folder κ) (F : Func κ ο) :
    ((run fold F).2 = .all ↔
        F.hkMutate = false ∨ ∀ b ∈ F.blocks, ∀ i ∈ b.body, isAdd i = false) ∧
      ((run fold F).2 = .all → (run fold F).1 = F) ∧
      ((run fold F).2 = .none → (run fold F).1.blocks ≠ F.blocks) := by
  cases hattr : F.hkMutate with
  | false =>
    rw [run, if_neg (by rw [hattr]; decide)]
    exact ⟨⟨fun _ => Or.inl rfl, fun _ => rfl⟩, fun _ => rfl, fun h => by cases h⟩
  | true =>
    obtain ⟨hreport, -⟩ := run_passed fold hattr
    rcases Nat.eq_zero_or_pos (additions F.blocks) with hnone | hsome
    · have hfree := additions_eq_zero.1 hnone
      rw [run_of_addFree hfree]
      exact ⟨⟨fun _ => Or.inr hfree, fun _ => rfl⟩, fun _ => rfl, fun h => by cases h⟩
    · have hnot : ¬ ∀ b ∈ F.blocks, AddFree b.body := fun hfree =>
        hsome.ne' (additions_eq_zero.2 hfree)
      have hne : PreservedAnalyses.none ≠ .all := by decide
      rw [hreport, if_pos hsome]
      refine ⟨⟨fun h => absurd h hne, fun h => ?_⟩, fun h => absurd h hne, fun _ heq => ?_⟩
      · rcases h with h | h
        · cases h
        · exact absurd h hnot
      -- the additions of the function are gone from what comes out
      · exact hnot (heq ▸ run_addFree hattr)

/-- Of two chained additions the pass reports a change; of what it made of them,
none. -/
theorem report_exact_chain :
    (run (fun _ _ _ _ => none) chain).2 = .none ∧
      (run (fun _ _ _ _ => none) chain).1.blocks ≠ chain.blocks ∧
      (run (fun _ _ _ _ => none) (run (fun _ _ _ _ => none) chain).1).1
        = (run (fun _ _ _ _ => none) chain).1 := by
  have hreport : (run (fun _ _ _ _ => none) chain).2 = .none :=
    (run_passed _ rfl).1.trans (if_pos (by decide))
  refine ⟨hreport, (report_exact _ chain).2.2 hreport, (report_exact _ _).2.1 ?_⟩
  exact (report_exact _ _).1.2 (Or.inr (run_addFree rfl))

/-- **What the pass adds.** Every instruction it inserts takes a name the function did
not use and every addition goes, so the names taken are the growth and the
additions together. The function grows by two instructions for an addition if the
builder folds nothing, and with no builder by more. -/
theorem growth_exact (fold : Folder κ) (F : Func κ ο) (h : F.hkMutate = true) :
    instructions (run fold F).1.blocks + additions F.blocks + F.nextId
        = instructions F.blocks + (run fold F).1.nextId ∧
      instructions (run fold F).1.blocks ≤ instructions F.blocks + 2 * additions F.blocks ∧
      (Unfolding fold →
        instructions (run fold F).1.blocks = instructions F.blocks + 2 * additions F.blocks) := by
  obtain ⟨-, hcount, hle, heq⟩ := run_passed fold h
  refine ⟨hcount, by omega, fun hnone => ?_⟩
  have := heq hnone
  omega

/-- The two chained additions and the instruction that reads them become seven. -/
theorem growth_exact_chain :
    instructions (run (fun _ _ _ _ => none) chain).1.blocks = 7 :=
  (growth_exact (fun _ _ _ _ => none) chain rfl).2.2 fun _ _ _ _ => rfl

end Mutator

end HkSystem
