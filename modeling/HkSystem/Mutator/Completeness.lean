import HkSystem.Common.SsaRewrite
import HkSystem.Mutator.Traversal
/-!
# The mutation pass is complete, local and idempotent

No addition is left when the pass has been over a function: what stands behind
the cursor has none, and what the builder inserts is none. What the pass has
done to the function at any point is one rewriting of it (`Mutation`): each
addition visited so far has given way, where it stood, to the sequence the
builder made for it, and the operands that named it now name the result of that
sequence. A second run finds no addition and leaves everything as it is.
-/

namespace HkSystem

namespace Mutator

open Ssa

variable {κ ο : Type} {fold : Folder κ} {c : Cursor κ ο} {I : Inst κ ο} {rest : List (Inst κ ο)}
variable {n : ℕ}

/-! ## Additions -/

/-- `I.getOpcode() == Instruction::Add && I.getType()->isIntegerTy()`. -/
def isAdd : Inst κ ο → Bool
  | .bin _ .add _ _ _ _ _ => true
  | _ => false

@[simp] theorem isAdd_bind (σ : ℕ → Operand κ) (i : Inst κ ο) : isAdd (i.bind σ) = isAdd i := by
  rcases i with ⟨x, k, w, nsw, nuw, a, b⟩ | ⟨x, o, operands⟩
  · cases k <;> rfl
  · rfl

theorem exists_of_isAdd {i : Inst κ ο} (h : isAdd i = true) :
    ∃ x w nsw nuw a b, i = .bin x .add w nsw nuw a b := by
  unfold isAdd at h
  split at h
  · exact ⟨_, _, _, _, _, _, rfl⟩
  · cases h

theorem visit_of_not_isAdd (h : isAdd I = false) (c : Cursor κ ο) :
    visit fold I c = { c with done := c.done ++ [I] } := by
  rcases I with ⟨x, k, w, nsw, nuw, a, b⟩ | ⟨x, o, operands⟩
  · cases k with
    | add => cases h
    | sub => rfl
    | xor => rfl
  · rfl

/-- The instructions of a list are no additions. -/
def AddFree (body : List (Inst κ ο)) : Prop := ∀ i ∈ body, isAdd i = false

theorem AddFree.append {body body' : List (Inst κ ο)} (h : AddFree body) (h' : AddFree body') :
    AddFree (body ++ body') := fun i hi =>
  (List.mem_append.1 hi).elim (h i) (h' i)

theorem AddFree.bind {body : List (Inst κ ο)} (h : AddFree body) (σ : ℕ → Operand κ) :
    AddFree (body.map (·.bind σ)) := by
  intro i hi
  obtain ⟨j, hj, rfl⟩ := List.mem_map.1 hi
  rw [isAdd_bind]
  exact h j hj

/-! ## What the builder inserts -/

/-- An instruction the builder may insert for operands `op1` and `op2`: under a
new name, no addition, reading these, what was inserted before, or constants. -/
structure Inserts (n : ℕ) (op1 op2 : Operand κ) (i : Inst κ ο) : Prop where
  le : n ≤ i.id
  not_isAdd : isAdd i = false
  operands : ∀ a ∈ i.operands, a = op1 ∨ a = op2 ∨ a.Fresh n

theorem createBinOp_inserts {k : BinKind} {w : ℕ} {op1 op2 a b r : Operand κ}
    {builder builder' : IRBuilder κ ο} (hk : k ≠ .add)
    (h : createBinOp fold k w a b builder = (r, builder')) (hn : n ≤ builder.nextId)
    (hins : ∀ i ∈ builder.inserted, Inserts n op1 op2 i)
    (ha : a = op1 ∨ a = op2 ∨ a.Fresh n) (hb : b = op1 ∨ b = op2 ∨ b.Fresh n) :
    n ≤ builder'.nextId ∧ (∀ i ∈ builder'.inserted, Inserts n op1 op2 i) ∧ r.Fresh n := by
  rcases createBinOp_cases fold k w a b builder with ⟨_, _, e, _, _, _, heq⟩ | heq
  · obtain ⟨rfl, rfl⟩ := Prod.mk.inj (heq.symm.trans h)
    exact ⟨hn, hins, trivial⟩
  · obtain ⟨rfl, rfl⟩ := Prod.mk.inj (heq.symm.trans h)
    refine ⟨Nat.le_succ_of_le hn, fun i hi => ?_, hn⟩
    rcases List.mem_append.1 hi with hi | hi
    · exact hins i hi
    · obtain rfl := List.mem_singleton.1 hi
      refine ⟨hn, ?_, fun o ho => ?_⟩
      · cases k with
        | add => exact absurd rfl hk
        | sub => rfl
        | xor => rfl
      · simp only [Inst.operands, List.mem_cons, List.not_mem_nil, or_false] at ho
        rcases ho with rfl | rfl
        · exact ha
        · exact hb

/-- **What stands for an addition.** -/
theorem obfuscate_inserts {w m : ℕ} {op1 op2 r : Operand κ} {builder : IRBuilder κ ο}
    (h : obfuscate fold w op1 op2 ⟨m, []⟩ = (r, builder)) (hm : n ≤ m) :
    (∀ i ∈ builder.inserted, Inserts n op1 op2 i) ∧ r.Fresh n := by
  obtain ⟨notOp2, builder₁, sub1, builder₂, hnot, hsub, hlast⟩ := obfuscate_calls h
  obtain ⟨hn₁, hins₁, hr₁⟩ := createBinOp_inserts (by decide) hnot hm
    (fun i hi => absurd hi (by simp)) (Or.inr (Or.inl rfl)) (Or.inr (Or.inr trivial))
  obtain ⟨hn₂, hins₂, hr₂⟩ := createBinOp_inserts (by decide) hsub hn₁ hins₁ (Or.inl rfl)
    (Or.inr (Or.inr hr₁))
  obtain ⟨-, hins, hr⟩ := createBinOp_inserts (by decide) hlast hn₂ hins₂
    (Or.inr (Or.inr hr₂)) (Or.inr (Or.inr trivial))
  exact ⟨hins, hr⟩

/-! ## No addition is left -/

/-- What the cursor has been over holds no addition. -/
structure Clean (c : Cursor κ ο) : Prop where
  before : ∀ b ∈ c.before, AddFree b.body
  done : AddFree c.done

theorem visit_clean (hc : Clean c) (I : Inst κ ο) : Clean (visit fold I c) := by
  cases hI : isAdd I with
  | false =>
    rw [visit_of_not_isAdd hI]
    refine ⟨hc.before, hc.done.append fun i hi => ?_⟩
    rw [List.mem_singleton.1 hi]
    exact hI
  | true =>
    obtain ⟨x, w, nsw, nuw, op1, op2, rfl⟩ := exists_of_isAdd hI
    rcases hobf : obfuscate fold w op1 op2 (⟨c.nextId, []⟩ : IRBuilder κ ο) with ⟨r, builder⟩
    have hins : AddFree builder.inserted := fun i hi =>
      ((obfuscate_inserts hobf (le_refl c.nextId)).1 i hi).not_isAdd
    simp only [visit, hobf]
    refine ⟨fun b hb => ?_, (hc.done.append hins).bind _⟩
    obtain ⟨b₀, hb₀, rfl⟩ := List.mem_map.1 hb
    exact (hc.before b₀ hb₀).bind _

theorem visitBlock_clean (c : Cursor κ ο) (hc : Clean c) : Clean (visitBlock fold c) := by
  fun_induction visitBlock fold c with
  | case1 c h => exact hc
  | case2 c I rest h ih =>
    have hrest : Clean { c with todo := rest } := ⟨hc.before, hc.done⟩
    exact ih (visit_clean hrest I)

/-- **No addition is left** in the blocks the outer loop has been over. -/
theorem visitBlocks_addFree (before after : Blocks κ ο) (nextId : ℕ) (changed : Bool)
    (h : ∀ b ∈ before, AddFree b.body) :
    ∀ b ∈ (visitBlocks fold before after nextId changed).1, AddFree b.body := by
  fun_induction visitBlocks fold before after nextId changed with
  | case1 before nextId changed => exact h
  | case2 before nextId changed B after c ih =>
    have hc : Clean c := visitBlock_clean _ ⟨h, by simp [AddFree]⟩
    have htodo : c.todo = [] := todo_visitBlock _
    refine ih fun b hb => ?_
    rcases List.mem_append.1 hb with hb | hb
    · exact hc.before b hb
    · rw [List.mem_singleton.1 hb, Cursor.block, htodo, List.append_nil]
      exact hc.done

/-! ## Where there is none, nothing happens -/

theorem visitBlock_of_addFree (c : Cursor κ ο) (h : AddFree c.todo) :
    visitBlock fold c = { c with done := c.done ++ c.todo, todo := [] } := by
  fun_induction visitBlock fold c with
  | case1 c htodo => rw [htodo, List.append_nil, ← htodo]
  | case2 c I rest htodo ih =>
    rw [htodo] at h
    have hI : isAdd I = false := h I (by simp)
    rw [visit_of_not_isAdd hI] at ih ⊢
    rw [ih fun i hi => h i (List.mem_cons_of_mem I hi), htodo, List.append_assoc,
      List.singleton_append]

theorem visitBlocks_of_addFree (before after : Blocks κ ο) (nextId : ℕ) (changed : Bool)
    (h : ∀ b ∈ after, AddFree b.body) :
    visitBlocks fold before after nextId changed = (before ++ after, nextId, changed) := by
  induction after generalizing before with
  | nil => rw [visitBlocks, List.append_nil]
  | cons B after ih =>
    have hB : AddFree B.body := h B (by simp)
    rw [visitBlocks, visitBlock_of_addFree _ hB]
    rw [ih _ fun b hb => h b (List.mem_cons_of_mem B hb)]
    simp [Cursor.block]

/-! ## What the pass has rewritten -/

/-- The sequence for an addition: what the builder makes of operands that come to
those of the addition when all uses are redirected. -/
def Obfuscated (fold : Folder κ) (n : ℕ) (σ : ℕ → Operand κ) (i : Inst κ ο)
    (s : List (Inst κ ο)) : Prop :=
  ∃ x w nsw nuw a b op1 op2 m r builder, i = .bin x .add w nsw nuw a b ∧ n ≤ m ∧
    obfuscate fold w op1 op2 ⟨m, []⟩ = (r, builder) ∧
    op1.bind σ = a.bind σ ∧ op2.bind σ = b.bind σ ∧
    σ x = r ∧ s = builder.inserted.map (·.bind σ)

/-- **What the pass has done to the function so far**, as a rewriting: the uses are
redirected by `σ`, and `seq` has the sequences of the additions visited. -/
structure Mutation (fold : Folder κ) (F : Blocks κ ο) (n : ℕ) (σ : ℕ → Operand κ)
    (seq : ℕ → Option (List (Inst κ ο))) : Prop where
  /-- Only names that were replaced are redirected. -/
  kept : ∀ id, seq id = none → σ id = .inst id
  /-- They are names of the function, and what stands for them has new ones. -/
  fresh : ∀ id s, seq id = some s →
    id < n ∧ (σ id).Fresh n ∧ ∀ i ∈ s, n ≤ i.id ∧ isAdd i = false
  replaced : ∀ id s, seq id = some s →
    ∃ b ∈ F, ∃ i ∈ b.body, i.id = id ∧ Obfuscated fold n σ i s

namespace Mutation

variable {F : Blocks κ ο} {σ : ℕ → Operand κ} {seq : ℕ → Option (List (Inst κ ο))}

/-- At the start nothing is rewritten. -/
theorem start (fold : Folder κ) (F : Blocks κ ο) (n : ℕ) :
    Mutation fold F n .inst (fun _ => none) := by
  refine ⟨fun _ _ => rfl, fun _ _ h => ?_, fun _ _ h => ?_⟩
  · cases h
  · cases h

/-- A name that is new has not been replaced. -/
theorem none_of_le (h : Mutation fold F n σ seq) {id : ℕ} (hid : n ≤ id) : seq id = none := by
  rcases hs : seq id with _ | s
  · rfl
  · have hlt := (h.fresh id s hs).1
    omega

/-- Operands that name nothing that was replaced are redirected no further than
by the next replacement. -/
theorem bind_settled (h : Mutation fold F n σ seq) (τ : ℕ → Operand κ) {a : Operand κ}
    (ha : ∀ id, a = .inst id → seq id = none) : a.bind (andThen σ τ) = a.bind τ := by
  cases a with
  | inst id =>
    rw [Operand.bind, andThen, h.kept id (ha id rfl)]
  | arg i => rfl
  | const c => rfl

/-- What has been redirected names nothing that was replaced. -/
theorem settled_bind (h : Mutation fold F n σ seq) (a : Operand κ) {id : ℕ}
    (ha : a.bind σ = .inst id) : seq id = none := by
  cases a with
  | inst j =>
    rw [Operand.bind] at ha
    rcases hs : seq j with _ | s
    · rw [h.kept j hs] at ha
      obtain rfl := Operand.inst.inj ha
      exact hs
    · have hfresh := (h.fresh j s hs).2.1
      rw [ha] at hfresh
      exact h.none_of_le hfresh
  | arg i => cases ha
  | const c => cases ha

/-- What the builder inserts is redirected by its own replacement only. -/
theorem bind_inserted (h : Mutation fold F n σ seq) {a b r : Operand κ} {x : ℕ} {i : Inst κ ο}
    (hi : Inserts n (a.bind σ) (b.bind σ) i) :
    i.bind (single x r) = i.bind (andThen σ (single x r)) := by
  refine Inst.bind_congr fun o ho => (h.bind_settled _ fun id hid => ?_).symm
  rcases hi.operands o ho with rfl | rfl | hfresh
  · exact h.settled_bind a hid
  · exact h.settled_bind b hid
  · rw [hid] at hfresh
    exact h.none_of_le hfresh

/-- **One more addition.** -/
theorem insert (h : Mutation fold F n σ seq) (hF : F.WellFormed n) {B : Block κ ο} (hB : B ∈ F)
    {x w m : ℕ} {nsw nuw : Bool} {a b r : Operand κ} {builder : IRBuilder κ ο}
    (hI : Inst.bin x .add w nsw nuw a b ∈ B.body) (hx : seq x = none) (hm : n ≤ m)
    (hobf : obfuscate fold w (a.bind σ) (b.bind σ) ⟨m, []⟩ = (r, builder)) :
    Mutation fold F n (andThen σ (single x r)) (insertSeq seq x builder.inserted r) := by
  obtain ⟨hins, hr⟩ := obfuscate_inserts hobf hm
  have hxn : x < n := ((hF.below B hB).body _ hI).id
  -- the sequences, the new one and the old ones
  have hnew : insertSeq seq x builder.inserted r x =
      some (builder.inserted.map (·.bind (andThen σ (single x r)))) := by
    rw [insertSeq, if_pos rfl, List.map_congr_left fun i hi => h.bind_inserted (hins i hi)]
  have hold : ∀ {id : ℕ}, id ≠ x → insertSeq seq x builder.inserted r id =
      (seq id).map fun s => s.map (·.bind (single x r)) := fun hne => if_neg hne
  have hσx : andThen σ (single x r) x = r := by
    rw [andThen, h.kept x hx]
    exact if_pos rfl
  refine ⟨fun id hid => ?_, fun id s hid => ?_, fun id s hid => ?_⟩
  · have hne : id ≠ x := by
      rintro rfl
      rw [hnew] at hid
      cases hid
    rw [hold hne, Option.map_eq_none_iff] at hid
    rw [andThen, h.kept id hid]
    exact if_neg hne
  · by_cases hne : id = x
    · subst hne
      rw [hnew] at hid
      obtain rfl := Option.some.inj hid
      refine ⟨hxn, by rwa [hσx], fun i hi => ?_⟩
      obtain ⟨j, hj, rfl⟩ := List.mem_map.1 hi
      rw [Inst.id_bind, isAdd_bind]
      exact ⟨(hins j hj).le, (hins j hj).not_isAdd⟩
    · rw [hold hne] at hid
      obtain ⟨s₀, hs₀, rfl⟩ := Option.map_eq_some_iff.1 hid
      obtain ⟨hlt, hfresh, hseq⟩ := h.fresh id s₀ hs₀
      refine ⟨hlt, ?_, fun i hi => ?_⟩
      · rwa [andThen, hfresh.bind_single hxn]
      · obtain ⟨j, hj, rfl⟩ := List.mem_map.1 hi
        rw [Inst.id_bind, isAdd_bind]
        exact hseq j hj
  · by_cases hne : id = x
    · subst hne
      rw [hnew] at hid
      obtain rfl := Option.some.inj hid
      refine ⟨B, hB, _, hI, rfl, id, w, nsw, nuw, a, b, a.bind σ, b.bind σ, m, r, builder, rfl, hm,
        hobf, ?_, ?_, hσx, rfl⟩
      · rw [h.bind_settled _ fun id => h.settled_bind a, Operand.bind_bind]
      · rw [h.bind_settled _ fun id => h.settled_bind b, Operand.bind_bind]
    · rw [hold hne] at hid
      obtain ⟨s₀, hs₀, rfl⟩ := Option.map_eq_some_iff.1 hid
      obtain ⟨b₀, hb₀, _, hi₀, rfl, y, w', nsw', nuw', a', b', op1, op2, m', r', builder', rfl, hm',
        hobf', h1, h2, hσ, rfl⟩ := h.replaced id s₀ hs₀
      have hfresh : (σ y).Fresh n := (h.fresh y _ hs₀).2.1
      refine ⟨b₀, hb₀, _, hi₀, rfl, y, w', nsw', nuw', a', b', op1, op2, m', r', builder', rfl, hm',
        hobf', ?_, ?_, ?_, ?_⟩
      · rw [← Operand.bind_bind, h1, Operand.bind_bind]
      · rw [← Operand.bind_bind, h2, Operand.bind_bind]
      · rw [andThen, hfresh.bind_single hxn, hσ]
      · rw [List.map_map]
        exact List.map_congr_left fun i _ => Inst.bind_bind σ (single x r) i

end Mutation

/-- The pass, at some point of its traversal, as a rewriting of the function. -/
def Rewrites (fold : Folder κ) (F : Blocks κ ο) (n : ℕ) (G : Blocks κ ο) (m : ℕ) : Prop :=
  G.WellFormed m ∧ n ≤ m ∧ ∃ σ seq, Mutation fold F n σ seq ∧ G = F.rewrite σ seq

/-- **A visit rewrites one more addition.** -/
theorem visit_rewrites {F : Blocks κ ο} (hF : F.WellFormed n)
    (hc : Rewrites fold F n c.blocks c.nextId) (h : c.todo = I :: rest) :
    Rewrites fold F n (visit fold I { c with todo := rest }).blocks
      (visit fold I { c with todo := rest }).nextId := by
  obtain ⟨hwf, hn, σ, seq, hmut, hblocks⟩ := hc
  refine ⟨visit_wellFormed hwf h, ?_⟩
  rcases visit_cases hwf h (rfl : visit fold I _ = _) with ⟨hsame, hnext⟩ |
    ⟨x, w, nsw, nuw, op1, op2, r, builder, rfl, hobf, hreplace, hnext⟩
  · rw [hsame, hnext]
    exact ⟨hn, σ, seq, hmut, hblocks⟩
  · obtain ⟨hmem, hI⟩ := mem_of_todo h
    obtain ⟨-, h1, h2⟩ := below_of_todo hwf h
    obtain ⟨hvalid, -, -⟩ := obfuscate_valid hobf h1 h2
    -- the addition stands in the original, since no sequence has one
    rw [hblocks] at hmem
    obtain ⟨b₀, hb₀, i₀, hi₀, ⟨s, hs, his⟩ | ⟨hx, heq⟩⟩ := Blocks.mem_rewrite hmem hI
    · have := ((hmut.fresh _ s hs).2.2 _ his).2
      cases this
    · rcases i₀ with ⟨x₀, k₀, w₀, nsw₀, nuw₀, a, b⟩ | ⟨x₀, o₀, operands₀⟩
      · obtain ⟨rfl, rfl, rfl, rfl, rfl, rfl, rfl⟩ := Inst.bin.inj heq
        refine ⟨by rw [hnext]; exact le_trans hn hvalid.le, _, _,
          hmut.insert hF hb₀ hi₀ hx hn hobf, ?_⟩
        rw [hreplace, hblocks]
        refine Blocks.rewrite_replace F hx (fun id s hs hmem => ?_) builder.inserted r
        obtain ⟨j, hj, hid⟩ := List.mem_map.1 hmem
        have hid : j.id = x := hid
        have hge := ((hmut.fresh id s hs).2.2 j hj).1
        have hlt : x < n := ((hF.below b₀ hb₀).body _ hi₀).id
        omega
      · cases heq

/-- **The pass, as a rewriting** of the additions. -/
theorem run_rewrites {F : Func κ ο} (h : F.hkMutate = true) :
    ∃ σ seq, Mutation fold F.blocks F.nextId σ seq ∧
      (run fold F).1.blocks = F.blocks.rewrite σ seq := by
  obtain ⟨-, -, σ, seq, hmut, hblocks⟩ := visitBlocks_inv
    (fun c I rest htodo hc => visit_rewrites F.wellFormed hc htodo) [] F.blocks F.nextId false
    ⟨F.wellFormed, le_refl _, .inst, fun _ => none, .start fold F.blocks F.nextId,
      (Blocks.rewrite_none F.blocks).symm⟩
  exact ⟨σ, seq, hmut, (run_of_hkMutate h).1.trans hblocks⟩

theorem run_addFree {F : Func κ ο} (h : F.hkMutate = true) :
    ∀ b ∈ (run fold F).1.blocks, AddFree b.body := by
  rw [(run_of_hkMutate h).1]
  exact visitBlocks_addFree [] F.blocks F.nextId false (by simp)

/-- Exactly the additions are rewritten: one that were not would be left. -/
theorem isSome_seq {F : Blocks κ ο} (hF : F.WellFormed n) {σ : ℕ → Operand κ}
    {seq : ℕ → Option (List (Inst κ ο))} (hmut : Mutation fold F n σ seq)
    (hfree : ∀ b ∈ F.rewrite σ seq, AddFree b.body) {b : Block κ ο} (hb : b ∈ F) {i : Inst κ ο}
    (hi : i ∈ b.body) : (seq i.id).isSome = isAdd i := by
  rcases hs : seq i.id with _ | s
  · have hmem : i.bind σ ∈ (b.rewrite σ seq).body :=
      List.mem_flatMap.2 ⟨i, hi, by rw [hs]; exact List.mem_singleton.2 rfl⟩
    have hno := hfree _ (List.mem_map.2 ⟨b, hb, rfl⟩) _ hmem
    rw [isAdd_bind] at hno
    exact hno.symm
  · obtain ⟨b₀, hb₀, i₀, hi₀, hid, hobf⟩ := hmut.replaced i.id s hs
    -- a name stands for one instruction
    obtain rfl := ((hF.replaceable hb hi b₀ hb₀).body i₀ hi₀).2 hid
    obtain ⟨x, w, nsw, nuw, a, b', -, -, -, -, -, rfl, -⟩ := hobf
    rfl

/-- A function without additions is left as it is. -/
theorem run_of_addFree {F : Func κ ο} (h : ∀ b ∈ F.blocks, AddFree b.body) :
    run fold F = (F, .all) := by
  have hnone := @visitBlocks_of_addFree _ _ fold [] F.blocks F.nextId false h
  unfold run
  split
  · simp only [hnone]
    rfl
  · rfl

/-- **The mutation pass is complete, local and idempotent.** In a function with the
attribute no addition is left in any block. The function that comes out is a
rewriting of the one that went in, block by block and instruction by
instruction: where an addition stood there is the sequence made for it, every
other instruction stands where it stood, and operands change only where they
named an addition, to name what stands for it. The loops end after visiting
every instruction the function had once, in order. Another run, with whatever
folder, changes nothing. And a function without the attribute is not touched. -/
theorem run_complete (fold : Folder κ) (F : Func κ ο) :
    (F.hkMutate = true →
      (∀ b ∈ (run fold F).1.blocks, ∀ i ∈ b.body, isAdd i = false) ∧
      (∃ σ seq, Mutation fold F.blocks F.nextId σ seq ∧
        (∀ b ∈ F.blocks, ∀ i ∈ b.body, (seq i.id).isSome = isAdd i) ∧
        (run fold F).1.blocks = F.blocks.rewrite σ seq) ∧
      (∃ k s, steps fold k (Loops.start F) = some s ∧ s.Over ∧
        s.visited = F.blocks.flatMap Block.ids ∧ s.visited.Nodup ∧
        s.blocks = (run fold F).1.blocks) ∧
      ∀ fold' : Folder κ, run fold' (run fold F).1 = ((run fold F).1, .all)) ∧
    (F.hkMutate = false → run fold F = (F, .all)) := by
  refine ⟨fun h => ?_, fun h => ?_⟩
  · have hfree := @run_addFree _ _ fold F h
    obtain ⟨σ, seq, hmut, hblocks⟩ := @run_rewrites _ _ fold F h
    obtain ⟨k, s, hsteps, hover, hvisited, hnodup, hresult, -⟩ := @run_steps _ _ fold F h
    refine ⟨hfree, ⟨σ, seq, hmut, fun b hb i hi => ?_, hblocks⟩,
      ⟨k, s, hsteps, hover, hvisited, hnodup, hresult⟩, fun fold' => run_of_addFree hfree⟩
    exact isSome_seq F.wellFormed hmut (hblocks ▸ hfree) hb hi
  · rw [run, if_neg (by rw [h]; decide)]

/-- `(a + b) + (a + b)`, in one block. -/
def chain : Func Empty Unit where
  hkMutate := true
  blocks :=
    [⟨0, [], [.bin 0 .add 32 false false (.arg 0) (.arg 1),
      .bin 1 .add 32 false false (.inst 0) (.inst 0), .other 2 () [.inst 1]]⟩]
  nextId := 3
  wellFormed := by decide

/-- Two additions, one feeding the other: both are replaced, and three
instructions are visited. -/
theorem run_complete_chain :
    (∀ b ∈ (run (fun _ _ _ _ => none) chain).1.blocks, ∀ i ∈ b.body, isAdd i = false) ∧
      ∃ k s, steps (fun _ _ _ _ => none) k (Loops.start chain) = some s ∧ s.Over ∧
        s.visited = [0, 1, 2] := by
  obtain ⟨hfree, -, ⟨k, s, hsteps, hover, hvisited, -⟩, -⟩ :=
    (run_complete (fun _ _ _ _ => none) chain).1 rfl
  exact ⟨hfree, k, s, hsteps, hover, hvisited⟩

end Mutator

end HkSystem
