import HkSystem.Mutator.Model.Iterator
/-!
# The loops and the cursor

The cursor of `Model.Pass` splits a block at the iterator; the loops of
`Model.Iterator` hold the whole list and a name in it. They go through the
function together (`visitBlock_steps`, `visitBlocks_steps`): the iterator is
moved on before the list is edited, so it never names an instruction that has
been erased, and never one that was inserted. So the loops end, and the
instructions they have visited are those the function had at the start, once
each and in order.
-/

namespace HkSystem

namespace Mutator

open Ssa

variable {κ ο : Type} {fold : Folder κ} {c : Cursor κ ο} {s : Loops κ ο} {F : Blocks κ ο}
variable {I : Inst κ ο} {rest : List (Inst κ ο)} {x : ℕ}

/-! ## Edits and names -/

/-- **Insert, replace, erase** is a replacement of the instruction by the
sequence. -/
theorem edit_eq_replace {seq : List (Inst κ ο)} (hseq : ∀ i ∈ seq, i.id ≠ x) (r : Operand κ)
    (F : Blocks κ ο) :
    eraseFromParent x (replaceAllUsesWith x r (insertBefore x seq F)) = F.replace x seq r := by
  have hkeep : seq.filter (fun i => i.id ≠ x) = seq :=
    List.filter_eq_self.2 fun i hi => by simpa using hseq i hi
  have hbody : ∀ body : List (Inst κ ο),
      ((body.flatMap fun i => if i.id = x then seq ++ [i] else [i]).filter fun i => i.id ≠ x) =
        expand x seq body := by
    intro body
    rw [List.filter_flatMap, expand]
    refine List.flatMap_congr fun i _ => ?_
    split
    · next hi =>
      rw [List.filter_append, hkeep]
      simp [hi]
    · next hi => simp [hi]
  simp only [eraseFromParent, replaceAllUsesWith, insertBefore, Blocks.replace, List.map_map]
  refine List.map_congr_left fun b _ => ?_
  -- what is erased has the same name before its operands are replaced
  simp only [Function.comp_apply, Block.bind, Block.replace, List.filter_map, Function.comp_def,
    Inst.id_bind, ← hbody]

@[simp] theorem ids_bind (σ : ℕ → Operand κ) (b : Block κ ο) : (b.bind σ).ids = b.ids := by
  simp [Block.ids, Block.bind, Phi.bind, Function.comp_def]

theorem following_of_split {before after : List ℕ} (h : x ∉ before) :
    following x (before ++ x :: after) = after.head? := by
  have hskip : ∀ y ∈ before, decide (y ≠ x) = true := by
    intro y hy
    have hne : y ≠ x := fun heq => h (heq ▸ hy)
    simpa using hne
  rw [following, List.dropWhile_append_of_pos hskip]
  simp

/-- The block the outer loop is at. -/
theorem getElem?_middle (before after : Blocks κ ο) (B : Block κ ο) :
    (before ++ B :: after)[before.length]? = some B := by
  rw [List.getElem?_append_right (le_refl _), Nat.sub_self, List.getElem?_cons_zero]

/-! ## A turn of the inner loop -/

/-- The loops are where the cursor is. -/
structure At (c : Cursor κ ο) (s : Loops κ ο) : Prop where
  blocks : s.blocks = c.blocks
  bb : s.bb = c.before.length
  it : s.it = (c.todo.map Inst.id).head?
  nextId : s.nextId = c.nextId
  changed : s.changed = c.changed

theorem At.block (h : At c s) : s.blocks[s.bb]? = some c.block := by
  rw [h.blocks, h.bb, Cursor.blocks, getElem?_middle]

/-- The names of the block the cursor is in, split at the iterator. -/
theorem ids_block (h : c.todo = I :: rest) :
    c.block.ids = (c.phis.map Phi.id ++ c.done.map Inst.id) ++ I.id :: rest.map Inst.id := by
  simp [Cursor.block, Block.ids, h]

/-- No name in front of the iterator is the one it is at. -/
theorem notMem_front (hc : c.blocks.WellFormed c.nextId) (h : c.todo = I :: rest) :
    I.id ∉ c.phis.map Phi.id ++ c.done.map Inst.id := by
  have hnodup := (List.nodup_middle.1 (ids_of_todo h ▸ hc.unique)).notMem
  simp only [List.mem_append, not_or] at hnodup ⊢
  exact ⟨hnodup.1.1.2, hnodup.1.2⟩

/-- The iterator is dereferenced to the instruction the cursor is at. -/
theorem find?_block (hc : c.blocks.WellFormed c.nextId) (h : c.todo = I :: rest) :
    (c.block.body.find? fun i => i.id = I.id) = some I := by
  have hfront := notMem_front hc h
  have hdone : (c.done.find? fun i => i.id = I.id) = none := by
    rw [List.find?_eq_none]
    intro i hi
    have hne : i.id ≠ I.id := fun heq =>
      hfront (List.mem_append_right _ (List.mem_map.2 ⟨i, hi, heq⟩))
    simpa using hne
  rw [Cursor.block, h, List.find?_append, hdone, Option.none_or, List.find?_cons_of_pos (by simp)]

/-- What is behind the iterator keeps its names. -/
theorem map_id_todo_visit (I : Inst κ ο) (c : Cursor κ ο) :
    (visit fold I c).todo.map Inst.id = c.todo.map Inst.id := by
  unfold visit
  split
  · simp [Cursor.replaceAllUsesWith, Function.comp_def]
  · rfl

/-- **One turn of the inner loop is a visit.** -/
theorem step_visit (hc : c.blocks.WellFormed c.nextId) (h : c.todo = I :: rest) (hat : At c s) :
    ∃ s', step fold s = some s' ∧ At (visit fold I { c with todo := rest }) s' ∧
      s'.visited = s.visited ++ [I.id] := by
  have hit : s.it = some I.id := by rw [hat.it, h, List.map_cons, List.head?_cons]
  have hfind := find?_block hc h
  have hnext : following I.id c.block.ids = (rest.map Inst.id).head? := by
    rw [ids_block h, following_of_split (notMem_front hc h)]
  have hplain : ∀ {s' : Loops κ ο}, s' = { s with
      it := following I.id c.block.ids, visited := s.visited ++ [I.id] } →
      At { c with done := c.done ++ [I], todo := rest } s' := by
    rintro s' rfl
    refine ⟨?_, hat.bb, hnext, hat.nextId, hat.changed⟩
    rw [hat.blocks]
    simp [Cursor.blocks, Cursor.block, h]
  rcases I with ⟨x, k, w, nsw, nuw, op1, op2⟩ | ⟨x, o, operands⟩
  · cases k with
    | add =>
      obtain ⟨hx, h1, h2⟩ := below_of_todo hc h
      rcases hobf : obfuscate fold w op1 op2 (⟨c.nextId, []⟩ : IRBuilder κ ο) with ⟨r, builder⟩
      obtain ⟨hvalid, -, -⟩ := obfuscate_valid hobf h1 h2
      -- the inserted names are new, so erasing `x` leaves them
      have hnew : ∀ i ∈ builder.inserted, i.id ≠ x := by
        intro i hi
        have hge := (hvalid.inserted i hi).1.le
        omega
      refine ⟨{ s with
        it := following x c.block.ids, visited := s.visited ++ [x]
        blocks := eraseFromParent x
          (replaceAllUsesWith x r (insertBefore x builder.inserted s.blocks))
        nextId := builder.nextId, changed := true }, ?_, ?_, rfl⟩
      · have hobf' := hat.nextId ▸ hobf
        have hit : s.it = some x := hit
        have hfind : (c.block.body.find? fun i => i.id = x) = _ := hfind
        simp only [step, hat.block, hit, hfind, hobf']
      · simp only [visit, hobf]
        refine ⟨?_, ?_, ?_, rfl, rfl⟩
        · rw [hat.blocks, edit_eq_replace hnew]
          exact (replace_todo hc h builder.inserted r).symm
        · simpa [Cursor.replaceAllUsesWith] using hat.bb
        · have hnext : following x c.block.ids = _ := hnext
          simp [Cursor.replaceAllUsesWith, Function.comp_def, hnext]
    | sub =>
      refine ⟨_, ?_, hplain rfl, rfl⟩
      simp only [step, hat.block, hit, hfind]
    | xor =>
      refine ⟨_, ?_, hplain rfl, rfl⟩
      simp only [step, hat.block, hit, hfind]
  · refine ⟨_, ?_, hplain rfl, rfl⟩
    simp only [step, hat.block, hit, hfind]

/-- Turns made one after the other. -/
theorem steps_add {j k : ℕ} {s' : Loops κ ο} (h : steps fold j s = some s') :
    steps fold (j + k) s = steps fold k s' := by
  induction j generalizing s with
  | zero =>
    obtain rfl := Option.some.inj h
    rw [Nat.zero_add]
  | succ j ih =>
    rw [steps] at h
    obtain ⟨s₁, hstep, hsteps⟩ := Option.bind_eq_some_iff.1 h
    rw [Nat.add_right_comm, steps, hstep, Option.bind_some, ih hsteps]

/-- **The inner loop**: as many turns as there are instructions in front of the
cursor, each of them visited. -/
theorem visitBlock_steps (c : Cursor κ ο) (hc : c.blocks.WellFormed c.nextId) (hat : At c s) :
    ∃ s', steps fold c.todo.length s = some s' ∧ At (visitBlock fold c) s' ∧
      s'.visited = s.visited ++ c.todo.map Inst.id := by
  fun_induction visitBlock fold c generalizing s with
  | case1 c h => exact ⟨s, by rw [h]; rfl, hat, by rw [h, List.map_nil, List.append_nil]⟩
  | case2 c I rest h ih =>
    obtain ⟨s₁, hstep, hat₁, hvisited₁⟩ := step_visit hc h hat
    obtain ⟨s', hsteps, hat', hvisited⟩ := ih (visit_wellFormed hc h) hat₁
    refine ⟨s', ?_, hat', ?_⟩
    · rw [length_todo_visit] at hsteps
      rw [h, List.length_cons, steps, hstep, Option.bind_some, hsteps]
    · rw [hvisited, hvisited₁, map_id_todo_visit, h, List.map_cons, List.append_assoc,
        List.singleton_append]

/-- At the end of the inner loop nothing is left in front of the cursor. -/
@[simp] theorem todo_visitBlock (c : Cursor κ ο) : (visitBlock fold c).todo = [] := by
  fun_induction visitBlock fold c with
  | case1 c h => exact h
  | case2 c I rest h ih => exact ih

/-! ## From block to block -/

/-- The blocks behind keep their names. -/
theorem ids_after_visit (I : Inst κ ο) (c : Cursor κ ο) :
    (visit fold I c).after.flatMap Block.ids = c.after.flatMap Block.ids := by
  unfold visit
  split
  · simp [Cursor.replaceAllUsesWith, List.flatMap_map]
  · rfl

theorem ids_after_visitBlock (c : Cursor κ ο) :
    (visitBlock fold c).after.flatMap Block.ids = c.after.flatMap Block.ids := by
  fun_induction visitBlock fold c with
  | case1 c h => rfl
  | case2 c I rest h ih => rw [ih, ids_after_visit]

/-- Phis are passed over. -/
theorem steps_phis {B : Block κ ο} (hB : s.blocks[s.bb]? = some B) (hids : B.ids.Nodup)
    {front ps : List ℕ} (hphis : B.phis.map Phi.id = front ++ ps)
    (hit : s.it = (ps ++ B.body.map Inst.id).head?) :
    steps fold ps.length s =
      some { s with it := (B.body.map Inst.id).head?, visited := s.visited ++ ps } := by
  induction ps generalizing s front with
  | nil =>
    rw [List.nil_append] at hit
    rw [List.append_nil, ← hit]
    rfl
  | cons x ps ih =>
    have hsplit : B.ids = front ++ x :: (ps ++ B.body.map Inst.id) := by
      rw [Block.ids, hphis, List.append_assoc, List.cons_append]
    have hout := (List.nodup_middle.1 (hsplit ▸ hids)).notMem
    simp only [List.mem_append, not_or] at hout
    have hbody : (B.body.find? fun i => i.id = x) = none := by
      rw [List.find?_eq_none]
      intro i hi
      have hne : i.id ≠ x := fun heq => hout.2.2 (List.mem_map.2 ⟨i, hi, heq⟩)
      simpa using hne
    have hmem : x ∈ B.phis.map Phi.id := by simp [hphis]
    have hstep : step fold s = some { s with
        it := (ps ++ B.body.map Inst.id).head?, visited := s.visited ++ [x] } := by
      rw [← following_of_split hout.1, ← hsplit]
      simp only [step, hB, hit, List.cons_append, List.head?_cons, hbody, if_pos hmem]
    have hrest := @ih { s with
        it := (ps ++ B.body.map Inst.id).head?, visited := s.visited ++ [x] }
      hB (front ++ [x]) (by rw [hphis]; simp) rfl
    rw [List.length_cons, steps, hstep, Option.bind_some, hrest, List.append_assoc,
      List.singleton_append]

/-- The loops are at the front of the first block of `after`. -/
structure AtBlock (before after : Blocks κ ο) (nextId : ℕ) (changed : Bool) (s : Loops κ ο) :
    Prop where
  blocks : s.blocks = before ++ after
  bb : s.bb = before.length
  it : s.it = begin? s.blocks s.bb
  nextId : s.nextId = nextId
  changed : s.changed = changed

/-- **One turn of the outer loop.** -/
theorem steps_block {before after : Blocks κ ο} {B : Block κ ο} {nextId : ℕ} {changed : Bool}
    (hF : Blocks.WellFormed (before ++ B :: after) nextId)
    (hat : AtBlock before (B :: after) nextId changed s) {c : Cursor κ ο}
    (hc : visitBlock fold ⟨before, B.label, B.phis, [], B.body, after, nextId, changed⟩ = c) :
    ∃ k s', steps fold k s = some s' ∧
      AtBlock (c.before ++ [c.block]) c.after c.nextId c.changed s' ∧
      s'.visited = s.visited ++ B.ids := by
  have hB : s.blocks[s.bb]? = some B := by
    rw [hat.blocks, hat.bb, getElem?_middle]
  have hids : B.ids.Nodup := by
    have hunique := hF.unique
    rw [List.flatMap_append, List.flatMap_cons] at hunique
    exact hunique.of_append_right.of_append_left
  -- the phis
  have hphis := @steps_phis _ _ fold s B hB hids [] (B.phis.map Phi.id) rfl
    (by rw [hat.it, begin?, hB]; rfl)
  -- the body
  have hat₁ : At ⟨before, B.label, B.phis, [], B.body, after, nextId, changed⟩ { s with
      it := (B.body.map Inst.id).head?, visited := s.visited ++ B.phis.map Phi.id } :=
    ⟨hat.blocks, hat.bb, rfl, hat.nextId, hat.changed⟩
  obtain ⟨s₂, hbody, hat₂, hvisited₂⟩ := visitBlock_steps
    ⟨before, B.label, B.phis, [], B.body, after, nextId, changed⟩ hF hat₁
  rw [hc] at hat₂
  -- from the end of the block to the next
  have hnext : step fold s₂ = some { s₂ with
      bb := s₂.bb + 1, it := begin? s₂.blocks (s₂.bb + 1) } := by
    have hend : s₂.it = none := by rw [hat₂.it, ← hc, todo_visitBlock]; rfl
    simp only [step, hat₂.block, hend]
  refine ⟨(B.phis.map Phi.id).length + (B.body.length + 1),
    { s₂ with bb := s₂.bb + 1, it := begin? s₂.blocks (s₂.bb + 1) }, ?_,
    ⟨?_, ?_, rfl, hat₂.nextId, hat₂.changed⟩, ?_⟩
  · rw [steps_add hphis, steps_add hbody, steps, hnext, Option.bind_some]
    rfl
  · simpa [Cursor.blocks] using hat₂.blocks
  · simpa using hat₂.bb
  · rw [Block.ids, ← List.append_assoc]
    exact hvisited₂

/-- **The outer loop** ends, having visited every instruction of the blocks it
still had in front of it. -/
theorem visitBlocks_steps (before after : Blocks κ ο) (nextId : ℕ) (changed : Bool)
    (hF : Blocks.WellFormed (before ++ after) nextId) :
    ∀ s : Loops κ ο, AtBlock before after nextId changed s → ∃ k s',
      steps fold k s = some s' ∧ s'.Over ∧
        (s'.blocks, s'.nextId, s'.changed) = visitBlocks fold before after nextId changed ∧
        s'.visited = s.visited ++ after.flatMap Block.ids := by
  fun_induction visitBlocks fold before after nextId changed with
  | case1 before nextId changed =>
    intro s hat
    refine ⟨0, s, rfl, ?_, ?_, by simp⟩
    · rw [Loops.Over, hat.blocks, hat.bb, List.append_nil]
    · rw [hat.blocks, hat.nextId, hat.changed, List.append_nil]
  | case2 before nextId changed B after c ih =>
    intro s hat
    obtain ⟨j, s₁, hblock, hat₁, hvisited₁⟩ := steps_block hF hat (rfl : _ = c)
    have hwf : c.blocks.WellFormed c.nextId := visitBlock_wellFormed _ hF
    obtain ⟨k, s', hsteps, hover, hresult, hvisited⟩ :=
      ih (by simpa [Cursor.blocks] using hwf) s₁ hat₁
    refine ⟨j + k, s', by rw [steps_add hblock, hsteps], hover, hresult, ?_⟩
    have hids : c.after.flatMap Block.ids = after.flatMap Block.ids := ids_after_visitBlock _
    rw [hvisited, hvisited₁, hids, List.flatMap_cons, List.append_assoc]

/-- **The loops end with what the pass gives**, each instruction visited once and
in order. -/
theorem run_steps {F : Func κ ο} (h : F.hkMutate = true) :
    ∃ k s, steps fold k (Loops.start F) = some s ∧ s.Over ∧
      s.visited = F.blocks.flatMap Block.ids ∧ s.visited.Nodup ∧
      s.blocks = (run fold F).1.blocks ∧ s.nextId = (run fold F).1.nextId ∧
      (run fold F).2 = if s.changed then .none else .all := by
  obtain ⟨k, s, hsteps, hover, hresult, hvisited⟩ := @visitBlocks_steps _ _ fold [] F.blocks
    F.nextId false F.wellFormed (Loops.start F) ⟨rfl, rfl, rfl, rfl, rfl⟩
  have hvisited : s.visited = F.blocks.flatMap Block.ids := hvisited
  obtain ⟨hblocks, hnextId, hanalyses⟩ := @run_of_hkMutate _ _ fold F h
  rw [← hresult] at hblocks hnextId hanalyses
  exact ⟨k, s, hsteps, hover, hvisited, hvisited ▸ F.wellFormed.unique, hblocks.symm, hnextId.symm,
    hanalyses⟩

end Mutator

end HkSystem
