import HkSystem.Common.SsaReplace
/-!
# Replacing many instructions

A function with several of its instructions replaced, each by its own sequence
where it stood, and the uses of all of them redirected by one substitution
(`Blocks.rewrite`). Everything else stays in its block and in its order, and
changes in no way but its operands. Replacing one more instruction is such a
rewriting again (`Blocks.rewrite_replace`), so a pass that replaces one
instruction after the other is one rewriting of the function it started from.
-/

namespace HkSystem

namespace Ssa

variable {κ ο : Type} {σ τ : ℕ → Operand κ}

/-! ## Substitutions -/

/-- One substitution after the other. -/
def andThen (σ τ : ℕ → Operand κ) (id : ℕ) : Operand κ := (σ id).bind τ

theorem Operand.bind_bind (σ τ : ℕ → Operand κ) (a : Operand κ) :
    (a.bind σ).bind τ = a.bind (andThen σ τ) := by
  cases a <;> rfl

theorem Inst.bind_bind (σ τ : ℕ → Operand κ) (i : Inst κ ο) :
    (i.bind σ).bind τ = i.bind (andThen σ τ) := by
  cases i <;> simp [Inst.bind, Operand.bind_bind, Function.comp_def]

theorem Phi.bind_bind (σ τ : ℕ → Operand κ) (p : Phi κ) :
    (p.bind σ).bind τ = p.bind (andThen σ τ) := by
  simp [Phi.bind, Operand.bind_bind, Function.comp_def]

/-- Substitutions that agree on the operands. -/
theorem Inst.bind_congr {i : Inst κ ο} (h : ∀ a ∈ i.operands, a.bind σ = a.bind τ) :
    i.bind σ = i.bind τ := by
  cases i with
  | bin id k w nsw nuw a b =>
    have ha := h a (by simp [Inst.operands])
    have hb := h b (by simp [Inst.operands])
    rw [Inst.bind, Inst.bind, ha, hb]
  | other id o operands =>
    have hmap : operands.map (·.bind σ) = operands.map (·.bind τ) := List.map_congr_left h
    rw [Inst.bind, Inst.bind, hmap]

@[simp] theorem Operand.bind_inst (a : Operand κ) : a.bind .inst = a := by
  cases a <;> rfl

@[simp] theorem Inst.bind_inst (i : Inst κ ο) : i.bind .inst = i := by
  cases i <;> simp [Inst.bind]

@[simp] theorem Phi.bind_inst (p : Phi κ) : p.bind .inst = p := by
  simp [Phi.bind]

/-! ## Rewriting -/

/-- The block with some instructions replaced: by `seq` where it has a sequence
for their name. -/
def Block.rewrite (σ : ℕ → Operand κ) (seq : ℕ → Option (List (Inst κ ο))) (b : Block κ ο) :
    Block κ ο :=
  ⟨b.label, b.phis.map (·.bind σ), b.body.flatMap fun i => (seq i.id).getD [i.bind σ]⟩

/-- **Some instructions replaced, and their uses redirected.** -/
def Blocks.rewrite (F : Blocks κ ο) (σ : ℕ → Operand κ) (seq : ℕ → Option (List (Inst κ ο))) :
    Blocks κ ο :=
  F.map (Block.rewrite σ seq)

/-- Nothing replaced. -/
theorem Blocks.rewrite_none (F : Blocks κ ο) : F.rewrite .inst (fun _ => none) = F := by
  have hblock : ∀ b : Block κ ο, b.rewrite .inst (fun _ => none) = b := by
    rintro ⟨label, phis, body⟩
    simp [Block.rewrite]
  rw [Blocks.rewrite, List.map_congr_left fun b _ => hblock b, List.map_id']

/-- An instruction of the function that was rewritten. -/
theorem Blocks.mem_rewrite {F : Blocks κ ο} {seq : ℕ → Option (List (Inst κ ο))} {b : Block κ ο}
    {i : Inst κ ο} (hb : b ∈ F.rewrite σ seq) (hi : i ∈ b.body) :
    ∃ b₀ ∈ F, ∃ i₀ ∈ b₀.body, (∃ s, seq i₀.id = some s ∧ i ∈ s) ∨
      (seq i₀.id = none ∧ i = i₀.bind σ) := by
  obtain ⟨b₀, hb₀, rfl⟩ := List.mem_map.1 hb
  obtain ⟨i₀, hi₀, hi⟩ := List.mem_flatMap.1 hi
  refine ⟨b₀, hb₀, i₀, hi₀, ?_⟩
  rcases hseq : seq i₀.id with _ | s
  · rw [hseq, Option.getD_none, List.mem_singleton] at hi
    exact Or.inr ⟨rfl, hi⟩
  · rw [hseq, Option.getD_some] at hi
    exact Or.inl ⟨s, rfl, hi⟩

/-- The sequences, with one more. -/
def insertSeq (seq : ℕ → Option (List (Inst κ ο))) (x : ℕ) (s : List (Inst κ ο)) (r : Operand κ)
    (id : ℕ) : Option (List (Inst κ ο)) :=
  if id = x then some (s.map (·.bind (single x r)))
  else (seq id).map fun s => s.map (·.bind (single x r))

/-- **One more instruction replaced.** It has not been replaced yet, and no
sequence defines its name. -/
theorem Blocks.rewrite_replace (F : Blocks κ ο) {seq : ℕ → Option (List (Inst κ ο))} {x : ℕ}
    (hx : seq x = none) (hseq : ∀ id s, seq id = some s → x ∉ s.map Inst.id)
    (s : List (Inst κ ο)) (r : Operand κ) :
    (F.rewrite σ seq).replace x s r =
      F.rewrite (andThen σ (single x r)) (insertSeq seq x s r) := by
  -- one instruction of the original at a time
  have hinst : ∀ i : Inst κ ο,
      (expand x s ((seq i.id).getD [i.bind σ])).map (·.bind (single x r)) =
        (insertSeq seq x s r i.id).getD [i.bind (andThen σ (single x r))] := by
    intro i
    unfold insertSeq
    by_cases hi : i.id = x
    · rw [if_pos hi, hi, hx]
      simp [expand, hi]
    · rw [if_neg hi]
      rcases hs : seq i.id with _ | s'
      · simp [expand, hi, Inst.bind_bind]
      · rw [Option.getD_some, expand_of_notMem (hseq i.id s' hs)]
        rfl
  have hbody : ∀ body : List (Inst κ ο),
      (expand x s (body.flatMap fun i => (seq i.id).getD [i.bind σ])).map (·.bind (single x r)) =
        body.flatMap fun i =>
          (insertSeq seq x s r i.id).getD [i.bind (andThen σ (single x r))] := by
    intro body
    rw [expand, List.flatMap_assoc, List.map_flatMap]
    exact List.flatMap_congr fun i _ => hinst i
  simp only [Blocks.rewrite, Blocks.replace, List.map_map]
  refine List.map_congr_left fun b _ => ?_
  simp only [Function.comp_apply, Block.replace, Block.rewrite, Block.bind, hbody, List.map_map]
  simp [Function.comp_def, Phi.bind_bind]

end Ssa

end HkSystem
