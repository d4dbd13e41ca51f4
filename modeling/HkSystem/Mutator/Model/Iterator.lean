import HkSystem.Mutator.Model.Pass
/-!
# The mutation pass, as two loops

The loops of `BinaryObfuscationPass::run` as the source writes them. The
iterator of the inner loop is the name of an instruction in the list it goes
through, or the end of that list; it is moved on before the instruction it was
at is looked at. The list is then edited under it: instructions are inserted in
front of the current one, uses are replaced, the current one is erased. An
iterator that names no instruction of its block has nothing to be
dereferenced to.

`visited` records the instructions the body of the inner loop was entered for.
-/

namespace HkSystem

namespace Mutator

open Ssa

variable {κ ο : Type}

/-! ## Editing the function -/

/-- Instructions put in front of the one of that name. -/
def insertBefore (x : ℕ) (seq : List (Inst κ ο)) (F : Blocks κ ο) : Blocks κ ο :=
  F.map fun b => { b with body := b.body.flatMap fun i => if i.id = x then seq ++ [i] else [i] }

/-- Every use of a result replaced. -/
def replaceAllUsesWith (x : ℕ) (r : Operand κ) (F : Blocks κ ο) : Blocks κ ο :=
  F.map (·.bind (single x r))

def eraseFromParent (x : ℕ) (F : Blocks κ ο) : Blocks κ ο :=
  F.map fun b => { b with body := b.body.filter fun i => i.id ≠ x }

/-! ## The loops -/

/-- The function, and where the loops are in it. -/
structure Loops (κ ο : Type) where
  blocks : Blocks κ ο
  /-- The block the outer loop is at. -/
  bb : ℕ
  /-- The instruction the inner loop is at, if it is not at the end. -/
  it : Option ℕ
  nextId : ℕ
  changed : Bool
  visited : List ℕ

/-- `BB.begin()`. -/
def begin? (F : Blocks κ ο) (bb : ℕ) : Option ℕ := F[bb]?.bind fun B => B.ids.head?

/-- The iterator behind the one at `x`. -/
def following (x : ℕ) (ids : List ℕ) : Option ℕ := ((ids.dropWhile (· ≠ x)).drop 1).head?

/-- Where the loops start. -/
def Loops.start (F : Func κ ο) : Loops κ ο :=
  ⟨F.blocks, 0, begin? F.blocks 0, F.nextId, false, []⟩

/-- The outer loop has ended. -/
def Loops.Over (s : Loops κ ο) : Prop := s.blocks.length ≤ s.bb

variable (fold : Folder κ)

/-- One turn of the inner loop, or from its end to the next block. -/
def step (s : Loops κ ο) : Option (Loops κ ο) :=
  match s.blocks[s.bb]?, s.it with
  | none, _ => some s
  | some _, none => some { s with bb := s.bb + 1, it := begin? s.blocks (s.bb + 1) }
  | some B, some x =>
    -- `Instruction &I = *it++`
    let s' := { s with it := following x B.ids, visited := s.visited ++ [x] }
    match B.body.find? fun i => i.id = x with
    | some (.bin _ .add w _ _ op1 op2) =>
      let (finalSub, builder) := obfuscate fold w op1 op2 ⟨s.nextId, []⟩
      some { s' with
        blocks := eraseFromParent x
          (replaceAllUsesWith x finalSub (insertBefore x builder.inserted s.blocks))
        nextId := builder.nextId
        changed := true }
    | some _ => some s'
    | none => if x ∈ B.phis.map Phi.id then some s' else none

/-- So many turns. -/
def steps : ℕ → Loops κ ο → Option (Loops κ ο)
  | 0, s => some s
  | k + 1, s => (step fold s).bind (steps k)

end Mutator

end HkSystem
