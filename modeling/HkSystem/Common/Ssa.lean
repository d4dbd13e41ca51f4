import Mathlib.Data.Set.NAry
import Mathlib.Data.List.Forall2
import Mathlib.Order.Basic
/-!
# An SSA intermediate language

Functions in the shape of LLVM's: blocks with phis and a body, instructions
named by number, operands that are results, arguments or constants. Integer
`add`, `sub` and `xor` of any width have the meaning written here; every
other instruction — memory, calls, comparisons, terminators, vector
arithmetic — has the meaning a `Semantics` gives it.

A value is poison, a set of bit patterns, or something else. A set with one
member is an ordinary integer, and the full set is `undef`: each use of it may
see another member. Values, memories and effects are ordered by how much they
leave open, with poison at the bottom; `x ≤ y` says that `y` may stand where
the program has `x`. A function refines another if each of its runs, of any
length, is a run of the other up to that order, or the other may run into
undefined behaviour on the way.
-/

namespace HkSystem

namespace Ssa

variable {κ ο α μ η : Type} [Preorder α] [Preorder μ]

/-! ## Values -/

/-- A value of some type; `α` holds those that are not scalar integers. -/
inductive Value (α : Type) where
  | poison
  /-- A scalar integer, as the set of patterns a use may see. -/
  | int (w : ℕ) (patterns : Set (BitVec w)) (nonempty : patterns.Nonempty)
  | other (a : α)

namespace Value

/-- The second value may stand for the first. -/
inductive Le : Value α → Value α → Prop
  | poison (y : Value α) : Le .poison y
  | int {w : ℕ} {S T : Set (BitVec w)} {hS : S.Nonempty} {hT : T.Nonempty} :
      T ⊆ S → Le (.int w S hS) (.int w T hT)
  | other {a b : α} : a ≤ b → Le (.other a) (.other b)

instance : Preorder (Value α) where
  le := Le
  le_refl x := by
    cases x with
    | poison => exact .poison _
    | int w S hS => exact .int (Set.Subset.refl S)
    | other a => exact .other (le_refl a)
  le_trans x y z hxy hyz := by
    cases hxy with
    | poison => exact .poison z
    | int h =>
      cases hyz with
      | int h' => exact .int (h'.trans h)
    | other h =>
      cases hyz with
      | other h' => exact .other (h.trans h')

theorem poison_le (y : Value α) : (.poison : Value α) ≤ y := .poison y

/-- The integer with one bit pattern. -/
def ofBits {w : ℕ} (b : BitVec w) : Value α := .int w {b} (Set.singleton_nonempty b)

/-- An ordinary integer leaves nothing open. -/
theorem eq_of_ofBits_le {w : ℕ} {b : BitVec w} {y : Value α} (h : ofBits b ≤ y) : y = ofBits b := by
  cases h with
  | @int _ _ T _ hT hsub =>
    obtain rfl : T = {b} := (Set.Nonempty.subset_singleton_iff hT).1 hsub
    rfl

/-- The patterns of a value as an integer of width `w`, if it is one. -/
def asInt (w : ℕ) : Value α → Option { S : Set (BitVec w) // S.Nonempty }
  | .int w' S hS => if h : w' = w then some ⟨h ▸ S, by subst h; exact hS⟩ else none
  | _ => none

omit [Preorder α] in
@[simp] theorem asInt_int {w : ℕ} {S : Set (BitVec w)} (hS : S.Nonempty) :
    (int w S hS : Value α).asInt w = some ⟨S, hS⟩ := by
  simp [asInt]

omit [Preorder α] in
theorem eq_int_of_asInt {w : ℕ} {x : Value α} {S : { S : Set (BitVec w) // S.Nonempty }}
    (h : x.asInt w = some S) : x = .int w S.1 S.2 := by
  cases x with
  | poison => cases h
  | int w' S' hS' =>
    by_cases hw : w' = w
    · subst hw
      rw [asInt_int, Option.some.injEq] at h
      subst h
      rfl
    · simp [asInt, hw] at h
  | other a => cases h

theorem asInt_mono {w : ℕ} {x y : Value α} (h : x ≤ y) {S : { S : Set (BitVec w) // S.Nonempty }}
    (hx : x.asInt w = some S) : ∃ T : { S : Set (BitVec w) // S.Nonempty },
      y.asInt w = some T ∧ T.1 ⊆ S.1 := by
  cases h with
  | poison => cases hx
  | @int w' S' T' hS' hT' hsub =>
    by_cases hw : w' = w
    · subst hw
      rw [asInt_int, Option.some.injEq] at hx
      subst hx
      exact ⟨⟨T', hT'⟩, asInt_int hT', hsub⟩
    · simp [asInt, hw] at hx
  | other => cases hx

end Value

/-! ## Integer arithmetic -/

inductive BinKind where
  | add | sub | xor
  deriving DecidableEq

/-- The wrapping operation. -/
def BinKind.apply {w : ℕ} : BinKind → BitVec w → BitVec w → BitVec w
  | .add, a, b => a + b
  | .sub, a, b => a - b
  | .xor, a, b => a ^^^ b

/-- What the flags `nsw` and `nuw` rule out. -/
def BinKind.overflows {w : ℕ} (nsw nuw : Bool) : BinKind → BitVec w → BitVec w → Prop
  | .add, a, b => (nsw ∧ a.saddOverflow b) ∨ (nuw ∧ a.uaddOverflow b)
  | .sub, a, b => (nsw ∧ a.ssubOverflow b) ∨ (nuw ∧ a.usubOverflow b)
  | .xor, _, _ => False

open Classical in
/-- The result: poison if an operand is, or if some choice of patterns breaks a
flag; else every result of a choice. -/
noncomputable def evalBin (k : BinKind) (w : ℕ) (nsw nuw : Bool) (x y : Value α) : Value α :=
  match x.asInt w, y.asInt w with
  | some S, some T =>
    if ∃ a ∈ S.1, ∃ b ∈ T.1, k.overflows nsw nuw a b then .poison
    else .int w (Set.image2 k.apply S.1 T.1) (S.2.image2 T.2)
  | _, _ => .poison

/-- **Arithmetic on more definite operands is more definite.** -/
theorem evalBin_mono {k : BinKind} {w : ℕ} {nsw nuw : Bool} {x x' y y' : Value α} (hx : x ≤ x')
    (hy : y ≤ y') : evalBin k w nsw nuw x y ≤ evalBin k w nsw nuw x' y' := by
  unfold evalBin
  rcases hS : x.asInt w with _ | S
  · exact Value.poison_le _
  · rcases hT : y.asInt w with _ | T
    · exact Value.poison_le _
    · obtain ⟨S', hS', hsubS⟩ := Value.asInt_mono hx hS
      obtain ⟨T', hT', hsubT⟩ := Value.asInt_mono hy hT
      simp only [hS', hT']
      split
      · exact Value.poison_le _
      · next hok =>
        rw [if_neg]
        · exact Value.Le.int (Set.image2_subset hsubS hsubT)
        · rintro ⟨a, ha, b, hb, hover⟩
          exact hok ⟨a, hsubS ha, b, hsubT hb, hover⟩

omit [Preorder α] in
/-- Without flags nothing overflows. -/
theorem evalBin_int (k : BinKind) {w : ℕ} {S T : Set (BitVec w)} (hS : S.Nonempty)
    (hT : T.Nonempty) : evalBin k w false false (.int w S hS : Value α) (.int w T hT) =
      .int w (Set.image2 k.apply S T) (hS.image2 hT) := by
  have hover : ¬ ∃ a ∈ S, ∃ b ∈ T, k.overflows false false a b := by
    rintro ⟨a, -, b, -, h⟩
    cases k <;> simp [BinKind.overflows] at h
  rw [evalBin]
  simp only [Value.asInt_int]
  rw [if_neg hover]

/-- **Flags may be dropped.** -/
theorem evalBin_le_wrap (k : BinKind) (w : ℕ) (nsw nuw : Bool) (x y : Value α) :
    evalBin k w nsw nuw x y ≤ evalBin k w false false x y := by
  rcases hS : x.asInt w with _ | S
  · simp [evalBin, hS]
  · rcases hT : y.asInt w with _ | T
    · simp [evalBin, hS, hT]
    · obtain rfl := Value.eq_int_of_asInt hS
      obtain rfl := Value.eq_int_of_asInt hT
      rw [evalBin_int, evalBin]
      simp only [Value.asInt_int]
      split
      · exact Value.poison_le _
      · exact le_refl _

/-! ## Functions -/

inductive Const (κ : Type) where
  | int (w : ℕ) (b : BitVec w)
  | other (k : κ)

inductive Operand (κ : Type) where
  /-- The result of an instruction or a phi. -/
  | inst (id : ℕ)
  | arg (i : ℕ)
  | const (c : Const κ)

inductive Inst (κ ο : Type) where
  /-- Scalar integer arithmetic. -/
  | bin (id : ℕ) (k : BinKind) (w : ℕ) (nsw nuw : Bool) (a b : Operand κ)
  | other (id : ℕ) (o : ο) (operands : List (Operand κ))

structure Phi (κ : Type) where
  id : ℕ
  /-- The operand for each block the phi can be reached from. -/
  incoming : List (ℕ × Operand κ)

structure Block (κ ο : Type) where
  label : ℕ
  phis : List (Phi κ)
  body : List (Inst κ ο)

/-- The blocks of a function, the entry first. -/
abbrev Blocks (κ ο : Type) := List (Block κ ο)

def Inst.id : Inst κ ο → ℕ
  | .bin id _ _ _ _ _ _ => id
  | .other id _ _ => id

def Inst.operands : Inst κ ο → List (Operand κ)
  | .bin _ _ _ _ _ a b => [a, b]
  | .other _ _ operands => operands

/-- The names a block defines. -/
def Block.ids (b : Block κ ο) : List ℕ := b.phis.map Phi.id ++ b.body.map Inst.id

/-! ## Execution -/

/-- An observable action, with the values it is given. -/
structure Effect (η α : Type) where
  name : η
  args : List (Value α)

/-- How an instruction ends. -/
inductive Outcome (α μ : Type) where
  | next (v : Value α) (m : μ)
  | goto (label : ℕ) (m : μ)
  | ret (v : Value α) (m : μ)
  /-- A call that does not come back. -/
  | halt (m : μ)
  | ub

/-- The meaning of everything but scalar arithmetic. -/
structure Semantics (κ ο α μ η : Type) where
  constant : κ → Value α
  /-- What an instruction may do on given operands and memory. -/
  exec : ο → List (Value α) → μ → List (Effect η α) → Outcome α μ → Prop

/-- The results computed so far. -/
abbrev Env (α : Type) := ℕ → Value α

variable (sem : Semantics κ ο α μ η) (args : ℕ → Value α)

def Semantics.evalConst : Const κ → Value α
  | .int _ b => .ofBits b
  | .other k => sem.constant k

def eval (env : Env α) : Operand κ → Value α
  | .inst id => env id
  | .arg i => args i
  | .const c => sem.evalConst c

omit [Preorder α] [Preorder μ] in
theorem eval_update_of_ne {env : Env α} {id : ℕ} {o : Operand κ} (h : o ≠ .inst id)
    (v : Value α) : eval sem args (Function.update env id v) o = eval sem args env o := by
  cases o with
  | inst j => exact Function.update_of_ne (fun hj => h (congrArg _ hj)) v env
  | arg i => rfl
  | const c => rfl

/-- How a block ends. -/
inductive End (α μ : Type) where
  | goto (label : ℕ) (env : Env α) (m : μ)
  | ret (v : Value α) (m : μ)
  | halt (m : μ)
  | ub

/-- The body of a block, from its first instruction to the one that ends it. -/
inductive Exec : List (Inst κ ο) → Env α → μ → List (Effect η α) → End α μ → Prop
  | bin {id : ℕ} {k : BinKind} {w : ℕ} {nsw nuw : Bool} {a b : Operand κ} {rest : List (Inst κ ο)}
      {env : Env α} {m : μ} {effs : List (Effect η α)} {e : End α μ} :
      Exec rest (Function.update env id
        (evalBin k w nsw nuw (eval sem args env a) (eval sem args env b))) m effs e →
      Exec (.bin id k w nsw nuw a b :: rest) env m effs e
  | next {id : ℕ} {o : ο} {operands : List (Operand κ)} {rest : List (Inst κ ο)} {env : Env α}
      {m m' : μ} {v : Value α} {effs more : List (Effect η α)} {e : End α μ} :
      sem.exec o (operands.map (eval sem args env)) m effs (.next v m') →
      Exec rest (Function.update env id v) m' more e →
      Exec (.other id o operands :: rest) env m (effs ++ more) e
  | goto {id : ℕ} {o : ο} {operands : List (Operand κ)} {rest : List (Inst κ ο)} {env : Env α}
      {m m' : μ} {label : ℕ} {effs : List (Effect η α)} :
      sem.exec o (operands.map (eval sem args env)) m effs (.goto label m') →
      Exec (.other id o operands :: rest) env m effs (.goto label env m')
  | ret {id : ℕ} {o : ο} {operands : List (Operand κ)} {rest : List (Inst κ ο)} {env : Env α}
      {m m' : μ} {v : Value α} {effs : List (Effect η α)} :
      sem.exec o (operands.map (eval sem args env)) m effs (.ret v m') →
      Exec (.other id o operands :: rest) env m effs (.ret v m')
  | halt {id : ℕ} {o : ο} {operands : List (Operand κ)} {rest : List (Inst κ ο)} {env : Env α}
      {m m' : μ} {effs : List (Effect η α)} :
      sem.exec o (operands.map (eval sem args env)) m effs (.halt m') →
      Exec (.other id o operands :: rest) env m effs (.halt m')
  | ub {id : ℕ} {o : ο} {operands : List (Operand κ)} {rest : List (Inst κ ο)} {env : Env α}
      {m : μ} {effs : List (Effect η α)} :
      sem.exec o (operands.map (eval sem args env)) m effs .ub →
      Exec (.other id o operands :: rest) env m effs .ub

/-- The results after the phis, all read from the results before them. -/
def enterPhis (before : Option ℕ) (env : Env α) : List (Phi κ) → Option (Env α)
  | [] => some env
  | p :: phis => do
    let incoming ← p.incoming.find? fun q => some q.1 == before
    let env' ← enterPhis before env phis
    some (Function.update env' p.id (eval sem args env incoming.2))

/-- A block about to be entered. -/
structure Entry (α μ : Type) where
  /-- The block control comes from; none at the start of the function. -/
  before : Option ℕ
  label : ℕ
  env : Env α
  mem : μ

/-- The block with a label. -/
def Blocks.find (F : Blocks κ ο) (label : ℕ) : Option (Block κ ο) :=
  List.find? (fun b => b.label == label) F

/-- One block, phis first. -/
def BlockExec (F : Blocks κ ο) (s : Entry α μ) (effs : List (Effect η α)) (e : End α μ) : Prop :=
  ∃ b env, Blocks.find F s.label = some b ∧ enterPhis sem args s.before s.env b.phis = some env ∧
    Exec sem args b.body env s.mem effs e

/-- Where a run is when it is looked at. -/
inductive Final (α μ : Type) where
  | running (s : Entry α μ)
  | ret (v : Value α) (m : μ)
  | halt (m : μ)
  | ub

/-- A run, with the blocks it has gone through and the effects it has had. -/
inductive Runs (F : Blocks κ ο) : Entry α μ → List ℕ → List (Effect η α) → Final α μ → Prop
  | here (s : Entry α μ) : Runs F s [] [] (.running s)
  | goto {s : Entry α μ} {effs more : List (Effect η α)} {label : ℕ} {env : Env α} {m : μ}
      {path : List ℕ} {f : Final α μ} :
      BlockExec sem args F s effs (.goto label env m) →
      Runs F ⟨some s.label, label, env, m⟩ path more f →
      Runs F s (s.label :: path) (effs ++ more) f
  | ret {s : Entry α μ} {effs : List (Effect η α)} {v : Value α} {m : μ} :
      BlockExec sem args F s effs (.ret v m) → Runs F s [s.label] effs (.ret v m)
  | halt {s : Entry α μ} {effs : List (Effect η α)} {m : μ} :
      BlockExec sem args F s effs (.halt m) → Runs F s [s.label] effs (.halt m)
  | ub {s : Entry α μ} {effs : List (Effect η α)} :
      BlockExec sem args F s effs .ub → Runs F s [s.label] effs .ub

/-- The entry of a function, nothing computed yet. -/
def start (F : Blocks κ ο) (m : μ) : Entry α μ :=
  ⟨none, (F.head?.map Block.label).getD 0, fun _ => .poison, m⟩

end Ssa

end HkSystem
