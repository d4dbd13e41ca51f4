import Mathlib.Data.List.Basic
/-!
# Rounds over lanes

Ciphers of the ARX family keep a vector of words and transform four of them
at a time. A lane names the four places; a round is a list of lanes, taken
one after another with the same transformation of four words.

Two transformations take a vector through the same states exactly when they
agree on every four words met on the way (`states_eq_iff`). Lanes that share
no place are transformed as if all at once (`words_rounds_of_pairwise`).
-/

namespace HkSystem

/-- Four places of a vector. -/
structure Lane (n : ℕ) where
  i : Fin n
  j : Fin n
  k : Fin n
  l : Fin n
  deriving DecidableEq

namespace Lane

variable {α : Type*} {n : ℕ}

/-- The words at the places. -/
def words (x : Lane n) (s : Vector α n) : α × α × α × α :=
  (s.get x.i, s.get x.j, s.get x.k, s.get x.l)

/-- The vector with four words stored at the places, in order. -/
def store (x : Lane n) (s : Vector α n) (w : α × α × α × α) : Vector α n :=
  (((s.set x.i w.1).set x.j w.2.1).set x.k w.2.2.1).set x.l w.2.2.2

/-- The transformation of the words at the places. -/
def apply (q : α × α × α × α → α × α × α × α) (s : Vector α n) (x : Lane n) : Vector α n :=
  x.store s (q (x.words s))

/-- The four places are different. -/
def Distinct (x : Lane n) : Prop := [x.i, x.j, x.k, x.l].Nodup

/-- No place of the one is a place of the other. -/
def Disjoint (x y : Lane n) : Prop := List.Disjoint [x.i, x.j, x.k, x.l] [y.i, y.j, y.k, y.l]

instance (x : Lane n) : Decidable x.Distinct := inferInstanceAs (Decidable (List.Nodup _))

instance (x y : Lane n) : Decidable (x.Disjoint y) :=
  decidable_of_iff (∀ p ∈ [x.i, x.j, x.k, x.l], p ∉ [y.i, y.j, y.k, y.l]) Iff.rfl

/-- The transformations one lane after another. -/
def rounds (q : α × α × α × α → α × α × α × α) (lanes : List (Lane n)) (s : Vector α n) :
    Vector α n := lanes.foldl (apply q) s

/-- The words each transformation is given. -/
def arguments (q : α × α × α × α → α × α × α × α) :
    List (Lane n) → Vector α n → List (α × α × α × α)
  | [], _ => []
  | x :: lanes, s => x.words s :: arguments q lanes (apply q s x)

/-- The vector after each transformation. -/
def states (q : α × α × α × α → α × α × α × α) : List (Lane n) → Vector α n → List (Vector α n)
  | [], _ => []
  | x :: lanes, s => apply q s x :: states q lanes (apply q s x)

variable {q q' : α × α × α × α → α × α × α × α} {x y : Lane n} {lanes more : List (Lane n)}
  {s : Vector α n} {w : α × α × α × α}

/-! ## One lane -/

theorem get_set (s : Vector α n) (i j : Fin n) (a : α) :
    (s.set i a).get j = if j = i then a else s.get j := by
  change (s.set i a)[j.1] = if j = i then a else s[j.1]
  rw [Vector.getElem_set]
  exact if_congr (by rw [eq_comm, Fin.ext_iff]) rfl rfl

/-- A place that is not named is left alone. -/
theorem get_store {p : Fin n} (h : p ∉ [x.i, x.j, x.k, x.l]) : (x.store s w).get p = s.get p := by
  simp only [List.mem_cons, List.not_mem_nil, or_false, not_or] at h
  obtain ⟨hi, hj, hk, hl⟩ := h
  rw [store, get_set, if_neg hl, get_set, if_neg hk, get_set, if_neg hj, get_set, if_neg hi]

/-- Words stored at different places are there. -/
theorem words_store (h : x.Distinct) : x.words (x.store s w) = w := by
  obtain ⟨i, j, k, l⟩ := x
  simp only [Distinct, List.nodup_cons, List.mem_cons, List.not_mem_nil, or_false, not_or] at h
  obtain ⟨⟨hij, hik, hil⟩, ⟨hjk, hjl⟩, hkl, -⟩ := h
  simp only [words, store, get_set, if_neg hij, if_neg hik, if_neg hil, if_neg hjk, if_neg hjl,
    if_neg hkl, if_true]

theorem words_apply (h : x.Distinct) : x.words (apply q s x) = q (x.words s) := words_store h

theorem Disjoint.symm (h : x.Disjoint y) : y.Disjoint x := fun _ hy hx => h hx hy

/-- A lane that shares no place keeps its words. -/
theorem words_apply_of_disjoint (h : x.Disjoint y) : x.words (apply q s y) = x.words s := by
  have hp : ∀ p ∈ [x.i, x.j, x.k, x.l], (apply q s y).get p = s.get p :=
    fun p hp => get_store (h hp)
  simp only [List.forall_mem_cons] at hp
  obtain ⟨hi, hj, hk, hl, -⟩ := hp
  rw [words, words, hi, hj, hk, hl]

/-- The same vector comes out exactly when the same words do. -/
theorem apply_eq_iff (h : x.Distinct) :
    apply q' s x = apply q s x ↔ q' (x.words s) = q (x.words s) := by
  constructor
  · intro heq
    have hwords := congrArg x.words heq
    rwa [words_apply h, words_apply h] at hwords
  · intro heq
    rw [apply, heq, apply]

/-! ## Many lanes -/

@[simp] theorem rounds_nil : rounds q [] s = s := rfl

@[simp] theorem rounds_cons : rounds q (x :: lanes) s = rounds q lanes (apply q s x) := rfl

theorem rounds_append : rounds q (lanes ++ more) s = rounds q more (rounds q lanes s) :=
  List.foldl_append

/-- Rounds repeated, as a loop. -/
theorem rounds_replicate (t : ℕ) :
    rounds q (List.replicate t lanes).flatten s =
      (List.range t).foldl (fun s _ => rounds q lanes s) s := by
  induction t with
  | zero => rfl
  | succ t ih =>
    rw [List.replicate_succ', List.flatten_append, rounds_append, ih, List.flatten_singleton,
      List.range_succ, List.foldl_append, List.foldl_cons, List.foldl_nil]

theorem length_arguments : (arguments q lanes s).length = lanes.length := by
  induction lanes generalizing s with
  | nil => rfl
  | cons x lanes ih => rw [arguments, List.length_cons, ih, List.length_cons]

theorem arguments_append :
    arguments q (lanes ++ more) s = arguments q lanes s ++ arguments q more (rounds q lanes s) := by
  induction lanes generalizing s with
  | nil => rfl
  | cons x lanes ih => rw [List.cons_append, arguments, ih, arguments, rounds_cons, List.cons_append]

/-- **Two transformations go through the same states** exactly when they agree
on all the words the one is given. -/
theorem states_eq_iff (h : ∀ x ∈ lanes, x.Distinct) :
    states q' lanes s = states q lanes s ↔ ∀ w ∈ arguments q lanes s, q' w = q w := by
  induction lanes generalizing s with
  | nil => simp [states, arguments]
  | cons x lanes ih =>
    obtain ⟨hx, hlanes⟩ := List.forall_mem_cons.1 h
    rw [states, states, arguments, List.cons.injEq, List.forall_mem_cons, apply_eq_iff hx]
    refine and_congr_right fun heq => ?_
    rw [(apply_eq_iff hx).2 heq, ih hlanes]

/-- In particular they end in the same one. -/
theorem rounds_congr (h : ∀ w ∈ arguments q lanes s, q' w = q w) :
    rounds q' lanes s = rounds q lanes s := by
  induction lanes generalizing s with
  | nil => rfl
  | cons x lanes ih =>
    obtain ⟨hx, hlanes⟩ := List.forall_mem_cons.1 h
    have happly : apply q' s x = apply q s x := by rw [apply, hx, apply]
    rw [rounds_cons, rounds_cons, happly, ih hlanes]

/-- A lane that shares no place with the others keeps its words through them. -/
theorem words_rounds_of_disjoint (h : ∀ y ∈ lanes, x.Disjoint y) :
    x.words (rounds q lanes s) = x.words s := by
  induction lanes generalizing s with
  | nil => rfl
  | cons y lanes ih =>
    obtain ⟨hy, hlanes⟩ := List.forall_mem_cons.1 h
    rw [rounds_cons, ih hlanes, words_apply_of_disjoint hy]

/-- **Disjoint lanes are transformed as if at once**: each ends with what becomes
of the words it had. -/
theorem words_rounds_of_pairwise (hdistinct : ∀ x ∈ lanes, x.Distinct)
    (h : lanes.Pairwise Lane.Disjoint) (hx : x ∈ lanes) :
    x.words (rounds q lanes s) = q (x.words s) := by
  induction lanes generalizing s with
  | nil => cases hx
  | cons y lanes ih =>
    obtain ⟨hy, hlanes⟩ := List.forall_mem_cons.1 hdistinct
    obtain ⟨hdisj, hrest⟩ := List.pairwise_cons.1 h
    rw [rounds_cons]
    rcases List.mem_cons.1 hx with rfl | hmem
    · rw [words_rounds_of_disjoint hdisj, words_apply hy]
    · rw [ih hlanes hrest hmem, words_apply_of_disjoint (hdisj x hmem).symm]

/-- And is given the words it had at the start. -/
theorem mem_arguments_of_pairwise (h : lanes.Pairwise Lane.Disjoint)
    (hw : w ∈ arguments q lanes s) : ∃ x ∈ lanes, w = x.words s := by
  induction lanes generalizing s with
  | nil => cases hw
  | cons y lanes ih =>
    obtain ⟨hdisj, hrest⟩ := List.pairwise_cons.1 h
    rcases List.mem_cons.1 hw with rfl | hmem
    · exact ⟨y, List.mem_cons_self .., rfl⟩
    · obtain ⟨x, hx, rfl⟩ := ih hrest hmem
      exact ⟨x, List.mem_cons_of_mem _ hx, words_apply_of_disjoint (hdisj x hx).symm⟩

end Lane

end HkSystem
