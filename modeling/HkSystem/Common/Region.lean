import Mathlib.Data.List.OfFn
import Mathlib.Data.List.Basic
import Mathlib.Logic.Function.Basic
/-!
# Shared memory regions

A region is a block of `n` bytes that several components map. Every
access is checked: a read or a write past the last byte has no result,
which models the fault of the component that made it. Regions are
compared through `get?`, the checked read, so that a law about the first
`k` bytes is a law about `get?` below `k`.
-/

namespace HkSystem

/-- A region of `n` bytes. -/
@[ext] structure Region (n : ℕ) where
  byte : Fin n → UInt8

namespace Region

variable {m n k i j : ℕ} {b : UInt8} {r r' : Region n}

/-- The region `memset` to zero. -/
def zero : Region n := ⟨fun _ => 0⟩

/-- The checked read of byte `i`. -/
def get? (r : Region n) (i : ℕ) : Option UInt8 :=
  if h : i < n then some (r.byte ⟨i, h⟩) else none

/-- The checked write of byte `i`. -/
def set? (r : Region n) (i : ℕ) (b : UInt8) : Option (Region n) :=
  if h : i < n then some ⟨Function.update r.byte ⟨i, h⟩ b⟩ else none

/-- `memset(r + off, b, len)`, which faults past the last byte. -/
def fill? (r : Region n) (off len : ℕ) (b : UInt8) : Option (Region n) :=
  if off + len ≤ n then some ⟨fun i => if off ≤ i.1 ∧ i.1 < off + len then b else r.byte i⟩
  else none

/-- `memcpy(dst, src, k)`, which faults if either region is shorter. -/
def memcpy (dst : Region m) (src : Region n) (k : ℕ) : Option (Region m) :=
  if h : k ≤ m ∧ k ≤ n then
    some ⟨fun i => if hi : i.1 < k then src.byte ⟨i.1, lt_of_lt_of_le hi h.2⟩ else dst.byte i⟩
  else none

/-- The region that starts with a list of bytes and goes on with zeros. -/
def ofList (l : List UInt8) : Region n := ⟨fun i => l.getD i.1 0⟩

/-- The region with a byte string over its first bytes. -/
def overwrite (r : Region n) (l : List UInt8) : Region n := ⟨fun i => l.getD i.1 (r.byte i)⟩

/-- The first `k` bytes, or the whole region if it is shorter. -/
def first (r : Region n) (k : ℕ) : List UInt8 := (List.range k).filterMap r.get?

/-! ## Reads -/

theorem get?_of_lt (h : i < n) : r.get? i = some (r.byte ⟨i, h⟩) := dif_pos h

theorem get?_of_ge (h : n ≤ i) : r.get? i = none := dif_neg (by omega)

/-- Regions that read the same are the same. -/
theorem ext_get? (h : ∀ i, i < n → r.get? i = r'.get? i) : r = r' := by
  ext ⟨i, hi⟩ : 2
  have := h i hi
  rw [get?_of_lt hi, get?_of_lt hi] at this
  exact Option.some.inj this

/-! ## Writes -/

theorem set?_isSome (h : i < n) : ∃ r', r.set? i b = some r' := ⟨_, dif_pos h⟩

/-- A store reads as its byte at its index and as before elsewhere. -/
theorem get?_of_set? (h : r.set? i b = some r') (j : ℕ) :
    r'.get? j = if j = i then some b else r.get? j := by
  unfold set? at h
  split at h
  · next hi =>
    obtain rfl := Option.some.inj h
    by_cases hj : j < n
    · by_cases hji : j = i
      · subst hji
        rw [get?_of_lt hj, if_pos rfl]
        simp
      · rw [get?_of_lt hj, get?_of_lt hj, if_neg hji]
        simp [Function.update_of_ne, hji]
    · rw [get?_of_ge (by omega), get?_of_ge (by omega), if_neg (by omega)]
  · cases h

theorem fill?_isSome {off len : ℕ} (h : off + len ≤ n) : ∃ r', r.fill? off len b = some r' :=
  ⟨_, if_pos h⟩

/-- A fill reads as its byte inside the range and as before outside it. -/
theorem get?_of_fill? {off len : ℕ} (h : r.fill? off len b = some r') (j : ℕ) :
    r'.get? j = if off ≤ j ∧ j < off + len then some b else r.get? j := by
  unfold fill? at h
  split at h
  · next hlen =>
    obtain rfl := Option.some.inj h
    by_cases hj : j < n
    · rw [get?_of_lt hj, get?_of_lt hj]
      by_cases hr : off ≤ j ∧ j < off + len
      · simp [hr]
      · rw [if_neg hr]
        simp only [if_neg hr]
    · rw [get?_of_ge (by omega), get?_of_ge (by omega), if_neg (by omega)]
  · cases h

theorem memcpy_isSome {dst : Region m} {src : Region n} (hm : k ≤ m) (hn : k ≤ n) :
    ∃ r, memcpy dst src k = some r :=
  ⟨_, dif_pos ⟨hm, hn⟩⟩

theorem le_of_memcpy {dst r : Region m} {src : Region n} (h : memcpy dst src k = some r) :
    k ≤ m ∧ k ≤ n := by
  unfold memcpy at h
  split at h
  · assumption
  · cases h

/-- A copy reads as its source below the length and as before above it. -/
theorem get?_of_memcpy {dst r : Region m} {src : Region n} (h : memcpy dst src k = some r)
    (i : ℕ) : r.get? i = if i < k then src.get? i else dst.get? i := by
  obtain ⟨hm, hn⟩ := le_of_memcpy h
  rw [memcpy, dif_pos ⟨hm, hn⟩] at h
  obtain rfl := Option.some.inj h
  by_cases hik : i < k
  · rw [if_pos hik, get?_of_lt (by omega), get?_of_lt (by omega)]
    simp [hik]
  · rw [if_neg hik]
    by_cases him : i < m
    · rw [get?_of_lt him, get?_of_lt him]
      simp [hik]
    · rw [get?_of_ge (by omega), get?_of_ge (by omega)]

/-! ## Prefixes -/

theorem first_succ (h : k < n) : r.first (k + 1) = r.first k ++ [r.byte ⟨k, h⟩] := by
  simp [first, List.range_succ, List.filterMap_append, get?_of_lt h]

@[simp] theorem first_zero : r.first 0 = [] := rfl

/-- A zeroed region reads as zeros. -/
theorem first_of_zero (h : k ≤ n) : (zero : Region n).first k = List.replicate k 0 := by
  induction k with
  | zero => rfl
  | succ k ih =>
    rw [first_succ h, ih (by omega), List.replicate_succ']
    rfl

theorem length_first (h : k ≤ n) : (r.first k).length = k := by
  induction k with
  | zero => rfl
  | succ k ih => rw [first_succ h, List.length_append, ih (by omega)]; rfl

theorem getElem?_first (hk : k ≤ n) (hi : i < k) : (r.first k)[i]? = r.get? i := by
  induction k with
  | zero => omega
  | succ k ih =>
    rw [first_succ hk]
    rcases Nat.lt_or_ge i k with h | h
    · rw [List.getElem?_append_left (by rw [length_first (by omega)]; exact h), ih (by omega) h]
    · have hik : i = k := by omega
      subst hik
      rw [List.getElem?_append_right (by rw [length_first (by omega)]), length_first (by omega),
        Nat.sub_self, get?_of_lt hk]
      rfl

/-- A prefix is what the checked reads below its length return. -/
theorem first_congr {r' : Region m} (h : ∀ i, i < k → r.get? i = r'.get? i) :
    r.first k = r'.first k :=
  List.filterMap_congr fun i hi => h i (List.mem_range.1 hi)

/-- A prefix is as long as it can be. -/
theorem length_first_eq_min : (r.first k).length = min k n := by
  induction k with
  | zero => simp
  | succ k ih =>
    rcases Nat.lt_or_ge k n with h | h
    · rw [first_succ h, List.length_append, ih, List.length_singleton]
      omega
    · rw [first, List.range_succ, List.filterMap_append, List.length_append]
      change (r.first k).length + _ = _
      rw [ih]
      simp [get?_of_ge h]
      omega

/-- A prefix and what follows it, up to a longer one. -/
theorem first_append_drop (hle : i ≤ k) (hi : i ≤ n) :
    r.first i ++ (r.first k).drop i = r.first k := by
  obtain ⟨d, rfl⟩ := Nat.exists_eq_add_of_le hle
  have hsplit : r.first (i + d) =
      r.first i ++ ((List.range d).map (i + ·)).filterMap r.get? := by
    rw [first, List.range_add, List.filterMap_append]
    rfl
  rw [hsplit, List.drop_left' (length_first hi)]

theorem take_first (hle : i ≤ k) (hi : i ≤ n) : (r.first k).take i = r.first i := by
  rw [← first_append_drop hle hi, List.take_left' (length_first hi)]

/-- A copy carries prefixes over. -/
theorem first_of_memcpy {dst : Region m} {src : Region n} {r : Region m}
    (h : memcpy dst src k = some r) (hi : i ≤ k) : r.first i = src.first i :=
  first_congr fun j hj => by rw [get?_of_memcpy h, if_pos (by omega)]

/-- A store at the end of a prefix appends its byte. -/
theorem first_of_set? (h : r.set? k b = some r') : r'.first (k + 1) = r.first k ++ [b] := by
  have hk : k < n := by
    unfold set? at h
    split at h
    · assumption
    · cases h
  have hget := get?_of_set? h
  have hlast : r'.byte ⟨k, hk⟩ = b := by
    have := hget k
    rw [get?_of_lt hk, if_pos rfl] at this
    exact Option.some.inj this
  have hsame : r'.first k = r.first k :=
    first_congr fun j hj => by rw [hget j, if_neg (by omega)]
  rw [first_succ hk, hsame, hlast]

/-- A fill at the end of a prefix appends as many bytes. -/
theorem first_of_fill? {len : ℕ} (h : r.fill? k len b = some r') :
    r'.first (k + len) = r.first k ++ List.replicate len b := by
  have hlen : k + len ≤ n := by
    unfold fill? at h
    split at h
    · assumption
    · cases h
  have hget := get?_of_fill? h
  -- the part of the range already seen grows by a byte at a time
  have hpart : ∀ d, d ≤ len → r'.first (k + d) = r.first k ++ List.replicate d b := by
    intro d hd
    induction d with
    | zero =>
      rw [List.replicate_zero, List.append_nil]
      exact first_congr fun j hj => by rw [hget j, if_neg (by omega)]
    | succ d ih =>
      have hkd : k + d < n := by omega
      have hbyte : r'.byte ⟨k + d, hkd⟩ = b := by
        have := hget (k + d)
        rw [get?_of_lt hkd, if_pos (by omega)] at this
        exact Option.some.inj this
      rw [← Nat.add_assoc, first_succ hkd, ih (by omega), hbyte, List.replicate_succ',
        List.append_assoc]
  exact hpart len le_rfl

theorem first_eq_iff {l : List UInt8} (hl : l.length ≤ n) :
    r.first l.length = l ↔ ∀ i, i < l.length → r.get? i = l[i]? := by
  constructor
  · intro h i hi
    rw [← getElem?_first hl hi, h]
  · intro h
    refine List.ext_getElem? fun i => ?_
    rcases Nat.lt_or_ge i l.length with hi | hi
    · rw [getElem?_first hl hi, h i hi]
    · rw [List.getElem?_eq_none (by rw [length_first hl]; exact hi), List.getElem?_eq_none hi]

theorem first_ofList {l : List UInt8} (hl : l.length ≤ n) :
    (ofList l : Region n).first l.length = l := by
  refine (first_eq_iff hl).2 fun i hi => ?_
  rw [get?_of_lt (by omega)]
  simp [ofList, hi]

/-- A region copied whole is the byte string it was made from. -/
theorem memcpy_ofList {dst : Region m} {l : List UInt8} (h : m ≤ n) :
    memcpy dst (ofList l : Region n) m = some (ofList l) := by
  obtain ⟨r, hcopy⟩ : ∃ r, memcpy dst (ofList l : Region n) m = some r := memcpy_isSome le_rfl h
  rw [hcopy]
  refine congrArg some (ext_get? fun i hi => ?_)
  rw [get?_of_memcpy hcopy, if_pos hi, get?_of_lt hi, get?_of_lt (by omega)]
  rfl

/-! ## A byte string over the front -/

variable {l : List UInt8}

theorem get?_overwrite (h : i < n) :
    (r.overwrite l).get? i = if i < l.length then l[i]? else r.get? i := by
  rw [get?_of_lt h, get?_of_lt h]
  split
  · next hi => simp [overwrite, hi]
  · next hi => simp [overwrite, Nat.not_lt.1 hi]

/-- A store just past the byte string makes it longer. -/
theorem set?_overwrite (h : l.length < n) :
    (r.overwrite l).set? l.length b = some (r.overwrite (l ++ [b])) := by
  obtain ⟨r', hset⟩ := set?_isSome (r := r.overwrite l) (b := b) h
  rw [hset]
  refine congrArg some (ext_get? fun j hj => ?_)
  rw [get?_of_set? hset, get?_overwrite hj, get?_overwrite hj, List.length_append,
    List.length_singleton]
  rcases Nat.lt_trichotomy j l.length with hlt | heq | hgt
  · rw [if_neg (by omega), if_pos hlt, if_pos (by omega), List.getElem?_append_left hlt]
  · subst heq
    rw [if_pos rfl, if_pos (by omega), List.getElem?_concat_length]
  · rw [if_neg (by omega), if_neg (by omega), if_neg (by omega)]

theorem first_overwrite (h : l.length ≤ n) : (r.overwrite l).first l.length = l :=
  (first_eq_iff h).2 fun i hi => by rw [get?_overwrite (by omega), if_pos hi]

/-- Copying the byte string writes it over the front of the other region. -/
theorem memcpy_overwrite {dst : Region m} (hm : l.length ≤ m) (hn : l.length ≤ n) :
    memcpy dst (r.overwrite l) l.length = some (dst.overwrite l) := by
  obtain ⟨r', hcopy⟩ : ∃ r', memcpy dst (r.overwrite l) l.length = some r' := memcpy_isSome hm hn
  rw [hcopy]
  refine congrArg some (ext_get? fun j hj => ?_)
  rw [get?_of_memcpy hcopy, get?_overwrite hj]
  split
  · next hjl => rw [get?_overwrite (by omega), if_pos hjl]
  · rfl

end Region

end HkSystem
