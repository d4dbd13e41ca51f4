import HkSystem.Common.Mixing
import HkSystem.Common.Region
/-!
# The one-at-a-time hash

Jenkins' one-at-a-time hash of a byte string, and the loop that computes
it over a region. The loop reads the region byte by byte and stops with
no result as soon as a read leaves it; where it stays inside, its result
is the digest of the bytes it read (`hashLoop_eq`), and `readLoop` is the
same loop with the indices it has read.

Every step of the hash is injective, so two digests agree exactly when the
running hashes do (`digest_inj`), and no single byte can be changed without
changing the digest (`digest_set_ne`).
-/

namespace HkSystem

namespace OneAtATime

variable {n len : ℕ} {data : Region n}

/-- One turn of the loop: absorb a byte and mix. -/
def mix (hash : UInt32) (b : UInt8) : UInt32 :=
  let hash := hash + b.toUInt32
  let hash := hash + (hash <<< 10)
  hash ^^^ (hash >>> 6)

/-- The three mixing steps after the loop. -/
def finish (hash : UInt32) : UInt32 :=
  let hash := hash + (hash <<< 3)
  let hash := hash ^^^ (hash >>> 11)
  hash + (hash <<< 15)

/-- The hash of a byte string. -/
def digest (bytes : List UInt8) : UInt32 := finish (bytes.foldl mix 0)

/-- The running hash after `len` turns over a region. -/
def mixLoop (data : Region n) (len : ℕ) : Option UInt32 :=
  (List.range len).foldlM (fun hash i => (data.get? i).map (mix hash)) 0

/-- The whole loop over the first `len` bytes of a region. -/
def hashLoop (data : Region n) (len : ℕ) : Option UInt32 := (mixLoop data len).map finish

theorem mixLoop_succ :
    mixLoop data (len + 1) = (mixLoop data len).bind fun hash => (data.get? len).map (mix hash) := by
  simp [mixLoop, List.range_succ, List.foldlM_append]

/-- Inside the region the loop is a fold over the bytes it reads. -/
theorem mixLoop_eq (h : len ≤ n) : mixLoop data len = some ((data.first len).foldl mix 0) := by
  induction len with
  | zero => rfl
  | succ len ih =>
    rw [mixLoop_succ, ih (by omega), Region.first_succ h, Region.get?_of_lt h]
    simp

/-- **Inside the region the loop is the digest of what it reads.** -/
theorem hashLoop_eq (h : len ≤ n) : hashLoop data len = some (digest (data.first len)) := by
  rw [hashLoop, mixLoop_eq h]
  rfl

/-- A loop past the end of the region faults. -/
theorem hashLoop_eq_none (h : n < len) : hashLoop data len = none := by
  have hmix : mixLoop data len = none := by
    induction len with
    | zero => omega
    | succ len ih =>
      rw [mixLoop_succ]
      rcases Nat.lt_or_ge n len with hlt | hge
      · rw [ih hlt]; rfl
      · rw [mixLoop_eq hge, Region.get?_of_ge (by omega)]
        rfl
  rw [hashLoop, hmix]
  rfl

theorem hashLoop_eq_some_iff {hash : UInt32} :
    hashLoop data len = some hash ↔ len ≤ n ∧ digest (data.first len) = hash := by
  rcases Nat.lt_or_ge n len with h | h
  · rw [hashLoop_eq_none h]
    exact ⟨(nomatch ·), fun hd => by omega⟩
  · rw [hashLoop_eq h, Option.some.injEq]
    exact ⟨fun hd => ⟨h, hd⟩, fun hd => hd.2⟩

/-- The loop sees only the bytes below its length. -/
theorem hashLoop_congr {data' : Region n} (h : ∀ i, i < len → data.get? i = data'.get? i) :
    hashLoop data len = hashLoop data' len := by
  rcases Nat.lt_or_ge n len with hlt | hge
  · rw [hashLoop_eq_none hlt, hashLoop_eq_none hlt]
  · rw [hashLoop_eq hge, hashLoop_eq hge, Region.first_congr h]

/-! ## What the loop reads -/

/-- The loop with the indices it has read. A read outside the region is its
last one. -/
def readLoop (data : Region n) (len : ℕ) : List ℕ × Option UInt32 :=
  (List.range len).foldl (fun loop i =>
    match loop.2 with
    | none => loop
    | some hash => (loop.1 ++ [i], (data.get? i).map (mix hash))) ([], some 0)

theorem readLoop_succ :
    readLoop data (len + 1) =
      match (readLoop data len).2 with
      | none => readLoop data len
      | some hash => ((readLoop data len).1 ++ [len], (data.get? len).map (mix hash)) := by
  simp only [readLoop, List.range_succ, List.foldl_append, List.foldl_cons, List.foldl_nil]

/-- The running hash is that of the plain loop. -/
theorem readLoop_hash : (readLoop data len).2 = mixLoop data len := by
  induction len with
  | zero => rfl
  | succ len ih =>
    rw [readLoop_succ, mixLoop_succ, ← ih]
    cases h : (readLoop data len).2 with
    | none => exact h
    | some hash => rfl

/-- Inside the region it reads every index below its length. -/
theorem reads_of_le (h : len ≤ n) : (readLoop data len).1 = List.range len := by
  induction len with
  | zero => rfl
  | succ len ih =>
    rw [readLoop_succ, readLoop_hash, mixLoop_eq (by omega), List.range_succ, ← ih (by omega)]

/-- More turns forget no read. -/
theorem mem_reads_succ {i : ℕ} (h : i ∈ (readLoop data len).1) :
    i ∈ (readLoop data (len + 1)).1 := by
  rw [readLoop_succ]
  split
  · exact h
  · exact List.mem_append_left _ h

/-- **The loop stays inside the region exactly when its length does.** -/
theorem reads_inside_iff : (∀ i ∈ (readLoop data len).1, i < n) ↔ len ≤ n := by
  constructor
  · intro h
    by_contra hlen
    -- the turn behind the last byte is taken, and reads past it
    have hout : n ∈ (readLoop data len).1 := by
      induction len, (show n + 1 ≤ len by omega) using Nat.le_induction with
      | base =>
        rw [readLoop_succ, readLoop_hash, mixLoop_eq le_rfl]
        exact List.mem_append_right _ (List.mem_singleton.2 rfl)
      | succ len hle ih => exact mem_reads_succ (ih (fun i hi => h i (mem_reads_succ hi)) (by omega))
    exact absurd (h n hout) (lt_irrefl n)
  · intro hlen i hi
    rw [reads_of_le hlen, List.mem_range] at hi
    omega

/-- Zeros in front are not seen at all. -/
theorem foldl_mix_zeros (k : ℕ) : (List.replicate k (0 : UInt8)).foldl mix 0 = 0 := by
  induction k with
  | zero => rfl
  | succ k ih =>
    rw [List.replicate_succ, List.foldl_cons]
    exact ih

/-! ## Injectivity -/

variable {bytes : List UInt8} {i : ℕ} {b b' : UInt8}

/-- Mixing loses nothing of the running hash and the byte taken together. -/
theorem add_eq_of_mix_eq {hash hash' : UInt32} (h : mix hash b = mix hash' b') :
    hash + b.toUInt32 = hash' + b'.toUInt32 := by
  have hxor := Mixing.xor_ushiftRight_injective (w := 32) (k := 6) (by decide)
    (congrArg UInt32.toBitVec h)
  exact UInt32.toBitVec_inj.1 (Mixing.add_shiftLeft_injective (k := 10) (by decide) hxor)

theorem mix_injective (b : UInt8) : Function.Injective fun hash => mix hash b :=
  fun _ _ h => (UInt32.add_left_inj _).1 (add_eq_of_mix_eq h)

theorem mix_byte_injective (hash : UInt32) : Function.Injective (mix hash) := fun b b' h => by
  have hword := (UInt32.add_right_inj _).1 (add_eq_of_mix_eq h)
  rw [← UInt8.toUInt8_toUInt32 b, hword, UInt8.toUInt8_toUInt32]

/-- The last three steps lose nothing either. -/
theorem finish_injective : Function.Injective finish := by
  intro hash hash' h
  have hlast := Mixing.add_shiftLeft_injective (w := 32) (k := 15) (by decide)
    (congrArg UInt32.toBitVec h)
  have hxor := Mixing.xor_ushiftRight_injective (w := 32) (k := 11) (by decide) hlast
  exact UInt32.toBitVec_inj.1 (Mixing.add_shiftLeft_injective (k := 3) (by decide) hxor)

/-- **Digests agree exactly when the running hashes do.** -/
theorem digest_inj {more : List UInt8} :
    digest bytes = digest more ↔ bytes.foldl mix 0 = more.foldl mix 0 :=
  finish_injective.eq_iff

/-- More bytes leave the digest alone exactly when they bring the running hash
back to where it was. -/
theorem digest_append_eq_iff {more : List UInt8} :
    digest (bytes ++ more) = digest bytes ↔
      more.foldl mix (bytes.foldl mix 0) = bytes.foldl mix 0 := by
  rw [digest_inj, List.foldl_append]

/-- **Every single-byte change shows in the digest.** -/
theorem digest_set_ne (hget : bytes[i]? = some b) (hne : b' ≠ b) :
    digest (bytes.set i b') ≠ digest bytes := fun h =>
  Mixing.foldl_set_ne mix_injective mix_byte_injective hget hne 0 (digest_inj.1 h)

/-- **A change of two adjacent bytes shows in the digest** unless the second makes up
for what the first did to the running hash. -/
theorem digest_adjacent_iff (front tail : List UInt8) {a a' : UInt8} :
    digest (front ++ a :: b :: tail) = digest (front ++ a' :: b' :: tail) ↔
      mix (front.foldl mix 0) a + b.toUInt32 = mix (front.foldl mix 0) a' + b'.toUInt32 := by
  have hinj := Mixing.foldl_injective mix_injective tail
  rw [digest_inj, List.foldl_append, List.foldl_append]
  simp only [List.foldl_cons]
  constructor
  · intro h
    exact add_eq_of_mix_eq (hinj h)
  · intro h
    rw [mix, h]
    rfl

end OneAtATime

end HkSystem
