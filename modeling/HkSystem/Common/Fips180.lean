import Mathlib.Algebra.Group.Nat.Defs
import Mathlib.Data.Nat.NthRoot.Defs
import Mathlib.Data.Nat.Find
import Mathlib.Data.List.Basic
/-!
# SHA-256 as FIPS 180-4 defines it

The standard's functions (§4.1.2), constants (§4.2.2, §5.3.3), padding
(§5.1.1), parsing (§5.2.1) and hash computation (§6.2.2) for messages that
are whole bytes. The constants are computed from the primes the standard
derives them from. `hashBytes` runs the compression function over the
complete blocks of a byte string; `hashBytes_append` lets it be run a piece
at a time. The last section keys the hash as RFC 2104 does, with the block
size of SHA-256.
-/

namespace HkSystem

namespace Fips180

/-- Eight words: a hash value `H₀ … H₇`, or the working variables. -/
@[ext] structure Words8 where
  a : UInt32
  b : UInt32
  c : UInt32
  d : UInt32
  e : UInt32
  f : UInt32
  g : UInt32
  h : UInt32
  deriving DecidableEq

/-! ## Functions and constants -/

/-- `ROTR`. -/
def rotr (n : ℕ) (x : UInt32) : UInt32 := .ofBitVec (x.toBitVec.rotateRight n)

/-- `Ch`. -/
def ch (x y z : UInt32) : UInt32 := (x &&& y) ^^^ (~~~x &&& z)

/-- `Maj`. -/
def maj (x y z : UInt32) : UInt32 := (x &&& y) ^^^ (x &&& z) ^^^ (y &&& z)

/-- `Σ₀`. -/
def bigSigma0 (x : UInt32) : UInt32 := rotr 2 x ^^^ rotr 13 x ^^^ rotr 22 x

/-- `Σ₁`. -/
def bigSigma1 (x : UInt32) : UInt32 := rotr 6 x ^^^ rotr 11 x ^^^ rotr 25 x

/-- `σ₀`. -/
def smallSigma0 (x : UInt32) : UInt32 := rotr 7 x ^^^ rotr 18 x ^^^ (x >>> 3)

/-- `σ₁`. -/
def smallSigma1 (x : UInt32) : UInt32 := rotr 17 x ^^^ rotr 19 x ^^^ (x >>> 10)

/-- The first sixty-four prime numbers. -/
def firstPrimes : List ℕ :=
  [2, 3, 5, 7, 11, 13, 17, 19, 23, 29, 31, 37, 41, 43, 47, 53, 59, 61, 67, 71, 73, 79, 83, 89, 97,
    101, 103, 107, 109, 113, 127, 131, 137, 139, 149, 151, 157, 163, 167, 173, 179, 181, 191, 193,
    197, 199, 211, 223, 227, 229, 233, 239, 241, 251, 257, 263, 269, 271, 277, 281, 283, 293, 307,
    311]

/-- The first thirty-two bits of the fractional part of the `k`-th root of
`p`: the root of `p * 2 ^ (32 * k)`, with its whole part dropped. -/
def fracRoot (k p : ℕ) : UInt32 := .ofNat (Nat.nthRoot k (p * 2 ^ (32 * k)))

/-- The round constant `K_t`, from the cube root of the `t`-th prime. -/
def roundConstant (t : ℕ) : UInt32 := fracRoot 3 (firstPrimes.getD t 0)

/-- The initial hash value, from the square roots of the first eight
primes. -/
def initialHash : Words8 :=
  ⟨fracRoot 2 2, fracRoot 2 3, fracRoot 2 5, fracRoot 2 7, fracRoot 2 11, fracRoot 2 13,
    fracRoot 2 17, fracRoot 2 19⟩

/-! ## Padding and parsing -/

theorem exists_zeroBits (l : ℕ) : ∃ k, (l + 1 + k) % 512 = 448 :=
  ⟨(960 - (l + 1) % 512) % 512, by omega⟩

/-- The zero bits after the single one bit, for a message of `l` bits: the
least number that leaves room for the length in the last block. -/
def zeroBits (l : ℕ) : ℕ := Nat.find (exists_zeroBits l)

theorem zeroBits_eq (l : ℕ) : zeroBits l = (960 - (l + 1) % 512) % 512 := by
  refine (Nat.find_eq_iff (exists_zeroBits l)).2 ⟨by omega, fun k hk => ?_⟩
  omega

/-- A length as eight bytes, most significant first. -/
def lengthBytes (l : ℕ) : List UInt8 :=
  (List.range 8).map fun i => UInt8.ofNat (l / 2 ^ (8 * (7 - i)))

/-- The padded message: `0x80` is the one bit and the first seven zeros. -/
def pad (m : List UInt8) : List UInt8 :=
  m ++ 0x80 :: (List.replicate (zeroBits (8 * m.length) / 8) 0 ++ lengthBytes (8 * m.length))

/-- Four bytes, put end to end, as a word. -/
def word (b₀ b₁ b₂ b₃ : UInt8) : UInt32 :=
  .ofBitVec (b₀.toBitVec ++ b₁.toBitVec ++ b₂.toBitVec ++ b₃.toBitVec)

/-- The word `M_t` of a block. -/
def blockWord (block : List UInt8) (t : ℕ) : UInt32 :=
  word (block.getD (4 * t) 0) (block.getD (4 * t + 1) 0) (block.getD (4 * t + 2) 0)
    (block.getD (4 * t + 3) 0)

/-! ## Hash computation -/

/-- The message schedule `W_t`. -/
def schedule (block : List UInt8) (t : ℕ) : UInt32 :=
  if t < 16 then blockWord block t
  else smallSigma1 (schedule block (t - 2)) + schedule block (t - 7) +
    smallSigma0 (schedule block (t - 15)) + schedule block (t - 16)

theorem schedule_of_lt {block : List UInt8} {t : ℕ} (h : t < 16) :
    schedule block t = blockWord block t := by
  rw [schedule, if_pos h]

theorem schedule_of_ge {block : List UInt8} {t : ℕ} (h : 16 ≤ t) :
    schedule block t = smallSigma1 (schedule block (t - 2)) + schedule block (t - 7) +
      smallSigma0 (schedule block (t - 15)) + schedule block (t - 16) := by
  rw [schedule, if_neg (by omega)]

/-- Round `t` of the compression function. -/
def round (block : List UInt8) (v : Words8) (t : ℕ) : Words8 :=
  let t₁ := v.h + bigSigma1 v.e + ch v.e v.f v.g + roundConstant t + schedule block t
  let t₂ := bigSigma0 v.a + maj v.a v.b v.c
  ⟨t₁ + t₂, v.a, v.b, v.c, v.d + t₁, v.e, v.f, v.g⟩

/-- Word by word addition. -/
def Words8.add (v w : Words8) : Words8 :=
  ⟨v.a + w.a, v.b + w.b, v.c + w.c, v.d + w.d, v.e + w.e, v.f + w.f, v.g + w.g, v.h + w.h⟩

/-- The compression function: the hash value after one more block. -/
@[irreducible] def compress (hash : Words8) (block : List UInt8) : Words8 :=
  ((List.range 64).foldl (round block) hash).add hash

/-- The hash value after the complete blocks of a byte string. -/
def hashBytes (hash : Words8) (bytes : List UInt8) : Words8 :=
  if bytes.length < 64 then hash
  else hashBytes (compress hash (bytes.take 64)) (bytes.drop 64)
termination_by bytes.length
decreasing_by
  rw [List.length_drop]
  omega

/-- A word as four bytes, most significant first. -/
def wordBytes (w : UInt32) : List UInt8 :=
  (List.range 4).map fun i => .ofBitVec (w.toBitVec.extractLsb' (24 - 8 * i) 8)

/-- A hash value as thirty-two bytes. -/
def Words8.bytes (v : Words8) : List UInt8 :=
  wordBytes v.a ++ wordBytes v.b ++ wordBytes v.c ++ wordBytes v.d ++ wordBytes v.e ++
    wordBytes v.f ++ wordBytes v.g ++ wordBytes v.h

/-- **SHA-256.** -/
def sha256 (m : List UInt8) : List UInt8 := (hashBytes initialHash (pad m)).bytes

/-! ## Hashing a piece at a time -/

variable {hash : Words8} {x y : List UInt8}

theorem hashBytes_of_lt (h : x.length < 64) : hashBytes hash x = hash := by
  rw [hashBytes, if_pos h]

/-- One whole block first. -/
theorem hashBytes_block (h : x.length = 64) :
    hashBytes hash (x ++ y) = hashBytes (compress hash x) y := by
  have htake : (x ++ y).take 64 = x := List.take_left' h
  have hdrop : (x ++ y).drop 64 = y := List.drop_left' h
  rw [hashBytes, if_neg (by rw [List.length_append]; omega), htake, hdrop]

/-- A single block. -/
theorem hashBytes_single (h : x.length = 64) : hashBytes hash x = compress hash x := by
  have hblock : hashBytes hash (x ++ []) = hashBytes (compress hash x) [] := hashBytes_block h
  rw [List.append_nil] at hblock
  rw [hblock, hashBytes_of_lt (x := []) (by decide)]

/-- **Whole blocks can be hashed first.** -/
theorem hashBytes_append : ∀ (n : ℕ) {hash : Words8} {x y : List UInt8}, x.length = 64 * n →
    hashBytes hash (x ++ y) = hashBytes (hashBytes hash x) y := by
  intro n
  induction n with
  | zero =>
    intro hash x y hx
    have hnil : x = [] := List.length_eq_zero_iff.1 hx
    subst hnil
    rw [List.nil_append, hashBytes_of_lt (x := []) (by decide)]
  | succ n ih =>
    intro hash x y hx
    have hsplit : x = x.take 64 ++ x.drop 64 := (List.take_append_drop 64 x).symm
    have htake : (x.take 64).length = 64 := by rw [List.length_take]; omega
    have hdrop : (x.drop 64).length = 64 * n := by rw [List.length_drop]; omega
    rw [hsplit, List.append_assoc, hashBytes_block htake, hashBytes_block htake, ih hdrop]

@[simp] theorem length_lengthBytes (l : ℕ) : (lengthBytes l).length = 8 := by
  simp [lengthBytes]

@[simp] theorem length_wordBytes (w : UInt32) : (wordBytes w).length = 4 := by
  simp [wordBytes]

@[simp] theorem Words8.length_bytes (v : Words8) : v.bytes.length = 32 := by
  simp [Words8.bytes]

/-- A digest is thirty-two bytes. -/
@[simp] theorem length_sha256 (m : List UInt8) : (sha256 m).length = 32 :=
  Words8.length_bytes _

/-! ## The keyed hash (RFC 2104) -/

/-- A key filled up with zeros to a block, after hashing if it is longer. -/
def keyBlock (key : List UInt8) : List UInt8 :=
  let k := if key.length ≤ 64 then key else sha256 key
  k ++ List.replicate (64 - k.length) 0

/-- **HMAC-SHA256** of a text. -/
def hmac (key text : List UInt8) : List UInt8 :=
  sha256 ((keyBlock key).map (· ^^^ 0x5c) ++ sha256 ((keyBlock key).map (· ^^^ 0x36) ++ text))

end Fips180

end HkSystem
