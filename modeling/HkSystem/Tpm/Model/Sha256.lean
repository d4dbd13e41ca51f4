import HkSystem.Common.Region
import HkSystem.Common.Fips180
/-!
# fTPM — the streaming SHA-256 of `tpm.c`

The context holds the block buffer, its fill, the bit count of the blocks
hashed so far and the chaining state. Every write into the buffer is
checked: one that would leave its 64 bytes has no result. The eight words
of `state[8]`, and the eight locals `a … h`, are a `Words8`; the local
`m[64]` is the list of the words assigned so far.
-/

namespace HkSystem

namespace Tpm

open Fips180 (Words8)

/-- The macro `ROTR`. -/
def rotr (x n : UInt32) : UInt32 := (x >>> n) ||| (x <<< (32 - n))

/-- The macro `CH`. -/
def ch (x y z : UInt32) : UInt32 := (x &&& y) ^^^ (~~~x &&& z)

/-- The macro `MAJ`. -/
def maj (x y z : UInt32) : UInt32 := (x &&& y) ^^^ (x &&& z) ^^^ (y &&& z)

/-- The macro `EP0`. -/
def ep0 (x : UInt32) : UInt32 := rotr x 2 ^^^ rotr x 13 ^^^ rotr x 22

/-- The macro `EP1`. -/
def ep1 (x : UInt32) : UInt32 := rotr x 6 ^^^ rotr x 11 ^^^ rotr x 25

/-- The macro `SIG0`. -/
def sig0 (x : UInt32) : UInt32 := rotr x 7 ^^^ rotr x 18 ^^^ (x >>> 3)

/-- The macro `SIG1`. -/
def sig1 (x : UInt32) : UInt32 := rotr x 17 ^^^ rotr x 19 ^^^ (x >>> 10)

/-- The table `sha256_k`. -/
def sha256K : List UInt32 :=
  [0x428a2f98, 0x71374491, 0xb5c0fbcf, 0xe9b5dba5, 0x3956c25b, 0x59f111f1, 0x923f82a4, 0xab1c5ed5,
    0xd807aa98, 0x12835b01, 0x243185be, 0x550c7dc3, 0x72be5d74, 0x80deb1fe, 0x9bdc06a7, 0xc19bf174,
    0xe49b69c1, 0xefbe4786, 0x0fc19dc6, 0x240ca1cc, 0x2de92c6f, 0x4a7484aa, 0x5cb0a9dc, 0x76f988da,
    0x983e5152, 0xa831c66d, 0xb00327c8, 0xbf597fc7, 0xc6e00bf3, 0xd5a79147, 0x06ca6351, 0x14292967,
    0x27b70a85, 0x2e1b2138, 0x4d2c6dfc, 0x53380d13, 0x650a7354, 0x766a0abb, 0x81c2c92e, 0x92722c85,
    0xa2bfe8a1, 0xa81a664b, 0xc24b8b70, 0xc76c51a3, 0xd192e819, 0xd6990624, 0xf40e3585, 0x106aa070,
    0x19a4c116, 0x1e376c08, 0x2748774c, 0x34b0bcb5, 0x391c0cb3, 0x4ed8aa4a, 0x5b9cca4f, 0x682e6ff3,
    0x748f82ee, 0x78a5636f, 0x84c87814, 0x8cc70208, 0x90befffa, 0xa4506ceb, 0xbef9a3f7, 0xc67178f2]

/-- `SHA256_CTX`. -/
structure Sha256Ctx where
  data : Region 64
  datalen : UInt32
  bitlen : UInt64
  state : Words8

/-- The byte at `data[j]`, for the reads of a block, which stay below 64. -/
def blockByte (data : Region 64) (j : ℕ) : UInt32 := ((data.get? j).getD 0).toUInt32

/-- The first loop of `sha256_transform`: the sixteen words of the block. -/
def loadWords (data : Region 64) : List UInt32 :=
  (List.range 16).map fun i =>
    (blockByte data (4 * i) <<< 24) ||| (blockByte data (4 * i + 1) <<< 16) |||
      (blockByte data (4 * i + 2) <<< 8) ||| blockByte data (4 * i + 3)

/-- The second loop: the other forty-eight words of the schedule. -/
def extendWords (m : List UInt32) : List UInt32 :=
  (List.range' 16 48).foldl (fun m i =>
    m ++ [sig1 (m.getD (i - 2) 0) + m.getD (i - 7) 0 + sig0 (m.getD (i - 15) 0) +
      m.getD (i - 16) 0]) m

/-- The body of the round loop. -/
def roundBody (m : List UInt32) (v : Words8) (i : ℕ) : Words8 :=
  let t1 := v.h + ep1 v.e + ch v.e v.f v.g + sha256K.getD i 0 + m.getD i 0
  let t2 := ep0 v.a + maj v.a v.b v.c
  ⟨t1 + t2, v.a, v.b, v.c, v.d + t1, v.e, v.f, v.g⟩

/-- `sha256_transform`. -/
def sha256Transform (ctx : Sha256Ctx) (data : Region 64) : Sha256Ctx :=
  let m := extendWords (loadWords data)
  let v := (List.range 64).foldl (roundBody m) ctx.state
  let s := ctx.state
  { ctx with
    state := ⟨s.a + v.a, s.b + v.b, s.c + v.c, s.d + v.d, s.e + v.e, s.f + v.f, s.g + v.g,
      s.h + v.h⟩ }

/-- `sha256_init`, which leaves the buffer as it was. -/
def sha256Init (ctx : Sha256Ctx) : Sha256Ctx :=
  { ctx with
    datalen := 0
    bitlen := 0
    state := ⟨0x6a09e667, 0xbb67ae85, 0x3c6ef372, 0xa54ff53a, 0x510e527f, 0x9b05688c, 0x1f83d9ab,
      0x5be0cd19⟩ }

/-- One turn of the loop of `sha256_update`. -/
def updateByte (ctx : Sha256Ctx) (b : UInt8) : Option Sha256Ctx := do
  let data ← ctx.data.set? ctx.datalen.toNat b
  let ctx := { ctx with data := data, datalen := ctx.datalen + 1 }
  if ctx.datalen = 64 then
    let ctx := sha256Transform ctx ctx.data
    some { ctx with bitlen := ctx.bitlen + 512, datalen := 0 }
  else some ctx

/-- `sha256_update`. -/
def sha256Update (ctx : Sha256Ctx) (data : List UInt8) : Option Sha256Ctx :=
  data.foldlM updateByte ctx

/-- The eight stores of the bit count into `data[56 … 63]`. -/
def storeBitlen (data : Region 64) (bitlen : UInt64) : Option (Region 64) := do
  let data ← data.set? 63 bitlen.toUInt8
  let data ← data.set? 62 (bitlen >>> 8).toUInt8
  let data ← data.set? 61 (bitlen >>> 16).toUInt8
  let data ← data.set? 60 (bitlen >>> 24).toUInt8
  let data ← data.set? 59 (bitlen >>> 32).toUInt8
  let data ← data.set? 58 (bitlen >>> 40).toUInt8
  let data ← data.set? 57 (bitlen >>> 48).toUInt8
  data.set? 56 (bitlen >>> 56).toUInt8

/-- The four bytes the output loop takes from one word of the state. -/
def stateBytes (w : UInt32) : List UInt8 :=
  [((w >>> 24) &&& 0xff).toUInt8, ((w >>> 16) &&& 0xff).toUInt8, ((w >>> 8) &&& 0xff).toUInt8,
    ((w >>> 0) &&& 0xff).toUInt8]

/-- The first half of `sha256_final`: the end of the message and the zeros
up to the length, over one block or two. -/
def padTail (ctx : Sha256Ctx) : Option Sha256Ctx := do
  let i := ctx.datalen
  let data ← ctx.data.set? i.toNat 0x80
  let i := i + 1
  if ctx.datalen < 56 then
    let data ← data.fill? i.toNat (56 - i).toNat 0
    some { ctx with data := data }
  else
    let data ← data.fill? i.toNat (64 - i).toNat 0
    let ctx := sha256Transform { ctx with data := data } data
    let data ← ctx.data.fill? 0 56 0
    some { ctx with data := data }

/-- The second half: the length, the last block and the output loop. -/
def outputHash (ctx : Sha256Ctx) : Option (Sha256Ctx × List UInt8) := do
  let bitlen := ctx.bitlen + (ctx.datalen * 8).toUInt64
  let data ← storeBitlen ctx.data bitlen
  let ctx := sha256Transform { ctx with data := data, bitlen := bitlen } data
  let s := ctx.state
  some (ctx, stateBytes s.a ++ stateBytes s.b ++ stateBytes s.c ++ stateBytes s.d ++
    stateBytes s.e ++ stateBytes s.f ++ stateBytes s.g ++ stateBytes s.h)

/-- `sha256_final`: the context it leaves and the digest written to
`hash[32]`. -/
def sha256Final (ctx : Sha256Ctx) : Option (Sha256Ctx × List UInt8) := do
  let ctx ← padTail ctx
  outputHash ctx

/-- `sha256_init`, a `sha256_update` for each chunk, then `sha256_final`. -/
def sha256Stream (ctx : Sha256Ctx) (chunks : List (List UInt8)) :
    Option (Sha256Ctx × List UInt8) := do
  let ctx ← chunks.foldlM sha256Update (sha256Init ctx)
  sha256Final ctx

end Tpm

end HkSystem
