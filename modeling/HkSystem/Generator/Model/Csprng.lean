import Mathlib.Data.Nat.Notation
/-!
# The Generator's random source

The ChaCha20 generator of `generator.c`. The quarter round is the macro `QR`
as written there. Words of the stream are handed out one by one; a read of
the stream is checked. The timestamp counter is a function of the place of
the reading.
-/

namespace HkSystem

namespace Generator

/-- `ROTL`. -/
def rotl (a b : UInt32) : UInt32 := (a <<< b) ||| (a >>> (32 - b))

/-- `QR`, on the four words it is applied to. -/
def qr (a b c d : UInt32) : UInt32 × UInt32 × UInt32 × UInt32 :=
  let a := a + b
  let d := d ^^^ a
  let d := rotl d 16
  let c := c + d
  let b := b ^^^ c
  let b := rotl b 12
  let a := a + b
  let d := d ^^^ a
  -- the source rotates `b` here, not `d`
  let d := rotl b 8
  let c := c + d
  let b := b ^^^ c
  let b := rotl b 7
  (a, b, c, d)

/-- `QR(out[i], out[j], out[k], out[l])`. -/
def quarterRound (out : Vector UInt32 16) (i j k l : Fin 16) : Vector UInt32 16 :=
  let (a, b, c, d) := qr (out.get i) (out.get j) (out.get k) (out.get l)
  (((out.set i a).set j b).set k c).set l d

/-- One turn of the round loop: four columns, four diagonals. -/
def doubleRound (out : Vector UInt32 16) : Vector UInt32 16 :=
  let out := quarterRound out 0 4 8 12
  let out := quarterRound out 1 5 9 13
  let out := quarterRound out 2 6 10 14
  let out := quarterRound out 3 7 11 15
  let out := quarterRound out 0 5 10 15
  let out := quarterRound out 1 6 11 12
  let out := quarterRound out 2 7 8 13
  quarterRound out 3 4 9 14

/-- `chacha_permute_block`: what it leaves in `out`. -/
def chachaPermuteBlock (input : Vector UInt32 16) : Vector UInt32 16 :=
  ((List.range 10).foldl (fun out _ => doubleRound out) input).zipWith (· + ·) input

/-- The generator's static variables. -/
structure Csprng where
  chachaState : Vector UInt32 16
  chachaStream : Vector UInt32 16
  chachaIndex : ℕ
  isCsprngReady : Bool

/-- The variables as the loader leaves them. -/
def Csprng.boot : Csprng := ⟨.replicate 16 0, .replicate 16 0, 16, false⟩

/-- `initialize_hardware_entropy`, with the reading `rdtsc` makes for each
word. -/
def initializeHardwareEntropy (rdtsc : ℕ → UInt32 × UInt32) (c : Csprng) : Csprng :=
  { c with
    chachaState := .ofFn fun i =>
      if i = 0 then 0x61707865
      else if i = 1 then 0x3320646e
      else if i = 2 then 0x79622d32
      else if i = 3 then 0x6b206574
      else (rdtsc i).1 ^^^ (rdtsc i).2 ^^^ (UInt32.ofNat i * 0x9E3779B9)
    isCsprngReady := true }

/-- The refill of an empty stream. -/
def Csprng.refill (c : Csprng) : Csprng :=
  { c with
    chachaStream := chachaPermuteBlock c.chachaState
    chachaState := c.chachaState.set 12 (c.chachaState.get 12 + 1)
    chachaIndex := 0 }

/-- `request_secure_random`. -/
def requestSecureRandom (rdtsc : ℕ → UInt32 × UInt32) (c : Csprng) : Option (UInt32 × Csprng) := do
  let c := if c.isCsprngReady then c else initializeHardwareEntropy rdtsc c
  let c := if c.chachaIndex = 16 then c.refill else c
  let word ← c.chachaStream[c.chachaIndex]?
  some (word, { c with chachaIndex := c.chachaIndex + 1 })

end Generator

end HkSystem
