import HkSystem.System.Model.Dataports
/-!
# The polymorphic engine

`gen_api_request_generation` of `generator.c`. It draws from a random source
it is given, writes a variant byte by byte at a cursor into `guest_ram`,
copies it to `gen_buf` and has the Repository register it. Every store is
checked against the end of the region.
-/

namespace HkSystem

namespace Generator

variable {ρ : Type}

/-- `guest_ram` and the position of `cursor` in it. -/
structure Cursor where
  ram : Region 67108864
  pos : ℕ

/-- `*cursor++ = b`. -/
def Cursor.put (cursor : Cursor) (b : UInt8) : Option Cursor := do
  let ram ← cursor.ram.set? cursor.pos b
  some ⟨ram, cursor.pos + 1⟩

/-- `stream_emit_32`. -/
def streamEmit32 (cursor : Cursor) (val : UInt32) : Option Cursor :=
  (Words.bytesLE val).foldlM Cursor.put cursor

/-- The body of the junk loop, for the value drawn. -/
def emitJunk (cursor : Cursor) (r : UInt32) : Option Cursor :=
  if r = 0 then cursor.put 0x90
  else if r = 1 then cursor.put 0xFC
  else if r = 2 then cursor.put 0xF8
  else do
    let cursor ← cursor.put 0x87
    cursor.put 0xC9

/-- The junk loop, with the turns left. -/
def junkLoop (requestSecureRandom : ρ → Option (UInt32 × ρ)) :
    ℕ → ρ → Cursor → Option (ρ × Cursor)
  | 0, g, cursor => some (g, cursor)
  | turns + 1, g, cursor => do
    let (r, g) ← requestSecureRandom g
    let cursor ← emitJunk cursor (r % 4)
    junkLoop requestSecureRandom turns g cursor

/-- The masked payload: `XOR EAX, EAX; ADD EAX, mask; XOR EAX, obfuscated_val;
RET`. -/
def emitLogic (cursor : Cursor) (mask : UInt32) : Option Cursor := do
  let logicPayload : UInt32 := 0xDEADBEEF
  let obfuscatedVal := logicPayload ^^^ mask
  let cursor ← cursor.put 0x31
  let cursor ← cursor.put 0xC0
  let cursor ← cursor.put 0x05
  let cursor ← streamEmit32 cursor mask
  let cursor ← cursor.put 0x35
  let cursor ← streamEmit32 cursor obfuscatedVal
  cursor.put 0xC3

/-- `gen_api_request_generation` up to its call of the Repository: what it leaves in
`guest_ram` and `gen_buf`, and the size it registers. -/
def emitVariant (requestSecureRandom : ρ → Option (UInt32 × ρ)) (g : ρ)
    (guestRam : Region 67108864) (genBuf : Region 16777216) :
    Option (ρ × Region 67108864 × Region 16777216 × Int32) := do
  let (r, g) ← requestSecureRandom g
  let junkLen := 5 + r % 25
  let (g, cursor) ← junkLoop requestSecureRandom junkLen.toNat g ⟨guestRam, 0⟩
  let (mask, g) ← requestSecureRandom g
  let cursor ← emitLogic cursor mask
  let totalSize := cursor.pos
  let genBuf ← Region.memcpy genBuf cursor.ram totalSize
  some (g, cursor.ram, genBuf, Int32.ofNat totalSize)

/-- `gen_api_request_generation`. -/
def genApiRequestGeneration (requestSecureRandom : ρ → Option (UInt32 × ρ))
    (addVariant : Int32 → Int32 → Shared → Option Shared) (_baseAddr : UInt64)
    (variantId _complexity : Int32) (g : ρ) (shared : Shared) : Option (ρ × Shared) := do
  let (g, guestRam, genBuf, totalSize) ←
    emitVariant requestSecureRandom g shared.guestRam shared.genBuf
  let shared ← addVariant variantId totalSize { shared with guestRam := guestRam, genBuf := genBuf }
  some (g, shared)

end Generator

end HkSystem
