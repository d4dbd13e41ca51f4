import HkSystem.Generator.Model.Engine
/-!
# Variants

What the engine produces, apart from how: a `Draw` is the sequence of junk
instructions chosen and the mask, and `Draw.encode` its byte string. The
engine draws, puts the encoding over the front of `guest_ram` and of
`gen_buf`, and registers it under its length (`genApiRequestGeneration_eq`);
nothing else of either region changes, and no store leaves it.
-/

namespace HkSystem

namespace Generator

variable {ρ : Type} {next : ρ → Option (UInt32 × ρ)} {ram : Region 67108864} {bytes : List UInt8}

/-- The junk instructions. -/
inductive Junk where
  | nop
  | cld
  | clc
  /-- `XCHG ECX, ECX`. -/
  | xchg
  deriving DecidableEq

/-- The instruction chosen by a draw modulo four. -/
def Junk.ofDraw (r : UInt32) : Junk :=
  if r % 4 = 0 then .nop else if r % 4 = 1 then .cld else if r % 4 = 2 then .clc else .xchg

/-- Its bytes. -/
def Junk.encode : Junk → List UInt8
  | .nop => [0x90]
  | .cld => [0xFC]
  | .clc => [0xF8]
  | .xchg => [0x87, 0xC9]

/-- The choices behind one variant. -/
structure Draw where
  junk : List Junk
  mask : UInt32
  deriving DecidableEq

/-- The masked payload. -/
def encodeLogic (mask : UInt32) : List UInt8 :=
  [0x31, 0xC0, 0x05] ++ Words.bytesLE mask ++ [0x35] ++ Words.bytesLE (0xDEADBEEF ^^^ mask) ++ [0xC3]

/-- **The byte string of a variant.** -/
def Draw.encode (d : Draw) : List UInt8 := d.junk.flatMap Junk.encode ++ encodeLogic d.mask

/-- So many junk instructions drawn from the source. -/
def drawJunk (next : ρ → Option (UInt32 × ρ)) : ℕ → ρ → Option (List Junk × ρ)
  | 0, g => some ([], g)
  | turns + 1, g => do
    let (r, g) ← next g
    let (junk, g) ← drawJunk next turns g
    some (Junk.ofDraw r :: junk, g)

/-- A variant drawn from the source. -/
def draw (next : ρ → Option (UInt32 × ρ)) (g : ρ) : Option (Draw × ρ) := do
  let (r, g) ← next g
  let (junk, g) ← drawJunk next (5 + r % 25).toNat g
  let (mask, g) ← next g
  some (⟨junk, mask⟩, g)

/-! ## Sizes -/

@[simp] theorem length_encodeLogic (mask : UInt32) : (encodeLogic mask).length = 13 := by
  simp [encodeLogic]

theorem Junk.length_encode (j : Junk) : 1 ≤ j.encode.length ∧ j.encode.length ≤ 2 := by
  cases j <;> decide

theorem length_junk (junk : List Junk) :
    junk.length ≤ (junk.flatMap Junk.encode).length ∧
      (junk.flatMap Junk.encode).length ≤ 2 * junk.length := by
  induction junk with
  | nil => simp
  | cons j junk ih =>
    have := j.length_encode
    rw [List.flatMap_cons, List.length_append, List.length_cons]
    omega

/-- As many are drawn as were asked for. -/
theorem length_drawJunk : ∀ {turns : ℕ} {g g' : ρ} {junk : List Junk},
    drawJunk next turns g = some (junk, g') → junk.length = turns := by
  intro turns
  induction turns with
  | zero =>
    intro g g' junk h
    cases h
    rfl
  | succ turns ih =>
    intro g g' junk h
    simp only [drawJunk, Option.bind_eq_bind, Option.bind_eq_some_iff] at h
    obtain ⟨⟨r, g₁⟩, -, ⟨rest, g₂⟩, hrest, heq⟩ := h
    cases heq
    rw [List.length_cons, ih hrest]

/-- The number of junk instructions, as the source computes it. -/
theorem toNat_junkLen (r : UInt32) : (5 + r % 25).toNat = 5 + r.toNat % 25 := by
  have := Nat.mod_lt r.toNat (show 0 < 25 by omega)
  rw [UInt32.toNat_add, UInt32.toNat_mod]
  change (5 + r.toNat % 25) % 2 ^ 32 = 5 + r.toNat % 25
  omega

/-- The first draw decides how many there are. -/
theorem draw_junk_length_eq {g g' : ρ} {d : Draw} (h : draw next g = some (d, g')) :
    ∃ r g₁, next g = some (r, g₁) ∧ d.junk.length = 5 + r.toNat % 25 := by
  simp only [draw, Option.bind_eq_bind, Option.bind_eq_some_iff] at h
  obtain ⟨⟨r, g₁⟩, hr, ⟨junk, g₂⟩, hjunk, ⟨mask, g₃⟩, -, heq⟩ := h
  cases heq
  exact ⟨r, g₁, hr, by rw [length_drawJunk hjunk, toNat_junkLen]⟩

/-- Between five and twenty-nine junk instructions. -/
theorem draw_junk_length {g g' : ρ} {d : Draw} (h : draw next g = some (d, g')) :
    5 ≤ d.junk.length ∧ d.junk.length ≤ 29 := by
  obtain ⟨r, g₁, -, hlen⟩ := draw_junk_length_eq h
  have := Nat.mod_lt r.toNat (show 0 < 25 by omega)
  omega

/-- **A variant is between 18 and 71 bytes long.** -/
theorem draw_length {g g' : ρ} {d : Draw} (h : draw next g = some (d, g')) :
    18 ≤ d.encode.length ∧ d.encode.length ≤ 71 := by
  have hjunk := draw_junk_length h
  have := length_junk d.junk
  rw [Draw.encode, List.length_append, length_encodeLogic]
  omega

/-! ## A source that always answers -/

section Serves

variable {Ok : ρ → Prop} (hserve : ∀ g, Ok g → ∃ r g', next g = some (r, g') ∧ Ok g')

include hserve

theorem drawJunk_isSome : ∀ (turns : ℕ) {g : ρ}, Ok g →
    ∃ junk g', drawJunk next turns g = some (junk, g') ∧ Ok g' := by
  intro turns
  induction turns with
  | zero => intro g hg; exact ⟨[], g, rfl, hg⟩
  | succ turns ih =>
    intro g hg
    obtain ⟨r, g₁, hnext, hg₁⟩ := hserve g hg
    obtain ⟨junk, g₂, hjunk, hg₂⟩ := ih hg₁
    exact ⟨Junk.ofDraw r :: junk, g₂, by simp [drawJunk, hnext, hjunk], hg₂⟩

/-- A source that always answers always yields a variant. -/
theorem draw_isSome {g : ρ} (hg : Ok g) : ∃ d g', draw next g = some (d, g') ∧ Ok g' := by
  obtain ⟨r, g₁, hr, hg₁⟩ := hserve g hg
  obtain ⟨junk, g₂, hjunk, hg₂⟩ := drawJunk_isSome hserve (5 + r % 25).toNat hg₁
  obtain ⟨mask, g₃, hmask, hg₃⟩ := hserve g₂ hg₂
  refine ⟨⟨junk, mask⟩, g₃, ?_, hg₃⟩
  simp only [draw, hr, Option.bind_eq_bind, Option.bind_some, hjunk, hmask]

end Serves

/-! ## The engine writes what it draws -/

/-- The cursor behind a byte string put over the front of `guest_ram`. -/
def Cursor.after (ram : Region 67108864) (bytes : List UInt8) : Cursor :=
  ⟨ram.overwrite bytes, bytes.length⟩

theorem put_after {b : UInt8} (h : bytes.length < 67108864) :
    (Cursor.after ram bytes).put b = some (Cursor.after ram (bytes ++ [b])) := by
  simp only [Cursor.put, Cursor.after, Region.set?_overwrite h, Option.bind_eq_bind,
    Option.bind_some, List.length_append, List.length_singleton]

/-- Putting a byte string. -/
theorem puts_after : ∀ {more bytes : List UInt8}, bytes.length + more.length ≤ 67108864 →
    more.foldlM Cursor.put (Cursor.after ram bytes) = some (Cursor.after ram (bytes ++ more)) := by
  intro more
  induction more with
  | nil =>
    intro bytes _
    rw [List.append_nil]
    rfl
  | cons b more ih =>
    intro bytes h
    rw [List.length_cons] at h
    rw [List.foldlM_cons, put_after (by omega), Option.bind_eq_bind, Option.bind_some,
      ih (by rw [List.length_append, List.length_singleton]; omega), List.append_assoc,
      List.singleton_append]

theorem emitJunk_after {r : UInt32} (h : bytes.length + 2 ≤ 67108864) :
    emitJunk (Cursor.after ram bytes) (r % 4) =
      some (Cursor.after ram (bytes ++ (Junk.ofDraw r).encode)) := by
  have hfit : (bytes ++ [(0x87 : UInt8)]).length < 67108864 := by
    rw [List.length_append, List.length_singleton]
    omega
  unfold emitJunk Junk.ofDraw
  split
  · exact put_after (by omega)
  · split
    · exact put_after (by omega)
    · split
      · exact put_after (by omega)
      · rw [put_after (by omega), Option.bind_eq_bind, Option.bind_some, put_after hfit,
          List.append_assoc]
        rfl

/-- The junk loop draws and writes the same instructions. -/
theorem junkLoop_after : ∀ {turns : ℕ} {g : ρ} {bytes : List UInt8},
    bytes.length + 2 * turns ≤ 67108864 →
      junkLoop next turns g (Cursor.after ram bytes) =
        (drawJunk next turns g).map fun p =>
          (p.2, Cursor.after ram (bytes ++ p.1.flatMap Junk.encode)) := by
  intro turns
  induction turns with
  | zero =>
    intro g bytes _
    simp [junkLoop, drawJunk]
  | succ turns ih =>
    intro g bytes h
    rcases hnext : next g with _ | ⟨r, g₁⟩
    · simp [junkLoop, drawJunk, hnext]
    · have hjunk := (Junk.ofDraw r).length_encode
      have hrest : junkLoop next turns g₁ (Cursor.after ram (bytes ++ (Junk.ofDraw r).encode)) = _ :=
        ih (by rw [List.length_append]; omega)
      simp only [junkLoop, drawJunk, hnext, Option.bind_eq_bind, Option.bind_some,
        emitJunk_after (show bytes.length + 2 ≤ 67108864 by omega), hrest]
      rcases drawJunk next turns g₁ with _ | ⟨junk, g₂⟩
      · rfl
      · simp [List.append_assoc]

/-- The payload is a byte string too. -/
theorem emitLogic_eq (cursor : Cursor) (mask : UInt32) :
    emitLogic cursor mask = (encodeLogic mask).foldlM Cursor.put cursor := by
  simp [emitLogic, streamEmit32, encodeLogic, List.foldlM_append, List.foldlM_cons,
    List.foldlM_nil]

/-- **The engine, as a draw and its encoding**, up to its call of the Repository. -/
theorem emitVariant_eq (next : ρ → Option (UInt32 × ρ)) (g : ρ) (guestRam : Region 67108864)
    (genBuf : Region 16777216) :
    emitVariant next g guestRam genBuf = (draw next g).map fun p =>
      (p.2, guestRam.overwrite p.1.encode, genBuf.overwrite p.1.encode,
        Int32.ofNat p.1.encode.length) := by
  -- the source may fail at each of its three uses; a failure ends both sides
  have hstart : (⟨guestRam, 0⟩ : Cursor) = Cursor.after guestRam [] := rfl
  rcases hr : next g with _ | ⟨r, g₁⟩
  · simp [emitVariant, draw, hr]
  have hturns : (5 + r % 25).toNat ≤ 29 := by
    have := Nat.mod_lt r.toNat (show 0 < 25 by omega)
    rw [toNat_junkLen]
    omega
  have hloop : junkLoop next (5 + r % 25).toNat g₁ ⟨guestRam, 0⟩ = _ :=
    hstart ▸ junkLoop_after (by simp; omega)
  rcases hjunk : drawJunk next (5 + r % 25).toNat g₁ with _ | ⟨junk, g₂⟩
  · simp only [emitVariant, draw, hr, hloop, hjunk, Option.bind_eq_bind, Option.bind_some,
      Option.map_none, Option.bind_none]
  rcases hmask : next g₂ with _ | ⟨mask, g₃⟩
  · simp only [emitVariant, draw, hr, hloop, hjunk, hmask, Option.bind_eq_bind, Option.bind_some,
      Option.map_some, Option.bind_none, Option.map_none]
  have hlen := length_drawJunk hjunk
  have hsize := length_junk junk
  -- a variant is short, so neither the stores nor the copy leave the buffers
  have hlogic : emitLogic (Cursor.after guestRam (junk.flatMap Junk.encode)) mask =
      some (Cursor.after guestRam (Draw.mk junk mask).encode) := by
    rw [emitLogic_eq, puts_after (by rw [length_encodeLogic]; omega)]
    rfl
  have hcopy : Region.memcpy genBuf
      (guestRam.overwrite (Draw.mk junk mask).encode) (Draw.mk junk mask).encode.length =
        some (genBuf.overwrite (Draw.mk junk mask).encode) := by
    have hfit : (Draw.mk junk mask).encode.length ≤ 71 := by
      rw [Draw.encode, List.length_append, length_encodeLogic]
      change (junk.flatMap Junk.encode).length + 13 ≤ 71
      omega
    exact Region.memcpy_overwrite (by omega) (by omega)
  simp only [emitVariant, draw, hr, hloop, hjunk, hmask, Option.bind_eq_bind, Option.bind_some,
    Option.map_some, List.nil_append, hlogic]
  simp only [Cursor.after, hcopy, Option.bind_some]

/-- **And with it**: the variant drawn is put over the front of both buffers and
registered under its length. -/
theorem genApiRequestGeneration_eq (next : ρ → Option (UInt32 × ρ))
    (addVariant : Int32 → Int32 → Shared → Option Shared) (baseAddr : UInt64)
    (variantId complexity : Int32) (g : ρ) (shared : Shared) :
    genApiRequestGeneration next addVariant baseAddr variantId complexity g shared =
      (draw next g).bind fun p =>
        (addVariant variantId (Int32.ofNat p.1.encode.length)
          (shared.withPayload p.1.encode)).map fun shared' => (p.2, shared') := by
  rw [genApiRequestGeneration, emitVariant_eq]
  rcases draw next g with _ | p
  · rfl
  · simp only [Option.bind_eq_bind, Option.bind_some, Option.map_eq_bind]
    rfl

end Generator

end HkSystem
