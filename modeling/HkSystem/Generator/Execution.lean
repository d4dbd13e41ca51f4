import HkSystem.Common.X86
import HkSystem.Generator.Variant
/-!
# What a variant computes

A variant is a block of instructions and a `RET`. The junk touches flags and
the count register only; the three instructions after it clear the
accumulator, add the mask and take it off again. Whatever registers, flags
and memory it is entered with, it returns `0xDEADBEEF` to its caller.
-/

namespace HkSystem

namespace Generator

open X86 (Instr Assembles CodeAt Cpu)

variable {c : Cpu} {d : Draw}

/-- The instruction a junk encoding stands for. -/
def Junk.instr : Junk → Instr
  | .nop => .nop
  | .cld => .cld
  | .clc => .clc
  | .xchg => .xchg .rcx .rcx

/-- The masked payload, without its `RET`. -/
def logicBlock (mask : UInt32) : List Instr :=
  [.xor .rax .rax, .addEax mask, .xorEax (0xDEADBEEF ^^^ mask)]

/-- A variant, without its `RET`. -/
def Draw.block (d : Draw) : List Instr := d.junk.map Junk.instr ++ logicBlock d.mask

theorem assembles_junk (junk : List Junk) {block : List Instr} {bytes : List UInt8}
    (h : Assembles block bytes) :
    Assembles (junk.map Junk.instr ++ block) (junk.flatMap Junk.encode ++ bytes) := by
  induction junk with
  | nil => exact h
  | cons j junk ih =>
    rw [List.flatMap_cons, List.append_assoc]
    refine Assembles.cons ?_ ih
    cases j <;> rfl

/-- **A variant is its block, assembled, and a `RET`.** -/
theorem assembles_draw (d : Draw) :
    ∃ bytes, Assembles d.block bytes ∧ d.encode = bytes ++ [0xC3] := by
  have hlogic : Assembles (logicBlock d.mask) ([0x31, 0xC0] ++ ((0x05 :: Words.bytesLE d.mask) ++
      ((0x35 :: Words.bytesLE (0xDEADBEEF ^^^ d.mask)) ++ []))) :=
    .cons rfl (.cons rfl (.cons rfl .nil))
  refine ⟨_, assembles_junk d.junk hlogic, ?_⟩
  simp [Draw.encode, encodeLogic]

/-- No instruction of the block returns, and each writes `RAX`, `RCX` or no
register. -/
theorem block_writes {instr : Instr} (h : instr ∈ d.block) :
    instr ≠ .ret ∧ ∀ r ∈ instr.writes, r = .rax ∨ r = .rcx := by
  rcases List.mem_append.1 h with hjunk | hlogic
  · obtain ⟨j, -, rfl⟩ := List.mem_map.1 hjunk
    cases j <;> simp [Junk.instr, Instr.writes]
  · simp only [logicBlock, List.mem_cons, List.not_mem_nil, or_false] at hlogic
    rcases hlogic with rfl | rfl | rfl <;> simp [Instr.writes]

/-- Adding the mask to zero and taking it off again. -/
theorem nexts_logic (c : Cpu) (mask : UInt32) :
    (c.nexts (logicBlock mask)).reg32 .rax = 0xDEADBEEF := by
  have hmask : mask ^^^ (0xDEADBEEF ^^^ mask) = 0xDEADBEEF := by
    rw [UInt32.xor_comm 0xDEADBEEF, ← UInt32.xor_assoc, UInt32.xor_self, UInt32.zero_xor]
  simp [logicBlock, Cpu.nexts, Cpu.next, Cpu.exec, Cpu.xor32, Cpu.add32, Cpu.setReg32, Cpu.reg32,
    hmask]

/-- The junk before it makes no difference. -/
theorem nexts_block (c : Cpu) (d : Draw) : (c.nexts d.block).reg32 .rax = 0xDEADBEEF := by
  rw [Draw.block, Cpu.nexts, List.foldl_append]
  exact nexts_logic (c.nexts (d.junk.map Junk.instr)) d.mask

/-- What the block does not write is as the caller had it; the stack pointer is
among that. -/
theorem block_keeps {r : X86.Reg} (hax : r ≠ .rax) (hcx : r ≠ .rcx) :
    ∀ instr ∈ d.block, r ∉ instr.writes := by
  intro instr hinstr hmem
  rcases (block_writes hinstr).2 r hmem with rfl | rfl
  · exact hax rfl
  · exact hcx rfl

/-- **Every variant returns `0xDEADBEEF`**, to the address on top of the stack,
with the stack popped, memory untouched, and no register changed but `RAX`
and `RCX`. -/
theorem call_variant (d : Draw) (hcode : CodeAt c d.encode) {fuel : ℕ}
    (hfuel : d.junk.length + 4 ≤ fuel) :
    ∃ c', c.call fuel = some c' ∧ c'.reg32 .rax = 0xDEADBEEF ∧
      c'.rip = c.load64 (c.reg .rsp) ∧ c'.reg .rsp = c.reg .rsp + 8 ∧ c'.mem = c.mem ∧
      ∀ r, r ≠ .rax → r ≠ .rcx → r ≠ .rsp → c'.reg r = c.reg r := by
  obtain ⟨bytes, hasm, henc⟩ := assembles_draw d
  rw [henc] at hcode
  have hrsp : ∀ instr ∈ d.block, .rsp ∉ instr.writes := block_keeps (by decide) (by decide)
  have hlen : d.block.length = d.junk.length + 3 := by simp [Draw.block, logicBlock]
  obtain ⟨c', hcall, hrip, hsp, hmem, hregs⟩ := X86.call_block hasm hcode
    (fun i hi => ⟨(block_writes hi).1, hrsp i hi⟩) (show d.block.length + 1 ≤ fuel by omega)
  refine ⟨c', hcall, ?_, hrip, hsp, hmem, fun r hax hcx hne => ?_⟩
  · rw [Cpu.reg32, hregs .rax (by decide)]
    exact nexts_block c d
  · rw [hregs r hne, X86.nexts_reg c (block_keeps hax hcx)]

/-! ## From the draws to the `RET` -/

/-- A source that answers from a sequence. -/
def ofSequence (draws : ℕ → UInt32) (k : ℕ) : Option (UInt32 × ℕ) := some (draws k, k + 1)

/-- The choices a call makes of a sequence, from its `k`-th word on: the number
of junk instructions, each of them, and the mask. -/
def choices (draws : ℕ → UInt32) (k : ℕ) : Draw where
  junk := (List.range (5 + (draws k).toNat % 25)).map fun i => Junk.ofDraw (draws (k + 1 + i))
  mask := draws (k + 1 + (5 + (draws k).toNat % 25))

theorem drawJunk_ofSequence (draws : ℕ → UInt32) (turns k : ℕ) :
    drawJunk (ofSequence draws) turns k =
      some ((List.range turns).map fun i => Junk.ofDraw (draws (k + i)), k + turns) := by
  induction turns generalizing k with
  | zero => rfl
  | succ turns ih =>
    have hshift : (List.range turns).map (fun i => Junk.ofDraw (draws (k + 1 + i))) =
        (List.range turns).map ((fun i => Junk.ofDraw (draws (k + i))) ∘ Nat.succ) := by
      refine List.map_congr_left fun i _ => ?_
      rw [Function.comp_apply, Nat.succ_eq_add_one, Nat.add_right_comm, Nat.add_assoc]
    rw [List.range_succ_eq_map, List.map_cons, List.map_map, ← hshift]
    simp only [drawJunk, ofSequence, Option.bind_eq_bind, Option.bind_some, ih, Nat.add_zero]
    rw [Nat.add_right_comm, Nat.add_assoc]

/-- A call draws its choices. -/
theorem draw_choices (draws : ℕ → UInt32) (k : ℕ) :
    draw (ofSequence draws) k =
      some (choices draws k, k + 1 + (5 + (draws k).toNat % 25) + 1) := by
  have hr : ofSequence draws k = some (draws k, k + 1) := rfl
  have hmask (k : ℕ) : ofSequence draws k = some (draws k, k + 1) := rfl
  simp only [draw, hr, Option.bind_eq_bind, Option.bind_some, drawJunk_ofSequence, toNat_junkLen,
    hmask, choices]

theorem length_choices (draws : ℕ → UInt32) (k : ℕ) :
    18 ≤ (choices draws k).encode.length ∧ (choices draws k).encode.length ≤ 71 :=
  draw_length (draw_choices draws k)

/-- What a call leaves in both buffers and registers is the encoding of its
choices. -/
theorem engine_choices (draws : ℕ → UInt32) (k : ℕ)
    (addVariant : Int32 → Int32 → Shared → Option Shared) (baseAddr : UInt64)
    (variantId complexity : Int32) (shared : Shared) :
    genApiRequestGeneration (ofSequence draws) addVariant baseAddr variantId complexity k shared =
      (addVariant variantId (Int32.ofNat (choices draws k).encode.length)
        (shared.withPayload (choices draws k).encode)).map
        (fun registered => (k + 1 + (5 + (draws k).toNat % 25) + 1, registered)) := by
  rw [genApiRequestGeneration_eq, draw_choices, Option.bind_some]

/-- The machine has run a variant of so many bytes up to its `RET`. -/
structure ReachesRet (c : Cpu) (junkLen totalSize : ℕ) (c' : Cpu) : Prop where
  /-- It has executed the junk, and the masked payload behind it. -/
  trace : ∃ (junk : List Junk) (mask : UInt32), junk.length = junkLen ∧
    c.trace (junkLen + 3) = some (junk.map Junk.instr ++ logicBlock mask, c')
  /-- The last byte is a `RET`, and it is next. -/
  rip : c'.rip = c.rip + UInt64.ofNat (totalSize - 1)
  ret : X86.decode (fun k => c'.mem (c'.rip + UInt64.ofNat k)) = some .ret
  eax : c'.reg32 .rax = 0xDEADBEEF
  /-- The stack pointer and what a callee saves are among the others. -/
  kept : ∀ r, r ≠ .rax → r ≠ .rcx → c'.reg r = c.reg r
  mem : c'.mem = c.mem

theorem reachesRet_draw (d : Draw) (hcode : CodeAt c d.encode) :
    ReachesRet c d.junk.length d.encode.length (c.nexts d.block) := by
  obtain ⟨bytes, hasm, henc⟩ := assembles_draw d
  rw [henc] at hcode
  obtain ⟨htrace, hrip, hret⟩ := X86.trace_block hasm hcode fun i hi => (block_writes hi).1
  have hlen : d.block.length = d.junk.length + 3 := by simp [Draw.block, logicBlock]
  refine ⟨⟨d.junk, d.mask, rfl, ?_⟩, ?_, X86.decode_assemble rfl hret, nexts_block c d,
    fun r hax hcx => X86.nexts_reg c (block_keeps hax hcx), X86.nexts_mem _ c⟩
  · rw [← hlen]
    exact htrace
  · rw [hrip, henc, List.length_append, List.length_singleton, Nat.add_sub_cancel]

/-- **Every emitted variant computes the payload.** Whatever is drawn and whatever
memory held, the engine leaves the same bytes in `guest_ram` and in `gen_buf`
and registers their number; entered with any registers and flags, wherever
they are mapped, they execute as the junk drawn and the masked payload, and
come to the `RET` with `0xDEADBEEF` in `EAX`, the stack pointer and what a
callee saves as they were, and memory untouched. -/
theorem emitted_variant_computes (draws : ℕ → UInt32)
    (addVariant : Int32 → Int32 → Shared → Option Shared) (baseAddr : UInt64)
    (variantId complexity : Int32) (shared : Shared) :
    ∃ totalSize written drawn,
      genApiRequestGeneration (ofSequence draws) addVariant baseAddr variantId complexity 0 shared =
          (addVariant variantId (Int32.ofNat totalSize) written).map
            (fun registered => (drawn, registered)) ∧
        18 ≤ totalSize ∧ totalSize ≤ 71 ∧
        written.genBuf.first totalSize = written.guestRam.first totalSize ∧
        ∀ c : Cpu, CodeAt c (written.guestRam.first totalSize) →
          ∃ c', ReachesRet c (5 + (draws 0).toNat % 25) totalSize c' := by
  obtain ⟨hmin, hmax⟩ := length_choices draws 0
  obtain ⟨hram, hbuf⟩ := shared.first_withPayload (hmax.trans (by decide))
  have hjunk : (choices draws 0).junk.length = 5 + (draws 0).toNat % 25 := by simp [choices]
  refine ⟨_, _, _, engine_choices draws 0 addVariant baseAddr variantId complexity shared, hmin,
    hmax, hbuf.trans hram.symm, fun c hcode => ⟨c.nexts (choices draws 0).block, ?_⟩⟩
  rw [hram] at hcode
  rw [← hjunk]
  exact reachesRet_draw (choices draws 0) hcode

end Generator

end HkSystem
