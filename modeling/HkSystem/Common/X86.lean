import HkSystem.Common.Words
import Mathlib.Logic.Function.Basic
/-!
# A fragment of x86-64

Registers, the flags, a flat memory, and the instructions of a small
fragment, decoded from the bytes at the instruction pointer. A 32-bit write
clears the upper half of its register. The adjust flag is left out: the
logical instructions leave it undefined and nothing here reads it. Bytes
outside the fragment do not decode, so a run never guesses.

`call` runs the function the machine has just entered until it has returned
to the address on top of the stack, with the stack popped.
-/

namespace HkSystem

namespace X86

inductive Reg where
  | rax | rcx | rdx | rbx | rsp | rbp | rsi | rdi
  | r8 | r9 | r10 | r11 | r12 | r13 | r14 | r15
  deriving DecidableEq

/-- The register a three-bit field names without a `REX` byte. -/
def Reg.ofField (field : UInt8) : Reg :=
  if field = 0 then .rax
  else if field = 1 then .rcx
  else if field = 2 then .rdx
  else if field = 3 then .rbx
  else if field = 4 then .rsp
  else if field = 5 then .rbp
  else if field = 6 then .rsi
  else .rdi

structure Flags where
  cf : Bool
  pf : Bool
  zf : Bool
  sf : Bool
  of : Bool
  df : Bool

structure Cpu where
  rip : UInt64
  reg : Reg → UInt64
  flags : Flags
  mem : UInt64 → UInt8

/-! ## Instructions -/

inductive Instr where
  | nop
  | cld
  | clc
  | xchg (rm reg : Reg)
  | xor (rm reg : Reg)
  | addEax (imm : UInt32)
  | xorEax (imm : UInt32)
  | ret
  deriving DecidableEq

/-- The length of an instruction. -/
def Instr.len : Instr → UInt64
  | .nop | .cld | .clc | .ret => 1
  | .xchg _ _ | .xor _ _ => 2
  | .addEax _ | .xorEax _ => 5

/-- The instruction a byte sequence starts with. -/
def decode (byte : ℕ → UInt8) : Option Instr :=
  let opcode := byte 0
  let modrm := byte 1
  let rm := Reg.ofField (modrm &&& 7)
  let reg := Reg.ofField ((modrm >>> 3) &&& 7)
  let imm := Words.wordLE (byte 1) (byte 2) (byte 3) (byte 4)
  if opcode = 0x90 then some .nop
  else if opcode = 0xFC then some .cld
  else if opcode = 0xF8 then some .clc
  -- only the register forms of the two-operand instructions
  else if opcode = 0x87 ∧ modrm >>> 6 = 3 then some (.xchg rm reg)
  else if opcode = 0x31 ∧ modrm >>> 6 = 3 then some (.xor rm reg)
  else if opcode = 0x05 then some (.addEax imm)
  else if opcode = 0x35 then some (.xorEax imm)
  else if opcode = 0xC3 then some .ret
  else none

namespace Cpu

/-- The low half of a register. -/
def reg32 (c : Cpu) (r : Reg) : UInt32 := (c.reg r).toUInt32

/-- A 32-bit write, which clears the upper half. -/
def setReg32 (c : Cpu) (r : Reg) (v : UInt32) : Cpu :=
  { c with reg := Function.update c.reg r v.toUInt64 }

/-- The eight bytes at an address. -/
def load64 (c : Cpu) (a : UInt64) : UInt64 :=
  .ofBitVec ((c.mem (a + 7)).toBitVec ++ (c.mem (a + 6)).toBitVec ++ (c.mem (a + 5)).toBitVec ++
    (c.mem (a + 4)).toBitVec ++ (c.mem (a + 3)).toBitVec ++ (c.mem (a + 2)).toBitVec ++
    (c.mem (a + 1)).toBitVec ++ (c.mem a).toBitVec)

/-- Even parity of the low byte. -/
def parity (v : UInt32) : Bool :=
  (List.range 8).countP (fun i => v.toBitVec.getLsbD i) % 2 == 0

/-- The flags of a result. -/
def resultFlags (f : Flags) (v : UInt32) (cf of : Bool) : Flags :=
  { f with cf := cf, of := of, zf := v == 0, sf := v.toBitVec.msb, pf := parity v }

/-- An exclusive or, which clears carry and overflow. -/
def xor32 (c : Cpu) (r : Reg) (v : UInt32) : Cpu :=
  let w := c.reg32 r ^^^ v
  { c.setReg32 r w with flags := resultFlags c.flags w false false }

/-- An addition. -/
def add32 (c : Cpu) (r : Reg) (v : UInt32) : Cpu :=
  let u := c.reg32 r
  let w := u + v
  { c.setReg32 r w with
    flags := resultFlags c.flags w (decide (2 ^ 32 ≤ u.toNat + v.toNat))
      (u.toBitVec.msb == v.toBitVec.msb && w.toBitVec.msb != u.toBitVec.msb) }

/-- What an instruction does once the pointer is past it. -/
def exec (c : Cpu) : Instr → Cpu
  | .nop => c
  | .cld => { c with flags := { c.flags with df := false } }
  | .clc => { c with flags := { c.flags with cf := false } }
  | .xchg rm reg => (c.setReg32 rm (c.reg32 reg)).setReg32 reg (c.reg32 rm)
  | .xor rm reg => c.xor32 rm (c.reg32 reg)
  | .addEax imm => c.add32 .rax imm
  | .xorEax imm => c.xor32 .rax imm
  | .ret => { c with rip := c.load64 (c.reg .rsp),
                     reg := Function.update c.reg .rsp (c.reg .rsp + 8) }

/-- An instruction, with the pointer moved past it first. -/
def next (c : Cpu) (instr : Instr) : Cpu := exec { c with rip := c.rip + instr.len } instr

/-- One instruction from memory. -/
def step (c : Cpu) : Option Cpu :=
  (decode fun k => c.mem (c.rip + UInt64.ofNat k)).map c.next

/-- At most `fuel` instructions, until the pointer is at `ret` with the stack
pointer at `sp`. -/
def runTo (ret sp : UInt64) : ℕ → Cpu → Option Cpu
  | 0, _ => none
  | fuel + 1, c => do
    let c ← c.step
    if c.rip = ret ∧ c.reg .rsp = sp then some c else runTo ret sp fuel c

/-- The function just entered, until it has returned to its caller. -/
def call (fuel : ℕ) (c : Cpu) : Option Cpu :=
  runTo (c.load64 (c.reg .rsp)) (c.reg .rsp + 8) fuel c

end Cpu

/-! ## Code in memory -/

variable {c : Cpu} {bytes more : List UInt8}

/-- The bytes at the instruction pointer. -/
def CodeAt (c : Cpu) (bytes : List UInt8) : Prop :=
  ∀ i, i < bytes.length → some (c.mem (c.rip + UInt64.ofNat i)) = bytes[i]?

theorem CodeAt.left (h : CodeAt c (bytes ++ more)) : CodeAt c bytes := fun i hi => by
  rw [h i (by rw [List.length_append]; omega), List.getElem?_append_left hi]

/-- Past some code lies the rest of it. -/
theorem CodeAt.right (h : CodeAt c (bytes ++ more)) {c' : Cpu} (hmem : c'.mem = c.mem)
    (hrip : c'.rip = c.rip + UInt64.ofNat bytes.length) : CodeAt c' more := fun i hi => by
  have hget := h (bytes.length + i) (by rw [List.length_append]; omega)
  rw [List.getElem?_append_right (by omega), Nat.add_sub_cancel_left] at hget
  rw [← hget, hmem, hrip, UInt64.ofNat_add, UInt64.add_assoc]

theorem CodeAt.byte (h : CodeAt c bytes) {i : ℕ} {b : UInt8} (hb : bytes[i]? = some b) :
    c.mem (c.rip + UInt64.ofNat i) = b := by
  have hget := h i (List.getElem?_eq_some_iff.1 hb).1
  rw [hb] at hget
  exact Option.some.inj hget

/-! ## Assembling -/

/-- The field that names a register, where one does without a `REX` byte. -/
def Reg.field? : Reg → Option UInt8
  | .rax => some 0
  | .rcx => some 1
  | .rdx => some 2
  | .rbx => some 3
  | .rsp => some 4
  | .rbp => some 5
  | .rsi => some 6
  | .rdi => some 7
  | _ => none

/-- The `ModRM` byte of a register form. -/
def registerForm (m r : UInt8) : UInt8 := m ||| (r <<< 3) ||| 0xC0

/-- The bytes of an instruction. -/
def assemble : Instr → Option (List UInt8)
  | .nop => some [0x90]
  | .cld => some [0xFC]
  | .clc => some [0xF8]
  | .xchg rm reg => do
    let m ← rm.field?
    let r ← reg.field?
    some [0x87, registerForm m r]
  | .xor rm reg => do
    let m ← rm.field?
    let r ← reg.field?
    some [0x31, registerForm m r]
  | .addEax imm => some (0x05 :: Words.bytesLE imm)
  | .xorEax imm => some (0x35 :: Words.bytesLE imm)
  | .ret => some [0xC3]

/-- A `ModRM` byte built from two registers decodes to them. -/
theorem ofField_modrm : ∀ (rm reg : Reg) (m r : UInt8), rm.field? = some m → reg.field? = some r →
    registerForm m r >>> 6 = 3 ∧ Reg.ofField (registerForm m r &&& 7) = rm ∧
      Reg.ofField ((registerForm m r >>> 3) &&& 7) = reg := by
  intro rm reg m r hm hr
  cases rm <;> cases hm <;> cases reg <;> cases hr <;> decide

variable {instr : Instr}

theorem length_assemble (h : assemble instr = some bytes) :
    UInt64.ofNat bytes.length = instr.len := by
  cases instr with
  | xchg rm reg | xor rm reg =>
    simp only [assemble, Option.bind_eq_bind, Option.bind_eq_some_iff] at h
    obtain ⟨m, -, r, -, heq⟩ := h
    cases heq
    rfl
  | _ =>
    cases h
    rfl

/-- **What was assembled decodes to itself.** -/
theorem decode_assemble (h : assemble instr = some bytes) (hcode : CodeAt c bytes) :
    decode (fun k => c.mem (c.rip + UInt64.ofNat k)) = some instr := by
  unfold decode
  cases instr with
  | nop =>
    cases h
    simp only [hcode.byte (i := 0) rfl, if_pos]
  | cld | clc | ret =>
    cases h
    simp only [hcode.byte (i := 0) rfl]
    rfl
  -- the second byte names both registers
  | xchg rm reg | xor rm reg =>
    simp only [assemble, Option.bind_eq_bind, Option.bind_eq_some_iff] at h
    obtain ⟨m, hm, r, hr, heq⟩ := h
    cases heq
    obtain ⟨hmod, hrm, hreg⟩ := ofField_modrm rm reg m r hm hr
    simp only [hcode.byte (i := 0) rfl, hcode.byte (i := 1) rfl, hmod, hrm, hreg]
    rfl
  -- the operand is in the four bytes behind the opcode
  | addEax imm | xorEax imm =>
    cases h
    simp only [hcode.byte (i := 0) rfl, hcode.byte (i := 1) rfl, hcode.byte (i := 2) rfl,
      hcode.byte (i := 3) rfl, hcode.byte (i := 4) rfl, Words.wordLE_bytesLE]
    rfl

theorem step_assemble (h : assemble instr = some bytes) (hcode : CodeAt c bytes) :
    c.step = some (c.next instr) := by
  rw [Cpu.step, decode_assemble h hcode, Option.map_some]

/-! ## What an instruction leaves alone -/

/-- The registers an instruction writes. -/
def Instr.writes : Instr → List Reg
  | .nop | .cld | .clc => []
  | .xchg rm reg => [rm, reg]
  | .xor rm _ => [rm]
  | .addEax _ | .xorEax _ => [.rax]
  | .ret => [.rsp]

theorem next_mem (c : Cpu) (instr : Instr) : (c.next instr).mem = c.mem := by
  cases instr <;> rfl

theorem next_rip (h : instr ≠ .ret) : (c.next instr).rip = c.rip + instr.len := by
  cases instr with
  | ret => exact absurd rfl h
  | _ => rfl

theorem next_reg {r : Reg} (h : r ∉ instr.writes) : (c.next instr).reg r = c.reg r := by
  cases instr with
  | nop | cld | clc => rfl
  | xchg rm reg =>
    simp only [Instr.writes, List.mem_cons, List.not_mem_nil, or_false, not_or] at h
    simp [Cpu.next, Cpu.exec, Cpu.setReg32, Function.update_of_ne h.1, Function.update_of_ne h.2]
  | xor rm reg =>
    simp only [Instr.writes, List.mem_singleton] at h
    simp [Cpu.next, Cpu.exec, Cpu.xor32, Cpu.setReg32, Function.update_of_ne h]
  | addEax imm =>
    simp only [Instr.writes, List.mem_singleton] at h
    simp [Cpu.next, Cpu.exec, Cpu.add32, Cpu.setReg32, Function.update_of_ne h]
  | xorEax imm =>
    simp only [Instr.writes, List.mem_singleton] at h
    simp [Cpu.next, Cpu.exec, Cpu.xor32, Cpu.setReg32, Function.update_of_ne h]
  | ret =>
    simp only [Instr.writes, List.mem_singleton] at h
    simp [Cpu.next, Cpu.exec, Function.update_of_ne h]

/-! ## Straight-line code -/

/-- A block of instructions and its bytes. -/
inductive Assembles : List Instr → List UInt8 → Prop
  | nil : Assembles [] []
  | cons {instr : Instr} {block : List Instr} {bytes more : List UInt8} :
      assemble instr = some bytes → Assembles block more →
        Assembles (instr :: block) (bytes ++ more)

/-- The machine after a block. -/
def Cpu.nexts (c : Cpu) (block : List Instr) : Cpu := block.foldl Cpu.next c

theorem nexts_mem (block : List Instr) : ∀ c : Cpu, (c.nexts block).mem = c.mem := by
  induction block with
  | nil => intro c; rfl
  | cons instr block ih => intro c; exact (ih _).trans (next_mem c instr)

theorem nexts_reg {r : Reg} {block : List Instr} :
    ∀ c : Cpu, (∀ instr ∈ block, r ∉ instr.writes) → (c.nexts block).reg r = c.reg r := by
  induction block with
  | nil => intro c _; rfl
  | cons instr block ih =>
    intro c h
    have hrest := ih (c.next instr) fun i hi => h i (List.mem_cons_of_mem _ hi)
    exact hrest.trans (next_reg (h instr (List.mem_cons_self ..)))

/-- Past an instruction that does not return lies the next one. -/
theorem CodeAt.next (hcode : CodeAt c (bytes ++ more)) (hinstr : assemble instr = some bytes)
    (hne : instr ≠ .ret) : CodeAt (c.next instr) more :=
  hcode.right (next_mem c instr) (by rw [next_rip hne, length_assemble hinstr])

/-- **Straight-line code runs through**: a block without `RET` that leaves the
stack pointer alone is not stopped in the middle, and what follows it in
memory comes next. -/
theorem runTo_block {ret sp : UInt64} {block : List Instr} (hasm : Assembles block bytes) :
    ∀ {c : Cpu}, CodeAt c (bytes ++ more) →
      (∀ instr ∈ block, instr ≠ .ret ∧ .rsp ∉ instr.writes) → c.reg .rsp ≠ sp →
        CodeAt (c.nexts block) more ∧
          ∀ fuel, Cpu.runTo ret sp (block.length + fuel) c =
            Cpu.runTo ret sp fuel (c.nexts block) := by
  induction hasm with
  | nil =>
    intro c hcode _ _
    refine ⟨hcode, fun fuel => ?_⟩
    rw [List.length_nil, Nat.zero_add]
    rfl
  | @cons instr block bytes rest hinstr hblock ih =>
    intro c hcode hplain hsp
    obtain ⟨hne, hstack⟩ := hplain instr (List.mem_cons_self ..)
    rw [List.append_assoc] at hcode
    -- the stack pointer stays, so the run is not over after this instruction
    have hreg : (c.next instr).reg .rsp = c.reg .rsp := next_reg hstack
    obtain ⟨hafter, hrun⟩ := ih (hcode.next hinstr hne) (fun i hi => hplain i (List.mem_cons_of_mem _ hi))
      (by rw [hreg]; exact hsp)
    refine ⟨hafter, fun fuel => ?_⟩
    have hfuel : (instr :: block).length + fuel = block.length + fuel + 1 := by
      rw [List.length_cons]
      omega
    rw [hfuel, Cpu.runTo, step_assemble hinstr hcode.left, Option.bind_eq_bind, Option.bind_some,
      if_neg (fun h => hsp (hreg.symm.trans h.2)), hrun]
    rfl

/-- So many instructions from memory, with what they were. -/
def Cpu.trace : ℕ → Cpu → Option (List Instr × Cpu)
  | 0, c => some ([], c)
  | n + 1, c => do
    let instr ← decode fun k => c.mem (c.rip + UInt64.ofNat k)
    let (rest, c) ← trace n (c.next instr)
    some (instr :: rest, c)

/-- **A block is executed instruction by instruction**, and ends where its bytes
do. -/
theorem trace_block {block : List Instr} (hasm : Assembles block bytes) :
    ∀ {c : Cpu}, CodeAt c (bytes ++ more) → (∀ instr ∈ block, instr ≠ .ret) →
      c.trace block.length = some (block, c.nexts block) ∧
        (c.nexts block).rip = c.rip + UInt64.ofNat bytes.length ∧ CodeAt (c.nexts block) more := by
  induction hasm with
  | nil =>
    intro c hcode _
    exact ⟨rfl, (UInt64.add_zero c.rip).symm, hcode⟩
  | @cons instr block bytes rest hinstr hblock ih =>
    intro c hcode hplain
    have hne := hplain instr (List.mem_cons_self ..)
    rw [List.append_assoc] at hcode
    obtain ⟨htrace, hrip, hafter⟩ := ih (hcode.next hinstr hne)
      fun i hi => hplain i (List.mem_cons_of_mem _ hi)
    refine ⟨?_, ?_, hafter⟩
    · rw [List.length_cons, Cpu.trace, decode_assemble hinstr hcode.left, Option.bind_eq_bind,
        Option.bind_some, htrace, Option.bind_eq_bind, Option.bind_some]
      rfl
    · rw [List.length_append, UInt64.ofNat_add, length_assemble hinstr, ← UInt64.add_assoc,
        ← next_rip hne]
      exact hrip

/-- **A function that is a block and a `RET`** returns to the address on top of
the stack, with the stack popped, memory untouched and the other registers as
the block left them. -/
theorem call_block {block : List Instr} (hasm : Assembles block bytes)
    (hcode : CodeAt c (bytes ++ [0xC3]))
    (hplain : ∀ instr ∈ block, instr ≠ .ret ∧ .rsp ∉ instr.writes) {fuel : ℕ}
    (hfuel : block.length + 1 ≤ fuel) :
    ∃ c', c.call fuel = some c' ∧ c'.rip = c.load64 (c.reg .rsp) ∧
      c'.reg .rsp = c.reg .rsp + 8 ∧ c'.mem = c.mem ∧
      ∀ r, r ≠ .rsp → c'.reg r = (c.nexts block).reg r := by
  -- the call ends where the stack is one word shorter, which no step but `RET` does
  have hpop : c.reg .rsp ≠ c.reg .rsp + 8 := by grind
  obtain ⟨hret, hrun⟩ := @runTo_block _ _ (c.load64 (c.reg .rsp)) _ _ hasm c hcode hplain hpop
  obtain ⟨extra, rfl⟩ := Nat.exists_eq_add_of_le hfuel
  have hreg : (c.nexts block).reg .rsp = c.reg .rsp := nexts_reg c fun i hi => (hplain i hi).2
  have hrip : ((c.nexts block).next .ret).rip = c.load64 (c.reg .rsp) := by
    change (c.nexts block).load64 ((c.nexts block).reg .rsp) = _
    rw [hreg, Cpu.load64, Cpu.load64, nexts_mem]
  have hsp : ((c.nexts block).next .ret).reg .rsp = c.reg .rsp + 8 := by
    change Function.update (c.nexts block).reg .rsp ((c.nexts block).reg .rsp + 8) .rsp = _
    rw [Function.update_self, hreg]
  have hstep : (c.nexts block).step = some ((c.nexts block).next .ret) := step_assemble rfl hret
  refine ⟨(c.nexts block).next .ret, ?_, hrip, hsp, ?_, fun r hr => ?_⟩
  · rw [Cpu.call, Nat.add_assoc, hrun, Nat.add_comm 1 extra, Cpu.runTo, hstep,
      Option.bind_eq_bind, Option.bind_some, if_pos ⟨hrip, hsp⟩]
  · rw [next_mem, nexts_mem]
  · exact next_reg (by simpa [Instr.writes] using hr)

end X86

end HkSystem
