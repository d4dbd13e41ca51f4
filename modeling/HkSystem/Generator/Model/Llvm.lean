import HkSystem.System.Model.Dataports
/-!
# The LLVM synthesizer

`gen_api_request_generation` of `lib.rs`, the other implementation of
`GeneratorInterface`. It parses the bitcode of the worker logic, puts an
addition in front of every basic block, has LLVM emit an object, copies the
object to `gen_buf` and has the Repository register it. It is not linked to
`guest_ram` at all.

What it uses of LLVM is a parameter; a call that fails is unwrapped, which
panics.
-/

namespace HkSystem

namespace Llvm

variable {ι : Type}

/-- The functions of a module, as their basic blocks. A declaration has none. -/
structure Module (ι : Type) where
  functions : List (List (List ι))

/-- What the synthesizer uses of LLVM. -/
structure Api (ι : Type) where
  /-- `Module::parse_bitcode_from_buffer`. -/
  parseBitcode : List UInt8 → Option (Module ι)
  /-- What `build_int_add` of two `i32` constants inserts, which is nothing where
  the builder folds it. -/
  buildIntAdd : UInt32 → UInt32 → Option (List ι)
  /-- The target machine, and its `write_to_memory_buffer`. -/
  writeToMemoryBuffer : Module ι → Option (List UInt8)

variable (llvm : Api ι)

/-- The insertion before the first instruction of a block, if it has one. -/
def mutateBlock (variantId : Int32) : List ι → Option (List ι)
  | [] => some []
  | first :: rest => do
    let obfJunk ← llvm.buildIntAdd variantId.toUInt32 0
    some (obfJunk ++ first :: rest)

/-- The two loops over functions and their blocks. -/
def mutate (variantId : Int32) (module : Module ι) : Option (Module ι) := do
  let functions ← module.functions.mapM fun blocks =>
    if blocks.length = 0 then some blocks else blocks.mapM (mutateBlock llvm variantId)
  some ⟨functions⟩

/-- The object that is synthesized from the bitcode. -/
def synthesize (workerBitcode : List UInt8) (variantId : Int32) : Option (List UInt8) := do
  let module ← llvm.parseBitcode workerBitcode
  let module ← mutate llvm variantId module
  llvm.writeToMemoryBuffer module

/-- `gen_api_request_generation` of `lib.rs`. -/
def genApiRequestGeneration (workerBitcode : List UInt8)
    (addVariant : Int32 → Int32 → Shared → Option Shared) (genBufIsNull : Bool)
    (_baseAddr : UInt64) (variantId _complexity : Int32) (shared : Shared) : Option Shared := do
  let objBytes ← synthesize llvm workerBitcode variantId
  if genBufIsNull then some shared
  else
    let copySize := min objBytes.length 16777216
    let genBuf ← Region.memcpy shared.genBuf (.ofList objBytes : Region objBytes.length) copySize
    addVariant variantId (Int32.ofNat copySize) { shared with genBuf := genBuf }

end Llvm

end HkSystem
