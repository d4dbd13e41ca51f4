import HkSystem.Common.Fips180
import HkSystem.Common.WhileLoop
import Mathlib.Data.List.Infix
/-!
# The variant pool builder

`generate_variants` of `generate_pool.py`. The external tools are functions of
the files they are given, any of which may fail; `alive-tv` is run without a
check and is asked for its output only. The loop goes on until the pool has the
number of variants that is configured, whatever the number of attempts. What is
printed is left out, and the directory of the artifacts, which the first line
makes, is taken to be there.
-/

namespace HkSystem

namespace Pool

/-- The contents of a file. -/
abbrev Bytes := List UInt8

/-- The files, by path. -/
abbrev Files := String → Option Bytes

/-- The external tools. A tool that fails has no result. -/
structure Tools where
  clang : Bytes → Option Bytes
  /-- `opt` with the `hk-mutate` pass. -/
  opt : Bytes → Option Bytes
  /-- What it prints on the original and the mutated file. -/
  aliveTv : Bytes → Bytes → String
  llc : Bytes → Option Bytes
  objcopy : Bytes → Option Bytes

/-! ## Configuration and paths -/

/-- `MODULE_NAME`. -/
def moduleName : String := "worker_logic"

/-- `SOURCE_FILE`, the code all variants are made from. -/
def sourceFile : String :=
  "../projects/camkes/apps/hk_system/components/Worker/" ++ moduleName ++ ".c"

/-- `VARIANTS_COUNT`. -/
def variantsCount : ℕ := 5

/-- `ARTIFACTS_DIR`. -/
def artifactsDir : String := "build_artifacts"

/-- `os.path.join(ARTIFACTS_DIR, name)`. -/
def inArtifacts (name : String) : String := artifactsDir ++ "/" ++ name

/-- The IR of the source, which every attempt starts from. -/
def baseIr : String := inArtifacts (moduleName ++ "_base.ll")

/-- The IR of variant `n`. An attempt that fails has it overwritten by the next. -/
def mutatedIr (n : ℕ) : String := inArtifacts (moduleName ++ "_v" ++ toString n ++ ".ll")

/-- The object of variant `n`. -/
def objFile (n : ℕ) : String := inArtifacts ("v" ++ toString n ++ ".o")

/-- Its binary, which the manifest names. -/
def binFile (n : ℕ) : String := inArtifacts ("v" ++ toString n ++ ".bin")

/-! ## The builder -/

/-- An entry of the manifest. -/
structure Variant where
  id : ℕ
  hash : String
  size : ℕ
  path : String

/-- What `generate_variants` returns. -/
structure Manifest where
  moduleId : String
  variants : List Variant

/-- The local variables of `generate_variants`, with the files. -/
structure Variables where
  files : Files
  manifest : Manifest
  validCount : ℕ
  attempts : ℕ

/-- `run_command` for a tool that reads one file and writes another; a failure ends
the program. -/
def runCommand (tool : Bytes → Option Bytes) (input output : String) (files : Files) :
    Option Files := do
  let contents ← files input
  let result ← tool contents
  some (Function.update files output (some result))

/-- `"Transformation seems to be correct!" in stdout`. -/
def seemsCorrect (stdout : String) : Bool :=
  decide ("Transformation seems to be correct!".toList <:+: stdout.toList)

/-- The digits `hexdigest` writes. -/
def hexDigits : List Char :=
  ['0', '1', '2', '3', '4', '5', '6', '7', '8', '9', 'a', 'b', 'c', 'd', 'e', 'f']

/-- `hexdigest`. -/
def hexdigest (digest : Bytes) : String :=
  .ofList (digest.flatMap fun b =>
    [hexDigits.getD (b.toNat / 16) '0', hexDigits.getD (b.toNat % 16) '0'])

/-- The entry for a binary. -/
def Variant.ofData (n : ℕ) (data : Bytes) : Variant :=
  ⟨n, hexdigest (Fips180.sha256 data), data.length, binFile n⟩

/-- What `alive-tv` prints for a mutated file; nothing to the point, if a file is
missing. -/
def aliveRes (tools : Tools) (n : ℕ) (files : Files) : String :=
  match files baseIr, files (mutatedIr n) with
  | some base, some mutated => tools.aliveTv base mutated
  | _, _ => ""

/-- The body of the loop. -/
def attempt (tools : Tools) (v : Variables) : Option Variables := do
  let n := v.validCount
  let files ← runCommand tools.opt baseIr (mutatedIr n) v.files
  if seemsCorrect (aliveRes tools n files) then
    let files ← runCommand tools.llc (mutatedIr n) (objFile n) files
    let files ← runCommand tools.objcopy (objFile n) (binFile n) files
    let data ← files (binFile n)
    some {
      files := files
      manifest := { v.manifest with
        variants := v.manifest.variants ++ [Variant.ofData n data] }
      validCount := n + 1
      attempts := v.attempts + 1 }
  else
    some { v with files := files, attempts := v.attempts + 1 }

/-- The variables when the loop is entered. -/
def enter (files : Files) : Variables := ⟨files, ⟨"hk_worker_core", []⟩, 0, 0⟩

/-- `generate_variants`, with a number of variants in the place of `VARIANTS_COUNT` and
tools that may answer every attempt in another way. -/
def generateVariantsWith (tools : ℕ → Tools) (count turns : ℕ) (files : Files) :
    While.Outcome Variables :=
  match runCommand (tools 0).clang sourceFile baseIr files with
  | none => .exited
  | some files =>
    While.loop (fun v => decide (v.validCount < count)) (fun v => attempt (tools v.attempts) v) turns
      (enter files)

/-- `generate_variants`, with tools that answer every attempt alike. -/
def generateVariants (tools : Tools) (count turns : ℕ) (files : Files) :
    While.Outcome Variables :=
  generateVariantsWith (fun _ => tools) count turns files

end Pool

end HkSystem
