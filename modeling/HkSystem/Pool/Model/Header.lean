import HkSystem.Common.CText
import HkSystem.Pool.Model.Builder
/-!
# The header of the pool

`package_header` of `generate_pool.py` writes the binaries of the manifest as arrays
of a C header, with a table that names them. `readHeader` is what the header says to
the C file that includes it: the size of the pool, and the table with each name
replaced by the array it names.
-/

namespace HkSystem

namespace Pool

open CText (Token Tree)

/-! ## Writing -/

/-- `0x` and two digits. -/
def hexByte (b : UInt8) : String := "0x" ++ hexdigest [b]

/-- The name of an array. -/
def dataName (id : ℕ) : String := "variant_" ++ toString id ++ "_data"

/-- The array of a variant, with the contents of its file. -/
def arrayText (var : Variant) (data : Bytes) : List String :=
  ["/* Variant ID: ", toString var.id, " | Hash: ", var.hash, " */\n",
    "static const uint8_t ", dataName var.id, "[] = \x7b\n",
    "    ", String.intercalate ", " (data.map hexByte), "\n",
    "\x7d;\n\n"]

/-- Its line of the table. -/
def recordText (var : Variant) : List String :=
  ["    \x7b", toString var.id, ", ", dataName var.id, ", ", toString var.size, ", \x22", var.hash,
    "\x22\x7d,\n"]

/-- What stands in front of the arrays, with the size of the pool. -/
def preambleText (n : ℕ) : List String :=
  ["/* Auto-generated by Heuristic OS Build System. DO NOT EDIT. */\n",
    "#ifndef BAKED_MUTATIONS_H\n#define BAKED_MUTATIONS_H\n\n#include <stdint.h>\n\n",
    "#define POOL_SIZE ", toString n, "\n\n"]

/-- The type of an entry, and the first line of the table. -/
def typedefText : List String :=
  ["typedef struct \x7b\n    int id;\n    const uint8_t* data;\n    int size;\n",
    "    const char* hash;\n\x7d variant_record_t;\n\n",
    "static const variant_record_t mutation_pool[POOL_SIZE] = \x7b\n"]

/-- The last line of the table, and the end of the guard. -/
def endText : List String := ["\x7d;\n\n#endif\n"]

/-- `package_header`: what it writes, piece by piece. It fails on a file that is not
there. -/
def packageHeader (manifest : Manifest) (files : Files) : Option (List String) := do
  let arrays ← manifest.variants.mapM fun var => (files var.path).map (arrayText var)
  some (preambleText manifest.variants.length ++ arrays.flatten ++ typedefText ++
    manifest.variants.flatMap recordText ++ endText)

/-! ## Reading -/

/-- A `variant_record_t`, with the array for the pointer to it. -/
structure Record where
  id : ℕ
  data : Bytes
  size : ℕ
  hash : String
  deriving DecidableEq

/-- The value of an element of an array. -/
def byteValue : Tree → Option UInt8
  | .leaf (.word w) => (CText.number w).map UInt8.ofNat
  | _ => none

/-- `static const uint8_t NAME[] = …`. -/
def readArray : List Tree → Option (List Char × Bytes)
  | [.leaf (.word storage), .leaf (.word qualifier), .leaf (.word type), .leaf (.word name),
      .leaf (.punct '['), .leaf (.punct ']'), .leaf (.punct '='), .group values] =>
    if storage = "static".toList ∧ qualifier = "const".toList ∧ type = "uint8_t".toList then do
      let values ← CText.items values
      let bytes ← values.mapM byteValue
      some (name, bytes)
    else none
  | _ => none

/-- A line of the table; `data` is the name of an array. -/
structure Line where
  id : ℕ
  data : List Char
  size : ℕ
  hash : String

/-- The four fields between braces. -/
def readLine : Tree → Option Line
  | .group fields => do
    match ← CText.items fields with
    | [.leaf (.word id), .leaf (.word data), .leaf (.word size), .leaf (.str hash)] =>
      let id ← CText.number id
      let size ← CText.number size
      some ⟨id, data, size, .ofList hash⟩
    | _ => none
  | _ => none

/-- `static const variant_record_t mutation_pool[POOL_SIZE] = …`. -/
def readTable : List Tree → Option (List Line)
  | [.leaf (.word storage), .leaf (.word qualifier), .leaf (.word type), .leaf (.word name),
      .leaf (.punct '['), .leaf (.word bound), .leaf (.punct ']'), .leaf (.punct '='),
      .group table] =>
    if storage = "static".toList ∧ qualifier = "const".toList ∧
        type = "variant_record_t".toList ∧ name = "mutation_pool".toList ∧
        bound = "POOL_SIZE".toList then do
      let table ← CText.items table
      table.mapM readLine
    else none
  | _ => none

/-- The line with the array that its name stands for. -/
def Line.resolve (arrays : List (List Char × Bytes)) (line : Line) : Option Record :=
  (arrays.lookup line.data).map fun data => ⟨line.id, data, line.size, line.hash⟩

/-- What `POOL_SIZE` is defined as. -/
def readPoolSize (ls : List (List Token)) : Option ℕ :=
  match CText.definition "POOL_SIZE".toList ls with
  | some [.word n] => CText.number n
  | _ => none

/-- `POOL_SIZE`, and `mutation_pool`. -/
def readHeader (text : String) : Option (ℕ × List Record) := do
  let tokens ← CText.tokens text.toList
  let ls := CText.lines tokens
  let poolSize ← readPoolSize ls
  let trees ← CText.nest [[]] (CText.code ls)
  let declarations ← CText.declarations trees
  let table ← declarations.findSome? readTable
  let records ← table.mapM (Line.resolve (declarations.filterMap readArray))
  some (poolSize, records)

/-! ## The script -/

/-- The script: `generate_variants`, and `package_header` of what it returns. -/
def script (tools : ℕ → Tools) (count turns : ℕ) (files : Files) :
    While.Outcome (List String) :=
  match generateVariantsWith tools count turns files with
  | .returned v =>
    match packageHeader v.manifest v.files with
    | some pieces => .returned pieces
    | none => .exited
  | .exited => .exited
  | .running => .running

end Pool

end HkSystem
