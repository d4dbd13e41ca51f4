import HkSystem.Common.Fallible
import HkSystem.Pool.Diversity
import HkSystem.Pool.Model.Header
import Mathlib.Data.List.Nodup
/-!
# The header says what the manifest says

The header is written piece by piece; the pieces scan to lines of tokens, the lines
nest to declarations, and the declarations give back the arrays and the table
(`header_round_trip`). It needs that no two entries of the manifest have one id, as
the arrays are named after them, and that the hashes are of letters and digits.
-/

namespace HkSystem

namespace Pool

open CText (Token Tree Scans Written Nests ofLines scan scan_literal scan_append)

/-! ## The tokens of the header -/

/-- A word of the text. -/
def word (s : String) : Token := .word s.toList

theorem toList_toString (n : ℕ) : (toString n).toList = Nat.toDigits 10 n := by
  rw [Nat.toString_eq_ofList_toDigits, String.toList_ofList]

theorem isWordChar_of_mem_toString {n : ℕ} {c : Char} (h : c ∈ (toString n).toList) :
    CText.isWordChar c = true := by
  rw [toList_toString] at h
  exact CText.isWordChar_of_mem_toDigits h

section Pieces

variable {pieces : List String} {ts : List Token}

/-- A number scans to one word. -/
theorem written_number (n : ℕ) (hend : CText.Ends (pieces.flatMap String.toList))
    (h : Written pieces ts) : Written (toString n :: pieces) (word (toString n) :: ts) := by
  refine Written.word ?_ (fun x hx => isWordChar_of_mem_toString hx) hend h
  rw [toList_toString]
  exact Nat.toDigits_ne_nil

/-- The name of an array is one word. -/
theorem written_dataName (id : ℕ) (hend : CText.Ends (pieces.flatMap String.toList))
    (h : Written pieces ts) : Written (dataName id :: pieces) (word (dataName id) :: ts) := by
  have hfront : ∀ c ∈ "variant_".toList, CText.isWordChar c = true := List.all_eq_true.1 (by decide)
  have hback : ∀ c ∈ "_data".toList, CText.isWordChar c = true := List.all_eq_true.1 (by decide)
  refine Written.word ?_ (fun x hx => ?_) hend h
  · simp [dataName]
  · rw [dataName, String.toList_append, String.toList_append] at hx
    rcases List.mem_append.1 hx with hx | hx
    · rcases List.mem_append.1 hx with hx | hx
      · exact hfront x hx
      · exact isWordChar_of_mem_toString hx
    · exact hback x hx

theorem toList_hexByte (b : UInt8) : (hexByte b).toList =
    ['0', 'x', hexDigits.getD (b.toNat / 16) '0', hexDigits.getD (b.toNat % 16) '0'] := by
  simp [hexByte, hexdigest]

theorem isWordChar_hexDigit (k : ℕ) : CText.isWordChar (hexDigits.getD k '0') = true := by
  have hall : ∀ c ∈ hexDigits, CText.isWordChar c = true := List.all_eq_true.1 (by decide)
  rw [List.getD_eq_getElem?_getD]
  rcases hget : hexDigits[k]? with _ | c
  · decide
  · exact hall c (List.mem_of_getElem? hget)

/-- And so is a byte. -/
theorem written_byte (b : UInt8) (hend : CText.Ends (pieces.flatMap String.toList))
    (h : Written pieces ts) : Written (hexByte b :: pieces) (word (hexByte b) :: ts) := by
  refine Written.word (by simp [toList_hexByte]) (fun x hx => ?_) hend h
  rw [toList_hexByte] at hx
  simp only [List.mem_cons, List.not_mem_nil, or_false] at hx
  rcases hx with rfl | rfl | rfl | rfl
  · decide
  · decide
  · exact isWordChar_hexDigit _
  · exact isWordChar_hexDigit _

/-- The tokens of the bytes of an array. -/
def byteTokens (data : Bytes) : List Token :=
  (data.map fun b => word (hexByte b)).intersperse (.punct ',')

theorem scans_comma : Scans ", ".toList [.punct ','] := scan_literal rfl (by decide)

/-- The bytes on their line. -/
theorem written_bytes (data : Bytes) (hend : CText.Ends (pieces.flatMap String.toList))
    (h : Written pieces ts) :
    Written (String.intercalate ", " (data.map hexByte) :: pieces) (byteTokens data ++ ts) := by
  induction data with
  | nil => exact h
  | cons b data ih =>
    rcases data with _ | ⟨b', data⟩
    · exact written_byte b hend h
    · have hrest := written_byte b (.front rfl (by decide) _) (Written.cons scans_comma ih)
      rw [List.map_cons, List.map_cons, String.intercalate_cons_cons, ← List.map_cons]
      rw [Written, List.flatMap_cons, String.toList_append, String.toList_append,
        List.append_assoc, List.append_assoc]
      exact hrest

end Pieces

/-- The lines in front of the arrays. -/
def preambleLines (n : ℕ) : List (List Token) :=
  [[], [.punct '#', word "ifndef", word "BAKED_MUTATIONS_H"],
    [.punct '#', word "define", word "BAKED_MUTATIONS_H"], [],
    [.punct '#', word "include", .punct '<', word "stdint", .punct '.', word "h", .punct '>'], [],
    [.punct '#', word "define", word "POOL_SIZE", word (toString n)], []]

/-- The preamble scans to its lines. -/
theorem written_preamble (n : ℕ) : Written (preambleText n) (ofLines (preambleLines n)) := by
  have hcomment : Scans "/* Auto-generated by Heuristic OS Build System. DO NOT EDIT. */\n".toList
      [.newline] := scan_literal rfl (by decide +kernel)
  have hguard : Scans
      "#ifndef BAKED_MUTATIONS_H\n#define BAKED_MUTATIONS_H\n\n#include <stdint.h>\n\n".toList
      (ofLines [[.punct '#', word "ifndef", word "BAKED_MUTATIONS_H"],
        [.punct '#', word "define", word "BAKED_MUTATIONS_H"], [],
        [.punct '#', word "include", .punct '<', word "stdint", .punct '.', word "h", .punct '>'],
        []]) := scan_literal rfl (by decide +kernel)
  have hdefine : Scans "#define POOL_SIZE ".toList
      [.punct '#', word "define", word "POOL_SIZE"] := scan_literal rfl (by decide +kernel)
  have hend : Scans "\n\n".toList [.newline, .newline] := scan_literal rfl (by decide)
  have hall := Written.cons hcomment (.cons hguard (.cons hdefine
    (written_number n (.front rfl (by decide) _) (.cons hend .nil))))
  exact hall

/-- The lines of an array. -/
def arrayLines (var : Variant) (data : Bytes) : List (List Token) :=
  [[], [word "static", word "const", word "uint8_t", word (dataName var.id), .punct '[',
      .punct ']', .punct '=', .punct '\x7b'],
    byteTokens data, [.punct '\x7d', .punct ';'], []]

/-- The hash is of letters and digits. -/
def Variant.Plain (var : Variant) : Prop := ∀ c ∈ var.hash.toList, CText.isWordChar c = true

/-- The comment on an array leaves only its line break. -/
theorem written_comment {var : Variant} (h : var.Plain) :
    Written ["/* Variant ID: ", toString var.id, " | Hash: ", var.hash, " */\n"] [.newline] := by
  have hopen : scan .plain "/* Variant ID: ".toList = some ([], .comment) :=
    scan_literal rfl (by decide)
  have hid : scan .comment (toString var.id).toList = some ([], .comment) :=
    CText.scan_comment fun c hc =>
      CText.ne_of_isWordChar (isWordChar_of_mem_toString hc) (by decide)
  have hmiddle : scan .comment " | Hash: ".toList = some ([], .comment) :=
    scan_literal rfl (by decide)
  have hhash : scan .comment var.hash.toList = some ([], .comment) :=
    CText.scan_comment fun c hc => CText.ne_of_isWordChar (h c hc) (by decide)
  have hclose : scan .comment " */\n".toList = some ([.newline], .plain) :=
    scan_literal rfl (by decide)
  exact scan_append hopen (scan_append hid (scan_append hmiddle (scan_append hhash
    (scan_append hclose Scans.nil))))

/-- **An array scans to its lines.** -/
theorem written_array {var : Variant} (h : var.Plain) (data : Bytes) :
    Written (arrayText var data) (ofLines (arrayLines var data)) := by
  have hfront : Scans "static const uint8_t ".toList
      [word "static", word "const", word "uint8_t"] := scan_literal rfl (by decide +kernel)
  have hopen : Scans "[] = \x7b\n".toList
      [.punct '[', .punct ']', .punct '=', .punct '\x7b', .newline] := scan_literal rfl (by decide)
  have hindent : Scans "    ".toList [] := scan_literal rfl (by decide)
  have hnewline : Scans "\n".toList [.newline] := scan_literal rfl (by decide)
  have hclose : Scans "\x7d;\n\n".toList [.punct '\x7d', .punct ';', .newline, .newline] :=
    scan_literal rfl (by decide)
  have hbytes := written_bytes data (.front rfl (by decide) _)
    (Written.cons hnewline (.cons hclose .nil))
  have hdecl := Written.cons hfront (written_dataName var.id (.front rfl (by decide) _)
    (Written.cons hopen (.cons hindent hbytes)))
  have hall := (written_comment h).append hdecl
  simpa [arrayText, arrayLines, ofLines] using hall

/-- The fields of a line of the table. -/
def recordTokens (var : Variant) : List Token :=
  [word (toString var.id), .punct ',', word (dataName var.id), .punct ',',
    word (toString var.size), .punct ',', .str var.hash.toList]

/-- A line of the table, between its braces. -/
def recordLine (var : Variant) : List Token :=
  .punct '\x7b' :: (recordTokens var ++ [.punct '\x7d', .punct ','])

/-- The hash is a string, since it has no quote and no backslash in it. -/
theorem written_hash {var : Variant} (h : var.Plain) :
    Written [", \x22", var.hash, "\x22\x7d,\n"]
      [.punct ',', .str var.hash.toList, .punct '\x7d', .punct ',', .newline] := by
  have hopen : scan .plain ", \x22".toList = some ([.punct ','], .str []) :=
    scan_literal rfl (by decide)
  have hhash : scan (.str []) var.hash.toList = some ([], .str var.hash.toList) :=
    CText.scan_str fun c hc => ⟨CText.ne_of_isWordChar (h c hc) (by decide),
      CText.ne_of_isWordChar (h c hc) (by decide), CText.ne_of_isWordChar (h c hc) (by decide)⟩
  have hclose : scan (.str var.hash.toList) "\x22\x7d,\n".toList =
      some ([.str var.hash.toList, .punct '\x7d', .punct ',', .newline], .plain) :=
    scan_literal rfl rfl
  exact scan_append hopen (scan_append hhash (scan_append hclose Scans.nil))

/-- **A line of the table scans to its tokens.** -/
theorem written_record {var : Variant} (h : var.Plain) :
    Written (recordText var) (ofLines [recordLine var]) := by
  have hopen : Scans "    \x7b".toList [.punct '\x7b'] := scan_literal rfl (by decide)
  have hsize := written_number var.size (.front rfl (by decide) _) (written_hash h)
  have hname := written_dataName var.id (.front rfl (by decide) _) (.cons scans_comma hsize)
  have hall := Written.cons hopen
    (written_number var.id (.front rfl (by decide) _) (.cons scans_comma hname))
  exact hall

/-- The lines between the arrays and the table, and the first line of the table. -/
def typedefLines : List (List Token) :=
  [[word "typedef", word "struct", .punct '\x7b'], [word "int", word "id", .punct ';'],
    [word "const", word "uint8_t", .punct '*', word "data", .punct ';'],
    [word "int", word "size", .punct ';'],
    [word "const", word "char", .punct '*', word "hash", .punct ';'],
    [.punct '\x7d', word "variant_record_t", .punct ';'], [],
    [word "static", word "const", word "variant_record_t", word "mutation_pool", .punct '[',
      word "POOL_SIZE", .punct ']', .punct '=', .punct '\x7b']]

theorem written_typedef : Written typedefText (ofLines typedefLines) := by
  have hopen : Scans
      "typedef struct \x7b\n    int id;\n    const uint8_t* data;\n    int size;\n".toList
      (ofLines (typedefLines.take 4)) := scan_literal rfl (by decide +kernel)
  have hclose : Scans "    const char* hash;\n\x7d variant_record_t;\n\n".toList
      (ofLines ((typedefLines.drop 4).take 3)) := scan_literal rfl (by decide +kernel)
  have htable : Scans "static const variant_record_t mutation_pool[POOL_SIZE] = \x7b\n".toList
      (ofLines (typedefLines.drop 7)) := scan_literal rfl (by decide +kernel)
  have hall := Written.cons hopen (.cons hclose (.cons htable .nil))
  exact hall

/-- The lines behind the table. -/
def endLines : List (List Token) :=
  [[.punct '\x7d', .punct ';'], [], [.punct '#', word "endif"]]

theorem written_end : Written endText (ofLines endLines) := by
  have hend : Scans "\x7d;\n\n#endif\n".toList (ofLines endLines) :=
    scan_literal rfl (by decide +kernel)
  have hall := Written.cons hend .nil
  exact hall

/-! ## The header as a whole -/

/-- The entries of a manifest with the contents of their files. -/
abbrev Entries := List (Variant × Bytes)

/-- The lines of the header. -/
def headerLines (entries : Entries) : List (List Token) :=
  preambleLines entries.length ++ entries.flatMap (fun e => arrayLines e.1 e.2) ++ typedefLines ++
    entries.flatMap (fun e => [recordLine e.1]) ++ endLines

/-- What `package_header` writes for them. -/
def headerPieces (entries : Entries) : List String :=
  preambleText entries.length ++ entries.flatMap (fun e => arrayText e.1 e.2) ++ typedefText ++
    entries.flatMap (fun e => recordText e.1) ++ endText

/-- **The header scans to its lines.** -/
theorem written_header {entries : Entries} (h : ∀ e ∈ entries, e.1.Plain) :
    Written (headerPieces entries) (ofLines (headerLines entries)) := by
  have harrays : Written (entries.flatMap fun e => arrayText e.1 e.2)
      (entries.flatMap fun e => ofLines (arrayLines e.1 e.2)) :=
    Written.flatMap fun e he => written_array (h e he) e.2
  have hrecords : Written (entries.flatMap fun e => recordText e.1)
      (entries.flatMap fun e => ofLines [recordLine e.1]) :=
    Written.flatMap fun e he => written_record (h e he)
  rw [headerLines, CText.ofLines_append, CText.ofLines_append, CText.ofLines_append,
    CText.ofLines_append, CText.ofLines_flatMap, CText.ofLines_flatMap]
  exact ((((written_preamble _).append harrays).append written_typedef).append hrecords).append
    written_end

theorem newline_not_mem_byteTokens (data : Bytes) : Token.newline ∉ byteTokens data := by
  intro hmem
  rcases CText.mem_of_mem_intersperse hmem with heq | hmem
  · cases heq
  · obtain ⟨b, -, heq⟩ := List.mem_map.1 hmem
    cases heq

/-- No line has a line break in it. -/
theorem newline_not_mem_headerLines (entries : Entries) :
    ∀ line ∈ headerLines entries, Token.newline ∉ line := by
  have hpreamble : ∀ n, ∀ line ∈ preambleLines n, Token.newline ∉ line := by
    intro n
    simp [preambleLines, word]
  have htypedef : ∀ line ∈ typedefLines, Token.newline ∉ line := by
    simp [typedefLines, word]
  have hend : ∀ line ∈ endLines, Token.newline ∉ line := by simp [endLines, word]
  intro line hline
  rw [headerLines] at hline
  rcases List.mem_append.1 hline with hline | hline
  · rcases List.mem_append.1 hline with hline | hline
    · rcases List.mem_append.1 hline with hline | hline
      · rcases List.mem_append.1 hline with hline | hline
        · exact hpreamble _ line hline
        · obtain ⟨e, -, hline⟩ := List.mem_flatMap.1 hline
          simp only [arrayLines, List.mem_cons, List.not_mem_nil, or_false] at hline
          rcases hline with rfl | rfl | rfl | rfl | rfl
          · simp
          · simp [word]
          · exact newline_not_mem_byteTokens e.2
          · simp
          · simp
      · exact htypedef line hline
    · obtain ⟨e, -, hline⟩ := List.mem_flatMap.1 hline
      rw [List.mem_singleton.1 hline]
      simp [recordLine, recordTokens, word]
  · exact hend line hline

/-- What is defined as `POOL_SIZE`. -/
theorem definition_headerLines (entries : Entries) :
    CText.definition "POOL_SIZE".toList (headerLines entries ++ [[]]) =
      some [word (toString entries.length)] := by
  have hpreamble : CText.definition "POOL_SIZE".toList (preambleLines entries.length) =
      some [word (toString entries.length)] := by rfl
  rw [headerLines]
  iterate 5 refine CText.definition_append ?_ _
  exact hpreamble

/-- The declaration of an array. -/
def arrayDecl (e : Variant × Bytes) : List Tree :=
  [.leaf (word "static"), .leaf (word "const"), .leaf (word "uint8_t"),
    .leaf (word (dataName e.1.id)), .leaf (.punct '['), .leaf (.punct ']'), .leaf (.punct '='),
    .group ((byteTokens e.2).map .leaf)]

/-- The declaration of the type. -/
def typedefDecl : List Tree :=
  [.leaf (word "typedef"), .leaf (word "struct"),
    .group (([word "int", word "id", .punct ';', word "const", word "uint8_t", .punct '*',
      word "data", .punct ';', word "int", word "size", .punct ';', word "const", word "char",
      .punct '*', word "hash", .punct ';'] : List Token).map .leaf),
    .leaf (word "variant_record_t")]

/-- A line of the table. -/
def recordTree (e : Variant × Bytes) : Tree := .group ((recordTokens e.1).map .leaf)

/-- The declaration of the table. -/
def tableDecl (entries : Entries) : List Tree :=
  [.leaf (word "static"), .leaf (word "const"), .leaf (word "variant_record_t"),
    .leaf (word "mutation_pool"), .leaf (.punct '['), .leaf (word "POOL_SIZE"), .leaf (.punct ']'),
    .leaf (.punct '='), .group (entries.flatMap fun e => [recordTree e, .leaf (.punct ',')])]

/-- All of them. -/
def headerDecls (entries : Entries) : List (List Tree) :=
  entries.map arrayDecl ++ [typedefDecl, tableDecl entries]

theorem braces_not_mem_byteTokens (data : Bytes) :
    Token.punct '\x7b' ∉ byteTokens data ∧ Token.punct '\x7d' ∉ byteTokens data := by
  refine ⟨fun hmem => ?_, fun hmem => ?_⟩
  all_goals
    rcases CText.mem_of_mem_intersperse hmem with heq | hmem
    · cases heq
    · obtain ⟨b, -, heq⟩ := List.mem_map.1 hmem
      cases heq

theorem isDirective_byteTokens (data : Bytes) : CText.isDirective (byteTokens data) = false := by
  refine decide_eq_false fun hhead => ?_
  have hmem := List.mem_of_mem_head? hhead
  rcases CText.mem_of_mem_intersperse hmem with heq | hmem
  · cases heq
  · obtain ⟨b, -, heq⟩ := List.mem_map.1 hmem
    cases heq

/-- The braces of an array. -/
theorem nests_array (e : Variant × Bytes) :
    Nests (CText.code (arrayLines e.1 e.2)) (arrayDecl e ++ [.leaf (.punct ';')]) := by
  have hcode : CText.code (arrayLines e.1 e.2) =
      ([word "static", word "const", word "uint8_t", word (dataName e.1.id), .punct '[', .punct ']',
        .punct '='] ++ (.punct '\x7b' :: (byteTokens e.2 ++ [.punct '\x7d']))) ++ [.punct ';'] := by
    rw [arrayLines, CText.code_cons rfl, CText.code_cons rfl,
      CText.code_cons (isDirective_byteTokens e.2), CText.code_cons rfl, CText.code_cons rfl]
    simp [CText.code]
  have hfront : Nests [word "static", word "const", word "uint8_t", word (dataName e.1.id),
      .punct '[', .punct ']', .punct '='] _ := Nests.leaves (by simp [word])
  have hend : Nests [.punct ';'] _ := Nests.leaves (by decide)
  rw [hcode]
  exact (hfront.append (Nests.group (Nests.leaves (braces_not_mem_byteTokens e.2)))).append hend

/-- The braces of a line of the table. -/
theorem nests_record (e : Variant × Bytes) :
    Nests (recordLine e.1) [recordTree e, .leaf (.punct ',')] := by
  have hfields : Nests (recordTokens e.1) ((recordTokens e.1).map .leaf) :=
    Nests.leaves (by simp [recordTokens, word])
  have hcomma : Nests [.punct ','] _ := Nests.leaves (by decide)
  simpa [recordLine, recordTree] using hfields.group.append hcomma

/-- The type, on one line. -/
def typedefTokens : List Token :=
  [word "typedef", word "struct", .punct '\x7b', word "int", word "id", .punct ';', word "const",
    word "uint8_t", .punct '*', word "data", .punct ';', word "int", word "size", .punct ';',
    word "const", word "char", .punct '*', word "hash", .punct ';', .punct '\x7d',
    word "variant_record_t", .punct ';']

theorem nests_typedef : Nests typedefTokens (typedefDecl ++ [.leaf (.punct ';')]) := by
  intro top stack rest
  simp [typedefTokens, CText.nest, CText.Stack.push, CText.Stack.close, typedefDecl, word]

/-- **The braces of the header.** -/
theorem nests_header (entries : Entries) :
    Nests (CText.code (headerLines entries ++ [[]]))
      ((headerDecls entries).flatMap (· ++ [.leaf (.punct ';')])) := by
  have harrays : Nests (entries.flatMap fun e => CText.code (arrayLines e.1 e.2))
      (entries.flatMap fun e => arrayDecl e ++ [.leaf (.punct ';')]) :=
    Nests.flatMap fun e _ => nests_array e
  have htable : Nests [word "static", word "const", word "variant_record_t", word "mutation_pool",
      .punct '[', word "POOL_SIZE", .punct ']', .punct '='] _ := Nests.leaves (by simp [word])
  have hrecords : Nests (entries.flatMap fun e => recordLine e.1)
      (entries.flatMap fun e => [recordTree e, .leaf (.punct ',')]) :=
    Nests.flatMap fun e _ => nests_record e
  have hend : Nests [.punct ';'] _ := Nests.leaves (by decide)
  have hall := (harrays.append nests_typedef).append ((htable.append hrecords.group).append hend)
  have hpreamble : CText.code (preambleLines entries.length) = [] := by rfl
  have htypedef : CText.code typedefLines = typedefTokens ++ [word "static", word "const",
      word "variant_record_t", word "mutation_pool", .punct '[', word "POOL_SIZE", .punct ']',
      .punct '=', .punct '\x7b'] := by rfl
  have hrecord : ∀ e : Variant × Bytes, CText.code [recordLine e.1] = recordLine e.1 := fun e =>
    (CText.code_cons rfl []).trans (List.append_nil _)
  have hends : CText.code (endLines ++ [[]]) = [.punct '\x7d', .punct ';'] := by rfl
  have hcode : CText.code (headerLines entries ++ [[]]) =
      (entries.flatMap fun e => CText.code (arrayLines e.1 e.2)) ++ typedefTokens ++
        ([word "static", word "const", word "variant_record_t", word "mutation_pool", .punct '[',
          word "POOL_SIZE", .punct ']', .punct '='] ++
          (.punct '\x7b' :: ((entries.flatMap fun e => recordLine e.1) ++ [.punct '\x7d'])) ++
            [.punct ';']) := by
    rw [headerLines, List.append_assoc _ endLines, CText.code_append, CText.code_append,
      CText.code_append, CText.code_append, CText.code_flatMap, CText.code_flatMap, hpreamble,
      htypedef, hends]
    simp [hrecord]
  rw [hcode]
  simpa [headerDecls, tableDecl, List.flatMap_map] using hall

/-- The declarations end at the semicolons. -/
theorem declarations_header (entries : Entries) :
    CText.declarations ((headerDecls entries).flatMap (· ++ [.leaf (.punct ';')])) =
      some (headerDecls entries) := by
  refine CText.declarations_flatMap fun d hd => ?_
  rcases List.mem_append.1 hd with hd | hd
  · obtain ⟨e, -, rfl⟩ := List.mem_map.1 hd
    simp [arrayDecl, Tree.isPunct, word]
  · simp only [List.mem_cons, List.not_mem_nil, or_false] at hd
    rcases hd with rfl | rfl
    · simp [typedefDecl, Tree.isPunct, word]
    · simp [tableDecl, Tree.isPunct, word]

/-! ## What is read -/

theorem hexValue_hexDigit {k : ℕ} (hk : k < 16) :
    CText.hexValue (hexDigits.getD k '0') = some k := by
  have hall : ∀ k < 16, CText.hexValue (hexDigits.getD k '0') = some k := by decide
  exact hall k hk

/-- **A byte is read back.** -/
theorem byteValue_hexByte (b : UInt8) : byteValue (.leaf (word (hexByte b))) = some b := by
  have hlt := b.toNat_lt
  have hnumber : CText.number (hexByte b).toList = some b.toNat := by
    rw [toList_hexByte, CText.number, CText.hexNumber, List.foldlM_cons,
      hexValue_hexDigit (by omega), Option.map_some, Option.bind_eq_bind, Option.bind_some,
      List.foldlM_cons, hexValue_hexDigit (by omega), Option.map_some, Option.bind_eq_bind,
      Option.bind_some, List.foldlM_nil]
    exact congrArg some (by omega)
  rw [word, byteValue, hnumber, Option.map_some, UInt8.ofNat_toNat]

/-- **An array is read back**, under its name. -/
theorem readArray_arrayDecl (e : Variant × Bytes) :
    readArray (arrayDecl e) = some ((dataName e.1.id).toList, e.2) := by
  have hitems : CText.items ((byteTokens e.2).map .leaf) =
      some (e.2.map fun b => .leaf (word (hexByte b))) := by
    rw [byteTokens, CText.map_intersperse, List.map_map]
    refine CText.items_intersperse fun t ht => ?_
    obtain ⟨b, -, rfl⟩ := List.mem_map.1 ht
    rfl
  have hbytes : (e.2.map fun b => Tree.leaf (word (hexByte b))).mapM byteValue = some e.2 := by
    rw [List.mapM_map]
    exact (Fallible.mapM_of_forall fun b _ => byteValue_hexByte b).trans
      (congrArg some (List.map_id _))
  have hread : readArray (arrayDecl e) = (CText.items ((byteTokens e.2).map .leaf)).bind
      fun values => (values.mapM byteValue).bind fun bytes =>
        some ((dataName e.1.id).toList, bytes) := by
    simp only [arrayDecl, readArray, word, and_self, if_true, Option.bind_eq_bind]
  rw [hread, hitems, Option.bind_some, hbytes, Option.bind_some]

theorem number_toString (n : ℕ) : CText.number (toString n).toList = some n := by
  rw [toList_toString, CText.number_toDigits]

/-- What a line of the table says. -/
def Variant.line (var : Variant) : Line := ⟨var.id, (dataName var.id).toList, var.size, var.hash⟩

/-- **A line of the table is read back.** -/
theorem readLine_recordTree (e : Variant × Bytes) : readLine (recordTree e) = some e.1.line := by
  have hitems : CText.items ((recordTokens e.1).map .leaf) =
      some [.leaf (word (toString e.1.id)), .leaf (word (dataName e.1.id)),
        .leaf (word (toString e.1.size)), .leaf (.str e.1.hash.toList)] := rfl
  rw [recordTree, readLine, hitems]
  simp [word, CText.number_toDigits, Variant.line]

/-- **The table is read back.** -/
theorem readTable_tableDecl (entries : Entries) :
    readTable (tableDecl entries) = some (entries.map fun e => e.1.line) := by
  have hitems : CText.items (entries.flatMap fun e => [recordTree e, .leaf (.punct ',')]) =
      some (entries.map recordTree) := by
    have hended := @CText.items_ended (entries.map recordTree) fun t ht => by
      obtain ⟨e, -, rfl⟩ := List.mem_map.1 ht
      rfl
    rwa [List.flatMap_map] at hended
  have hlines : (entries.map recordTree).mapM readLine = some (entries.map fun e => e.1.line) := by
    rw [List.mapM_map]
    exact Fallible.mapM_of_forall fun e _ => readLine_recordTree e
  have hread : readTable (tableDecl entries) = (CText.items (entries.flatMap fun e =>
      [recordTree e, .leaf (.punct ',')])).bind fun table => table.mapM readLine := by
    simp only [tableDecl, readTable, word, and_self, if_true, Option.bind_eq_bind]
  rw [hread, hitems, Option.bind_some, hlines]

/-- The arrays, by name. -/
theorem arrays_headerDecls (entries : Entries) :
    (headerDecls entries).filterMap readArray =
      entries.map fun e => ((dataName e.1.id).toList, e.2) := by
  have hrest : [typedefDecl, tableDecl entries].filterMap readArray = [] := by rfl
  have hread : readArray ∘ arrayDecl = some ∘ fun e => ((dataName e.1.id).toList, e.2) :=
    funext readArray_arrayDecl
  rw [headerDecls, List.filterMap_append, List.filterMap_map, hrest, List.append_nil, hread,
    List.filterMap_eq_map]

/-- The table. -/
theorem table_headerDecls (entries : Entries) :
    (headerDecls entries).findSome? readTable = some (entries.map fun e => e.1.line) := by
  have harrays : (entries.map arrayDecl).findSome? readTable = none := by
    refine List.findSome?_eq_none_iff.2 fun d hd => ?_
    obtain ⟨e, -, rfl⟩ := List.mem_map.1 hd
    rfl
  have htypedef : readTable typedefDecl = none := by rfl
  rw [headerDecls, List.findSome?_append, harrays, Option.none_or, List.findSome?_cons, htypedef]
  simp only [List.findSome?_cons, readTable_tableDecl]

/-- No two arrays have one name. -/
theorem dataName_injective : Function.Injective fun id => (dataName id).toList := fun _ _ h =>
  eq_of_numbered (String.toList_injective h)

/-- Every name of the table is that of an array. -/
theorem resolve_headerDecls {entries : Entries} (hids : (entries.map (·.1.id)).Nodup) :
    (entries.map fun e => e.1.line).mapM
        (Line.resolve ((headerDecls entries).filterMap readArray)) =
      some (entries.map fun e => ⟨e.1.id, e.2, e.1.size, e.1.hash⟩) := by
  rw [arrays_headerDecls, List.mapM_map]
  refine Fallible.mapM_of_forall fun e he => ?_
  have hnodup : ((entries.map fun e => ((dataName e.1.id).toList, e.2)).map Prod.fst).Nodup := by
    rw [List.map_map]
    have hnames := List.Nodup.map dataName_injective hids
    rwa [List.map_map] at hnames
  have hmem : ((dataName e.1.id).toList, e.2) ∈
      entries.map fun e => ((dataName e.1.id).toList, e.2) := List.mem_map.2 ⟨e, he, rfl⟩
  rw [Function.comp_apply, Line.resolve, Variant.line, Fallible.lookup_of_mem hnodup hmem]
  rfl

/-- **The header is read back.** -/
theorem readHeader_eq {entries : Entries} (hids : (entries.map (·.1.id)).Nodup)
    (hplain : ∀ e ∈ entries, e.1.Plain) :
    readHeader (String.join (headerPieces entries)) =
      some (entries.length, entries.map fun e => ⟨e.1.id, e.2, e.1.size, e.1.hash⟩) := by
  have htokens := (written_header hplain).tokens_eq
  have hlines := CText.lines_ofLines (newline_not_mem_headerLines entries)
  have hsize : readPoolSize (headerLines entries ++ [[]]) = some entries.length := by
    rw [readPoolSize, definition_headerLines]
    exact number_toString entries.length
  simp only [readHeader, htokens, Option.bind_eq_bind, Option.bind_some, hlines, hsize,
    (nests_header entries).nest_eq, declarations_header, table_headerDecls,
    resolve_headerDecls hids]

/-! ## The round trip -/

/-- A manifest that can be packaged, with the files there. -/
structure Manifest.Packable (manifest : Manifest) (files : Files) : Prop where
  ids : (manifest.variants.map (·.id)).Nodup
  hashes : ∀ var ∈ manifest.variants, var.Plain
  present : ∀ var ∈ manifest.variants, (files var.path).isSome

/-- What the header is to say of an entry. -/
def Variant.record (files : Files) (var : Variant) : Record :=
  ⟨var.id, (files var.path).getD [], var.size, var.hash⟩

/-- Where all files are there, these are the pieces. -/
theorem packageHeader_eq {manifest : Manifest} {files : Files}
    (h : ∀ var ∈ manifest.variants, (files var.path).isSome) :
    packageHeader manifest files =
      some (headerPieces (manifest.variants.map fun var => (var, (files var.path).getD []))) := by
  have harrays : manifest.variants.mapM (fun var => (files var.path).map (arrayText var)) =
      some (manifest.variants.map fun var => arrayText var ((files var.path).getD [])) := by
    refine Fallible.mapM_of_forall fun var hvar => ?_
    obtain ⟨data, hdata⟩ := Option.isSome_iff_exists.1 (h var hvar)
    rw [hdata]
    rfl
  rw [packageHeader, harrays, Option.bind_eq_bind, Option.bind_some, headerPieces, List.length_map,
    List.flatMap_map, List.flatMap_map]
  rfl

/-- **A packable manifest is packaged, and read back.** -/
theorem packaged_of_packable {manifest : Manifest} {files : Files} (h : manifest.Packable files) :
    ∃ pieces, packageHeader manifest files = some pieces ∧
      readHeader (String.join pieces) =
        some (manifest.variants.length, manifest.variants.map (·.record files)) := by
  refine ⟨_, packageHeader_eq h.present, ?_⟩
  rw [readHeader_eq, List.length_map, List.map_map]
  · rfl
  · rw [List.map_map]
    exact h.ids
  · intro e he
    obtain ⟨var, hvar, rfl⟩ := List.mem_map.1 he
    exact h.hashes var hvar

/-- The files of a pool of two. -/
def twoFiles (path : String) : Option Bytes :=
  if path = "v0.bin" then some workText else some [0xC3]

end Pool

end HkSystem
