import Mathlib.Data.List.Basic
/-!
# Reading a C text

A reader for the part of C that a table of constants is written in. A scanner goes
over the text character by character for words, string literals without escapes,
punctuation, and comments, which are skipped; what it makes of a text is put together
from what it makes of the pieces it was written in (`Written`), as long as a piece
ends outside a word. The tokens come in lines, of which the directives are set aside
(`code`, `definition`); braces and brackets nest them to trees (`Nests`), and
semicolons and commas cut these into declarations and items.
-/

namespace HkSystem

namespace CText

/-- A token of C, as far as a header with tables needs them. -/
inductive Token where
  | newline
  /-- A name or a number. -/
  | word (chars : List Char)
  | str (chars : List Char)
  | punct (c : Char)
  deriving DecidableEq

/-- Where the scanner is. -/
inductive Mode where
  | plain
  | word (chars : List Char)
  | str (chars : List Char)
  /-- After a slash, which may open a comment. -/
  | slash
  | comment
  /-- After a star in a comment, which may close it. -/
  | star
  deriving DecidableEq

/-- Digits, letters and the underscore. -/
def isWordChar (c : Char) : Bool :=
  let n := c.toNat
  (48 ≤ n && n ≤ 57) || (65 ≤ n && n ≤ 90) || (97 ≤ n && n ≤ 122) || n == 95

/-- A character outside words, strings and comments. -/
def fresh (c : Char) : List Token × Mode :=
  if isWordChar c then ([], .word [c])
  else if c = '\n' then ([.newline], .plain)
  else if c.isWhitespace then ([], .plain)
  else if c = '\x22' then ([], .str [])
  else if c = '/' then ([], .slash)
  else ([.punct c], .plain)

/-- One character: the tokens it completes, and where the scanner is then. A string
with an escape or a line break in it is not read. -/
def advance : Mode → Char → Option (List Token × Mode)
  | .plain, c => some (fresh c)
  | .word w, c =>
    if isWordChar c then some ([], .word (w ++ [c])) else some (.word w :: (fresh c).1, (fresh c).2)
  | .str s, c =>
    if c = '\x22' then some ([.str s], .plain)
    else if c = '\n' ∨ c = '\x5c' then none
    else some ([], .str (s ++ [c]))
  | .slash, c =>
    if c = '*' then some ([], .comment) else some (.punct '/' :: (fresh c).1, (fresh c).2)
  | .comment, c => some ([], if c = '*' then .star else .comment)
  | .star, c => some ([], if c = '/' then .plain else if c = '*' then .star else .comment)

/-- The scanner, from a mode: the tokens that are complete, and the mode it ends in. -/
def scan : Mode → List Char → Option (List Token × Mode)
  | m, [] => some ([], m)
  | m, c :: cs =>
    (advance m c).bind fun r => (scan r.2 cs).map fun r' => (r.1 ++ r'.1, r'.2)

/-- The end of the text. -/
def flush : Mode → Option (List Token)
  | .plain => some []
  | .word w => some [.word w]
  | .slash => some [.punct '/']
  | .str _ | .comment | .star => none

/-- All tokens of a text, with the word that may be open at its end. -/
def tokens (text : List Char) : Option (List Token) :=
  (scan .plain text).bind fun r => (flush r.2).map (r.1 ++ ·)

/-! ## Piece by piece -/

/-- One character, and the rest. -/
theorem scan_cons {m m' m'' : Mode} {c : Char} {cs : List Char} {ts us : List Token}
    (hc : advance m c = some (ts, m')) (hcs : scan m' cs = some (us, m'')) :
    scan m (c :: cs) = some (ts ++ us, m'') := by
  rw [scan, hc, Option.bind_some, hcs, Option.map_some]

/-- **Scanning one text after the other.** -/
theorem scan_append {m m' m'' : Mode} {xs ys : List Char} {ts us : List Token}
    (hx : scan m xs = some (ts, m')) (hy : scan m' ys = some (us, m'')) :
    scan m (xs ++ ys) = some (ts ++ us, m'') := by
  induction xs generalizing m ts with
  | nil =>
    obtain ⟨rfl, rfl⟩ := Prod.mk.inj (Option.some.inj hx)
    exact hy
  | cons c xs ih =>
    obtain ⟨⟨t, m₁⟩, hc, hrest⟩ := Option.bind_eq_some_iff.1 hx
    obtain ⟨⟨t', m₂⟩, hxs, heq⟩ := Option.map_eq_some_iff.1 hrest
    obtain ⟨rfl, rfl⟩ := Prod.mk.inj heq
    rw [List.append_assoc]
    exact scan_cons hc (ih hxs)

/-- A text given as a literal. -/
theorem scan_literal {s : String} {text : List Char} {m : Mode} {r : Option (List Token × Mode)}
    (hs : s = String.ofList text) (h : scan m text = r) : scan m s.toList = r := by
  rwa [hs, String.toList_ofList]

/-- **A piece of text** that the scanner enters and leaves outside words, strings and
comments, with its tokens. -/
def Scans (text : List Char) (ts : List Token) : Prop := scan .plain text = some (ts, .plain)

instance (text : List Char) (ts : List Token) : Decidable (Scans text ts) :=
  inferInstanceAs (Decidable (_ = _))

theorem Scans.nil : Scans [] [] := rfl

/-- Texts that scan by themselves scan one after the other. -/
theorem Scans.append {text text' : List Char} {ts ts' : List Token} (h : Scans text ts)
    (h' : Scans text' ts') : Scans (text ++ text') (ts ++ ts') :=
  scan_append h h'

/-- These are then all its tokens. -/
theorem Scans.tokens_eq {text : List Char} {ts : List Token} (h : Scans text ts) :
    tokens text = some ts := by
  rw [tokens, h, Option.bind_some]
  exact congrArg some (List.append_nil ts)

/-! ## Words, strings and comments -/

/-- In a word. -/
theorem scan_word {w cs : List Char} (h : ∀ c ∈ cs, isWordChar c = true) :
    scan (.word w) cs = some ([], .word (w ++ cs)) := by
  induction cs generalizing w with
  | nil => rw [scan, List.append_nil]
  | cons c cs ih =>
    have hc : advance (.word w) c = some ([], .word (w ++ [c])) := by
      rw [advance, if_pos (h c (List.mem_cons_self ..))]
    rw [List.append_cons]
    exact scan_cons hc (ih fun d hd => h d (List.mem_cons_of_mem _ hd))

/-- A text that does not go on with a word. -/
def Ends (text : List Char) : Prop := ∃ c cs, text = c :: cs ∧ isWordChar c = false

theorem Ends.append {text : List Char} (h : Ends text) (text' : List Char) :
    Ends (text ++ text') := by
  obtain ⟨c, cs, rfl, hc⟩ := h
  exact ⟨c, cs ++ text', rfl, hc⟩

/-- **A word**, in front of a text that does not go on with it. -/
theorem Scans.word {w text : List Char} {ts : List Token} (hne : w ≠ [])
    (h : ∀ x ∈ w, isWordChar x = true) (hend : Ends text) (htext : Scans text ts) :
    Scans (w ++ text) (.word w :: ts) := by
  obtain ⟨c, cs, rfl, hc⟩ := hend
  rcases w with _ | ⟨x, w⟩
  · exact absurd rfl hne
  have hstart : scan .plain [x] = some ([], .word [x]) := by
    rw [scan, advance, fresh, if_pos (h x (List.mem_cons_self ..))]
    rfl
  have hword := scan_append hstart (scan_word fun y hy => h y (List.mem_cons_of_mem x hy))
  obtain ⟨⟨us, m⟩, hcs, heq⟩ := Option.map_eq_some_iff.1 htext
  obtain ⟨rfl, rfl⟩ := Prod.mk.inj heq
  have hend : advance (.word (x :: w)) c = some (.word (x :: w) :: (fresh c).1, (fresh c).2) := by
    rw [advance, if_neg (by simp [hc])]
  exact scan_append hword (scan_cons hend hcs)

/-- In a string. -/
theorem scan_str {s cs : List Char} (h : ∀ c ∈ cs, c ≠ '\x22' ∧ c ≠ '\n' ∧ c ≠ '\x5c') :
    scan (.str s) cs = some ([], .str (s ++ cs)) := by
  induction cs generalizing s with
  | nil => rw [scan, List.append_nil]
  | cons c cs ih =>
    obtain ⟨hquote, hline, hescape⟩ := h c (List.mem_cons_self ..)
    have hc : advance (.str s) c = some ([], .str (s ++ [c])) := by
      rw [advance, if_neg hquote, if_neg (not_or.2 ⟨hline, hescape⟩)]
    rw [List.append_cons]
    exact scan_cons hc (ih fun d hd => h d (List.mem_cons_of_mem _ hd))

/-- In a comment. -/
theorem scan_comment {cs : List Char} (h : ∀ c ∈ cs, c ≠ '*') :
    scan .comment cs = some ([], .comment) := by
  induction cs with
  | nil => rfl
  | cons c cs ih =>
    have hc : advance .comment c = some ([], .comment) := by
      rw [advance, if_neg (h c (List.mem_cons_self ..))]
    exact scan_cons hc (ih fun d hd => h d (List.mem_cons_of_mem _ hd))

/-! ## Texts written in pieces -/

/-- **A text written piece by piece**, with its tokens. -/
def Written (pieces : List String) (ts : List Token) : Prop :=
  Scans (pieces.flatMap String.toList) ts

section Pieces

variable {s : String} {pieces pieces' : List String} {ts ts' : List Token}

theorem Written.nil : Written [] [] := Scans.nil

/-- Pieces after pieces. -/
theorem Written.append (h : Written pieces ts) (h' : Written pieces' ts') :
    Written (pieces ++ pieces') (ts ++ ts') := by
  rw [Written, List.flatMap_append]
  exact Scans.append h h'

/-- A piece that is scanned by itself. -/
theorem Written.cons (h : Scans s.toList ts) (h' : Written pieces ts') :
    Written (s :: pieces) (ts ++ ts') :=
  Scans.append h h'

/-- A literal that does not start as a word ends the one in front of it. -/
theorem Ends.front {c : Char} {cs : List Char} (hs : s = String.ofList (c :: cs))
    (hc : isWordChar c = false) (pieces : List String) :
    Ends ((s :: pieces).flatMap String.toList) :=
  Ends.append ⟨c, cs, by rw [hs, String.toList_ofList], hc⟩ _

/-- A piece that is a word. -/
theorem Written.word (hne : s.toList ≠ []) (hs : ∀ c ∈ s.toList, isWordChar c = true)
    (hend : Ends (pieces.flatMap String.toList)) (h : Written pieces ts) :
    Written (s :: pieces) (.word s.toList :: ts) :=
  Scans.word hne hs hend h

/-- A piece of text for each element of a list. -/
theorem Written.flatMap {α : Type*} {f : α → List String} {g : α → List Token} {l : List α}
    (h : ∀ a ∈ l, Written (f a) (g a)) : Written (l.flatMap f) (l.flatMap g) := by
  induction l with
  | nil => exact Written.nil
  | cons a l ih =>
    rw [List.flatMap_cons, List.flatMap_cons]
    exact (h a (List.mem_cons_self ..)).append (ih fun b hb => h b (List.mem_cons_of_mem _ hb))

/-- **The text as a whole** has the tokens. -/
theorem Written.tokens_eq (h : Written pieces ts) :
    tokens (String.join pieces).toList = some ts := by
  rw [String.toList_join]
  exact Scans.tokens_eq h

end Pieces

/-! ## Numbers -/

/-- The value of a hexadecimal digit. -/
def hexValue (c : Char) : Option ℕ :=
  if c.isDigit then some (c.toNat - 48)
  else if 'a' ≤ c ∧ c ≤ 'f' then some (c.toNat - 87)
  else if 'A' ≤ c ∧ c ≤ 'F' then some (c.toNat - 55)
  else none

/-- The value of a row of them. -/
def hexNumber (digits : List Char) : Option ℕ :=
  digits.foldlM (fun n c => (hexValue c).map (16 * n + ·)) 0

/-- The value of a number. One in octal, with zeros in front, is not read. -/
def number : List Char → Option ℕ
  | ['0'] => some 0
  | '0' :: 'x' :: digit :: digits => hexNumber (digit :: digits)
  | '0' :: _ => none
  | digits =>
    if digits ≠ [] ∧ digits.all Char.isDigit then some (Nat.ofDigitChars 10 digits 0) else none

/-- A positive number in decimal does not start with a zero. -/
theorem toDigits_head {n : ℕ} (hn : n ≠ 0) {c : Char} {cs : List Char}
    (h : Nat.toDigits 10 n = c :: cs) : c ≠ '0' := by
  induction n using Nat.strongRecOn generalizing c cs with
  | ind n ih =>
    rw [Nat.toDigits_eq_if (by decide)] at h
    split at h
    next hlt =>
      obtain ⟨rfl, -⟩ := List.cons.inj h
      have hdigit : ∀ n < 10, n ≠ 0 → Nat.digitChar n ≠ '0' := by decide
      exact hdigit n hlt hn
    next hge =>
      rcases hq : Nat.toDigits 10 (n / 10) with _ | ⟨d, ds⟩
      · exact absurd hq Nat.toDigits_ne_nil
      · rw [hq, List.cons_append] at h
        obtain ⟨rfl, -⟩ := List.cons.inj h
        exact ih (n / 10) (by omega) (by omega) hq

/-- **Decimal numbers are read back.** -/
theorem number_toDigits (n : ℕ) : number (Nat.toDigits 10 n) = some n := by
  rcases Nat.eq_zero_or_pos n with rfl | hn
  · decide
  rcases hd : Nat.toDigits 10 n with _ | ⟨c, cs⟩
  · exact absurd hd Nat.toDigits_ne_nil
  have hzero := toDigits_head (Nat.pos_iff_ne_zero.1 hn) hd
  have hall : (c :: cs).all Char.isDigit := by
    rw [List.all_eq_true, ← hd]
    exact fun x hx => Nat.isDigit_of_mem_toDigits (by decide) (by decide) hx
  have hvalue : Nat.ofDigitChars 10 (c :: cs) 0 = n := by
    rw [← hd]
    exact Nat.ofDigitChars_ten_toDigits
  unfold number
  split
  next heq => exact absurd (List.cons.inj heq).1 hzero
  next heq => exact absurd (List.cons.inj heq).1 hzero
  next heq => exact absurd (List.cons.inj heq).1 hzero
  · rw [if_pos ⟨List.cons_ne_nil _ _, hall⟩, hvalue]

/-- Digits are of a word, and close no comment. -/
theorem isWordChar_of_mem_toDigits {n : ℕ} {c : Char} (h : c ∈ Nat.toDigits 10 n) :
    isWordChar c = true := by
  have hdigit := Nat.isDigit_of_mem_toDigits (by decide) (by decide) h
  have hbounds : 48 ≤ c.toNat ∧ c.toNat ≤ 57 := by
    simpa [Char.isDigit, UInt32.le_iff_toNat_le] using hdigit
  simp [isWordChar, hbounds]

/-- A character of a word is not one that ends it. -/
theorem ne_of_isWordChar {c d : Char} (h : isWordChar c = true) (hd : isWordChar d = false) :
    c ≠ d := by
  rintro rfl
  rw [h] at hd
  cases hd

/-! ## Lines -/

/-- The tokens between line breaks. -/
def lines : List Token → List (List Token)
  | [] => [[]]
  | .newline :: ts => [] :: lines ts
  | t :: ts =>
    match lines ts with
    | [] => [[t]]
    | line :: rest => (t :: line) :: rest

/-- Lines, each ended. -/
def ofLines (ls : List (List Token)) : List Token := ls.flatMap (· ++ [.newline])

theorem ofLines_append (ls ls' : List (List Token)) :
    ofLines (ls ++ ls') = ofLines ls ++ ofLines ls' :=
  List.flatMap_append

theorem ofLines_flatMap {α : Type*} (f : α → List (List Token)) (l : List α) :
    ofLines (l.flatMap f) = l.flatMap fun a => ofLines (f a) :=
  List.flatMap_assoc

/-- A line, and those after it. -/
theorem lines_append {line : List Token} (h : .newline ∉ line) (ts : List Token) :
    lines (line ++ .newline :: ts) = line :: lines ts := by
  induction line with
  | nil => rfl
  | cons t line ih =>
    rw [List.cons_append, lines, ih fun hmem => h (List.mem_cons_of_mem t hmem)]
    rintro rfl
    exact h (List.mem_cons_self ..)

/-- **What was ended as lines is read as lines.** -/
theorem lines_ofLines {ls : List (List Token)} (h : ∀ line ∈ ls, Token.newline ∉ line) :
    lines (ofLines ls) = ls ++ [[]] := by
  induction ls with
  | nil => rfl
  | cons line ls ih =>
    have hcons : ofLines (line :: ls) = line ++ .newline :: ofLines ls := by simp [ofLines]
    rw [hcons, lines_append (h line (List.mem_cons_self ..)),
      ih fun l hl => h l (List.mem_cons_of_mem _ hl), List.cons_append]

/-- A line for the preprocessor. -/
def isDirective (line : List Token) : Bool := decide (line.head? = some (.punct '#'))

/-- What the preprocessor leaves, if it replaces nothing. -/
def code (ls : List (List Token)) : List Token := (ls.filter fun line => !isDirective line).flatten

/-- A line that is no directive is code. -/
theorem code_cons {line : List Token} (h : isDirective line = false) (ls : List (List Token)) :
    code (line :: ls) = line ++ code ls := by
  rw [code, List.filter_cons_of_pos (by rw [h]; rfl), List.flatten_cons]
  rfl

theorem code_append (ls ls' : List (List Token)) : code (ls ++ ls') = code ls ++ code ls' := by
  simp [code]

theorem code_flatMap {α : Type*} (f : α → List (List Token)) (l : List α) :
    code (l.flatMap f) = l.flatMap fun a => code (f a) := by
  induction l with
  | nil => rfl
  | cons a l ih => rw [List.flatMap_cons, List.flatMap_cons, code_append, ih]

/-- What a name is defined as. -/
def definition (name : List Char) (ls : List (List Token)) : Option (List Token) :=
  ls.findSome? fun line =>
    match line with
    | .punct '#' :: .word directive :: .word defined :: body =>
      if directive = "define".toList ∧ defined = name then some body else none
    | _ => none

/-- What is defined stays defined. -/
theorem definition_append {name : List Char} {ls : List (List Token)} {body : List Token}
    (h : definition name ls = some body) (ls' : List (List Token)) :
    definition name (ls ++ ls') = some body := by
  rw [definition, List.findSome?_append]
  rw [definition] at h
  rw [h]
  rfl

/-! ## Braces -/

/-- Tokens, those between braces put together. -/
inductive Tree where
  | leaf (t : Token)
  | group (trees : List Tree)

/-- The groups that are open, each with what it has so far. -/
abbrev Stack := List (List Tree)

/-- A tree added to the innermost open group. -/
def Stack.push (t : Tree) : Stack → Option Stack
  | [] => none
  | top :: stack => some ((top ++ [t]) :: stack)

/-- A closing brace makes a group of what is on top. -/
def Stack.close : Stack → Option Stack
  | [] => none
  | top :: stack => Stack.push (.group top) stack

/-- The groups of some tokens. -/
def nest : Stack → List Token → Option (List Tree)
  | stack, [] => if stack.length = 1 then stack.head? else none
  | stack, t :: ts =>
    if t = .punct '\x7b' then nest ([] :: stack) ts
    else if t = .punct '\x7d' then stack.close.bind (nest · ts)
    else (stack.push (.leaf t)).bind (nest · ts)

/-- **A piece with its braces in pairs**, wherever it stands. -/
def Nests (ts : List Token) (trees : List Tree) : Prop :=
  ∀ top stack rest, nest (top :: stack) (ts ++ rest) = nest ((top ++ trees) :: stack) rest

theorem Nests.nil : Nests [] [] := fun top stack rest => by simp

/-- Balanced text after balanced text. -/
theorem Nests.append {ts ts' : List Token} {trees trees' : List Tree} (h : Nests ts trees)
    (h' : Nests ts' trees') : Nests (ts ++ ts') (trees ++ trees') := by
  intro top stack rest
  rw [List.append_assoc, h, h', List.append_assoc]

/-- Tokens without braces are leaves. -/
theorem Nests.leaves {ts : List Token} (h : .punct '\x7b' ∉ ts ∧ .punct '\x7d' ∉ ts) :
    Nests ts (ts.map .leaf) := by
  intro top stack rest
  induction ts generalizing top with
  | nil => simp
  | cons t ts ih =>
    obtain ⟨hopen, hclose⟩ := h
    have hne : t ≠ .punct '\x7b' := fun heq => hopen (heq ▸ List.mem_cons_self ..)
    have hne' : t ≠ .punct '\x7d' := fun heq => hclose (heq ▸ List.mem_cons_self ..)
    rw [List.cons_append, nest, if_neg hne, if_neg hne', Stack.push, Option.bind_some]
    rw [ih ⟨fun h => hopen (List.mem_cons_of_mem t h), fun h => hclose (List.mem_cons_of_mem t h)⟩]
    simp

/-- Balanced text between braces is a group. -/
theorem Nests.group {ts : List Token} {trees : List Tree} (h : Nests ts trees) :
    Nests (.punct '\x7b' :: (ts ++ [.punct '\x7d'])) [.group trees] := by
  intro top stack rest
  rw [List.cons_append, nest, if_pos rfl, List.append_assoc, h, List.singleton_append, nest,
    if_neg (by decide), if_pos rfl]
  rfl

theorem Nests.flatMap {α : Type*} {f : α → List Token} {g : α → List Tree} {l : List α}
    (h : ∀ a ∈ l, Nests (f a) (g a)) : Nests (l.flatMap f) (l.flatMap g) := by
  induction l with
  | nil => exact Nests.nil
  | cons a l ih =>
    rw [List.flatMap_cons, List.flatMap_cons]
    exact (h a (List.mem_cons_self ..)).append (ih fun b hb => h b (List.mem_cons_of_mem _ hb))

/-- These are then all its trees. -/
theorem Nests.nest_eq {ts : List Token} {trees : List Tree} (h : Nests ts trees) :
    nest [[]] ts = some trees := by
  have hall := h [] [] []
  rw [List.append_nil] at hall
  rw [hall]
  rfl

/-! ## Declarations and initialisers -/

/-- The tree is this one punctuation mark. -/
def Tree.isPunct (c : Char) : Tree → Bool
  | .leaf (.punct d) => decide (d = c)
  | _ => false

/-- The declarations, each up to its semicolon. What is left without one is none. -/
def declarations : List Tree → Option (List (List Tree))
  | [] => some []
  | t :: ts =>
    if t.isPunct ';' then (declarations ts).map ([] :: ·)
    else
      match declarations ts with
      | some (d :: ds) => some ((t :: d) :: ds)
      | _ => none

/-- A declaration, and those after it. -/
theorem declarations_append {d ts : List Tree} (h : ∀ t ∈ d, t.isPunct ';' = false)
    {ds : List (List Tree)} (hts : declarations ts = some ds) :
    declarations (d ++ .leaf (.punct ';') :: ts) = some (d :: ds) := by
  induction d with
  | nil =>
    rw [List.nil_append, declarations, if_pos (by rfl), hts]
    rfl
  | cons t d ih =>
    rw [List.cons_append, declarations, if_neg (by simp [h t (List.mem_cons_self ..)]),
      ih fun u hu => h u (List.mem_cons_of_mem t hu)]

/-- **Declarations are read one by one.** -/
theorem declarations_flatMap {ds : List (List Tree)} (h : ∀ d ∈ ds, ∀ t ∈ d, t.isPunct ';' = false) :
    declarations (ds.flatMap (· ++ [.leaf (.punct ';')])) = some ds := by
  induction ds with
  | nil => rfl
  | cons d ds ih =>
    have hcons : (d :: ds).flatMap (· ++ [Tree.leaf (.punct ';')]) =
        d ++ .leaf (.punct ';') :: ds.flatMap (· ++ [Tree.leaf (.punct ';')]) := by simp
    rw [hcons]
    exact declarations_append (h d (List.mem_cons_self ..))
      (ih fun e he => h e (List.mem_cons_of_mem d he))

/-- The items of an initialiser, which may end with a comma. -/
def items : List Tree → Option (List Tree)
  | [] => some []
  | [t] => if t.isPunct ',' then none else some [t]
  | t :: comma :: ts =>
    if t.isPunct ',' ∨ comma.isPunct ',' = false then none else (items ts).map (t :: ·)

/-- An item, and those after the comma. -/
theorem items_cons {t : Tree} (ht : t.isPunct ',' = false) (ts : List Tree) :
    items (t :: .leaf (.punct ',') :: ts) = (items ts).map (t :: ·) := by
  rw [items, if_neg]
  rw [ht]
  decide

theorem mem_of_mem_intersperse {α : Type*} {a sep : α} {l : List α} (h : a ∈ l.intersperse sep) :
    a = sep ∨ a ∈ l := by
  induction l with
  | nil => exact .inr h
  | cons b l ih =>
    rcases l with _ | ⟨c, l⟩
    · exact .inr h
    · rw [List.intersperse_cons_cons] at h
      rcases List.mem_cons.1 h with rfl | h
      · exact .inr (List.mem_cons_self ..)
      · rcases List.mem_cons.1 h with rfl | h
        · exact .inl rfl
        · exact (ih h).imp_right (List.mem_cons_of_mem b)

theorem map_intersperse {α β : Type*} (f : α → β) (sep : α) (l : List α) :
    (l.intersperse sep).map f = (l.map f).intersperse (f sep) := by
  induction l with
  | nil => rfl
  | cons b l ih =>
    rcases l with _ | ⟨c, l⟩
    · rfl
    · rw [List.intersperse_cons_cons, List.map_cons, List.map_cons, ih]
      rfl

/-- **Items with commas between them are read back.** -/
theorem items_intersperse {ts : List Tree} (h : ∀ t ∈ ts, t.isPunct ',' = false) :
    items (ts.intersperse (.leaf (.punct ','))) = some ts := by
  induction ts with
  | nil => rfl
  | cons t ts ih =>
    have ht := h t (List.mem_cons_self ..)
    rcases ts with _ | ⟨u, ts⟩
    · rw [List.intersperse_singleton, items, if_neg (by simp [ht])]
    · rw [List.intersperse_cons_cons, items_cons ht, ih fun v hv => h v (List.mem_cons_of_mem t hv)]
      rfl

/-- **Items with a comma after each are read back.** -/
theorem items_ended {ts : List Tree} (h : ∀ t ∈ ts, t.isPunct ',' = false) :
    items (ts.flatMap fun t => [t, .leaf (.punct ',')]) = some ts := by
  induction ts with
  | nil => rfl
  | cons t ts ih =>
    rw [List.flatMap_cons, List.cons_append, List.singleton_append,
      items_cons (h t (List.mem_cons_self ..)), ih fun v hv => h v (List.mem_cons_of_mem t hv)]
    rfl

end CText

end HkSystem
