/-
The tokenizer of the SPARQL front end (`Tokenizer` of
`SparqlMLIRTranslator.h`), on the bytes that are left. A backslash as the last
byte of a string lets it step past the end, where the code reads the terminator
of the text.
-/
import GengoDB.Chars
import GengoDB.Datatypes

namespace GengoDB.SparqlText

open Chars

inductive TK where
  | eof | iri | prefixedName | variable_ | blankNode
  | keyword | lBrace | rBrace | dot | comma | semicolon
  | star | leftParen | rightParen | stringLit | colon | unknown
  | number | eq | neq | lt | lte | gt | gte | andAnd | orOr | bang | doubleCaret
  | plus | minus | slash
  deriving DecidableEq

structure Token where
  kind : TK
  value : Bytes
  line : Nat
  deriving DecidableEq

/-- `src` from `pos` on. -/
structure Tokenizer where
  rest : Bytes
  pos : Nat
  line : Nat

/-! ## Parts of a token -/

/-- `readUntil`: the bytes before the end, and how many are read. -/
def readUntil (last : Codec.Byte) (s : Bytes) : Bytes × Nat :=
  let n := run (· != last) s
  (s.take n, if n < s.length then n + 1 else n)

/-- `readStr`, after the opening quote. -/
def readStr (d : Codec.Byte) : Bytes → Bytes × Nat
  | [] => ([], 0)
  | c :: s =>
    if c = d then ([], 1)
    else if c = backslash then
      match s with
      | [] => ([0], 2)
      | e :: s => let (r, n) := readStr d s; (e :: r, n + 2)
    else let (r, n) := readStr d s; (c :: r, n + 1)

/-- Whether a `<` with this behind it opens an IRI. -/
def isIri : Bytes → Bool
  | [] => false
  | c :: s =>
    if c = ch '>' then true
    else if isSpace c ||
      c ∈ [ch '<', doubleQuote, ch '{', ch '}', ch '|', ch '^', backtick, backslash] then false
    else isIri s

variable (c : Codec.Byte)

def isWordByte : Bool := isAlnum c || c = ch '_'
def isNameByte : Bool := isAlnum c || c = ch '_' || c = ch '-'
def isLocalByte : Bool := isAlnum c || c ∈ [ch '_', ch '-', ch '.', ch '/', ch '#', ch '@']

/-- `while (!local.empty() && local.back() == '.') local.pop_back();` -/
def dropDots (s : Bytes) : Bytes := (s.reverse.dropWhile (· == ch '.')).reverse

/-- `readIdent`: kind, value, and how many bytes are read. -/
def readIdent (s : Bytes) : TK × Bytes × Nat :=
  let n := run isNameByte s
  let name := s.take n
  let s := s.drop n
  if s.head? == some (ch ':') && s.tail.head? != some (ch ':') then
    let m := run isLocalByte s.tail
    (.prefixedName, name ++ [ch ':'] ++ dropDots (s.tail.take m), n + 1 + m)
  else (.keyword, name.map toUpper, n)

/-- A number: digits, and a fraction if digits follow the dot. -/
def numberLength (s : Bytes) : Nat :=
  let n := run isDigit s
  let s := s.drop n
  if s.head? == some (ch '.') && s.tail.head?.any isDigit then n + 1 + run isDigit s.tail else n

/-- The tokens of one or two fixed bytes, in the order they are tried. -/
def symbols : List (Bytes × TK) :=
  [(ascii ":", .colon), (ascii "\x7b", .lBrace), (ascii "\x7d", .rBrace), (ascii ".", .dot), (ascii ",", .comma),
   (ascii ";", .semicolon), (ascii "*", .star), (ascii "(", .leftParen), (ascii ")", .rightParen), (ascii "=", .eq),
   (ascii "!=", .neq), (ascii "!", .bang), (ascii ">=", .gte), (ascii ">", .gt), (ascii "&&", .andAnd),
   (ascii "||", .orOr), (ascii "^^", .doubleCaret), (ascii "+", .plus), (ascii "-", .minus), (ascii "/", .slash)]

/-! ## The tokenizer -/

/-- The token at the first byte `c` of `c :: s`: kind, value, and how many bytes
are read. -/
def scan (s : Bytes) : TK × Bytes × Nat :=
  if c = ch '<' then
    if isIri s then (.iri, (readUntil (ch '>') s).1, (readUntil (ch '>') s).2 + 1)
    else if s.head? == some (ch '=') then (.lte, ascii "<=", 2)
    else (.lt, ascii "<", 1)
  else if c = doubleQuote || c = singleQuote then (.stringLit, (readStr c s).1, (readStr c s).2 + 1)
  else if c = ch '?' || c = ch '$' then (.variable_, s.take (run isWordByte s), run isWordByte s + 1)
  else if c = ch '_' && s.head? == some (ch ':') then
    (.blankNode, s.tail.take (run isNameByte s.tail), run isNameByte s.tail + 2)
  else
    match symbols.find? fun e => e.1.isPrefixOf (c :: s) with
    | some (text, kind) => (kind, text, text.length)
    | none =>
      if isDigit c then (.number, (c :: s).take (numberLength (c :: s)), numberLength (c :: s))
      else if isAlpha c || c = ch '_' then readIdent (c :: s)
      else (.unknown, [c], 1)

/-- What `scan` can give, and when. -/
inductive Scanned (c : Codec.Byte) (s : Bytes) : TK × Bytes × Nat → Prop where
  | iri (hc : c = ch '<') (h : isIri s) : Scanned c s (.iri, (readUntil (ch '>') s).1, (readUntil (ch '>') s).2 + 1)
  | lte (hc : c = ch '<') : Scanned c s (.lte, ascii "<=", 2)
  | lt (hc : c = ch '<') : Scanned c s (.lt, ascii "<", 1)
  | string (hc : c = doubleQuote ∨ c = singleQuote) : Scanned c s (.stringLit, (readStr c s).1, (readStr c s).2 + 1)
  | variable_ (hc : c = ch '?' ∨ c = ch '$') : Scanned c s (.variable_, s.take (run isWordByte s), run isWordByte s + 1)
  | blankNode {t : Bytes} (hc : c = ch '_') (hs : s = ch ':' :: t) :
    Scanned c s (.blankNode, t.take (run isNameByte t), run isNameByte t + 2)
  | symbol {text : Bytes} {kind : TK} (h : (text, kind) ∈ symbols) (hs : text <+: c :: s) :
    Scanned c s (kind, text, text.length)
  | number (hc : isDigit c) : Scanned c s (.number, (c :: s).take (numberLength (c :: s)), numberLength (c :: s))
  | ident (hc : isNameByte c) : Scanned c s (readIdent (c :: s))
  | unknown (hangle : c ≠ ch '<') (hquote : c ≠ doubleQuote ∧ c ≠ singleQuote) (h : ∀ e ∈ symbols, ¬ e.1 <+: c :: s) :
    Scanned c s (.unknown, [c], 1)

theorem scanned (s : Bytes) : Scanned c s (scan c s) := by
  unfold scan
  split
  · next hangle =>
    split
    · next hiri => exact .iri hangle hiri
    · split
      · exact .lte hangle
      · exact .lt hangle
  · next hangle =>
    split
    · next hquote => exact .string (by simpa using hquote)
    · next hquote =>
      split
      · next hvariable => exact .variable_ (by simpa using hvariable)
      · split
        · next hblank =>
          simp only [Bool.and_eq_true, decide_eq_true_eq, beq_iff_eq] at hblank
          exact .blankNode hblank.1 (List.eq_cons_of_mem_head? hblank.2)
        · split
          · next text kind hfind =>
            have hmatch := List.find?_some hfind
            exact .symbol (List.mem_of_find?_eq_some hfind) (List.isPrefixOf_iff_prefix.1 hmatch)
          · next hfind =>
            split
            · next hdigit => exact .number hdigit
            · split
              · next halpha =>
                simp only [Bool.or_eq_true, decide_eq_true_eq] at halpha
                exact .ident (by rcases halpha with h | h <;> simp [isNameByte, isAlnum, h])
              · refine .unknown hangle (by simpa using hquote) fun e he hs => ?_
                exact List.find?_eq_none.1 hfind e he (List.isPrefixOf_iff_prefix.2 hs)

/-- A token takes a byte, and is not the end. -/
theorem scan_spec (s : Bytes) : 0 < (scan c s).2.2 ∧ (scan c s).1 ≠ .eof := by
  have hsymbols : ∀ e ∈ symbols, 0 < e.1.length ∧ e.2 ≠ .eof := by decide +kernel
  have h := scanned c s
  generalize scan c s = r at h ⊢
  cases h with
  | iri | string | variable_ | blankNode | lte | lt | unknown => exact ⟨Nat.succ_pos _, by simp⟩
  | symbol h => exact hsymbols _ h
  | number hc =>
    have hrun : 0 < run isDigit (c :: s) := by simp [run, hc]
    refine ⟨?_, by simp⟩
    unfold numberLength
    dsimp only
    split <;> omega
  | ident hc =>
    have hrun : 0 < run isNameByte (c :: s) := by simp [run, hc]
    unfold readIdent
    dsimp only
    split
    · refine ⟨?_, by simp⟩
      dsimp only
      omega
    · exact ⟨hrun, by simp⟩

namespace Tokenizer

/-- `n` bytes further on. -/
def skip (T : Tokenizer) (n : Nat) : Tokenizer :=
  { rest := T.rest.drop n, pos := T.pos + n, line := T.line + newlines (T.rest.take n) }

def skipWS (T : Tokenizer) : Tokenizer := T.skip (gap false T.rest)

def next (T : Tokenizer) : Token × Tokenizer :=
  let T := T.skipWS
  match T.rest with
  | [] => ({ kind := .eof, value := [], line := T.line }, T)
  | c :: s =>
    let (kind, value, n) := scan c s
    let T := T.skip n
    ({ kind, value, line := T.line }, T)

def start (src : Bytes) : Tokenizer := { rest := src, pos := 0, line := 1 }

/-- The tokens before the end, each with the place of its first byte. -/
def tokens : Nat → Tokenizer → List (Token × Nat)
  | 0, _ => []
  | fuel + 1, T => if T.next.1.kind = .eof then [] else (T.next.1, T.skipWS.pos) :: tokens fuel T.next.2

variable {T : Tokenizer} {fuel : Nat} {c : Codec.Byte} {s : Bytes}

theorem tokens_nil (h : T.skipWS.rest = []) : T.tokens fuel = [] := by
  cases fuel with
  | zero => rfl
  | succ fuel => simp [tokens, next, h]

theorem tokens_cons (h : T.skipWS.rest = c :: s) : T.tokens (fuel + 1) =
      ({ kind := (scan c s).1, value := (scan c s).2.1, line := (T.skipWS.skip (scan c s).2.2).line }, T.skipWS.pos) ::
      (T.skipWS.skip (scan c s).2.2).tokens fuel := by
  simp [tokens, next, h, (scan_spec c s).2]

end Tokenizer

/-- All tokens of a text; every token takes a byte. -/
def tokenize (src : Bytes) : List (Token × Nat) := (Tokenizer.start src).tokens (src.length + 1)

/-! ## Escapes

`readStr` takes the byte behind a backslash for itself: it undoes the escapes of
the backslash and of the quotes, and reads the control characters as letters. -/

/-- The standard escapes: a byte, and what is written behind the backslash. -/
def escapes : List (Codec.Byte × Codec.Byte) :=
  [(9, ch 't'), (newline, ch 'n'), (13, ch 'r'), (8, ch 'b'), (12, ch 'f'), (backslash, backslash),
   (doubleQuote, doubleQuote), (singleQuote, singleQuote)]

def escape (s : Bytes) : Bytes :=
  s.flatMap fun c => match escapes.lookup c with
    | some e => [backslash, e]
    | none => [c]

/-- A string as a literal between quotes `q`. -/
def quoted (q : Codec.Byte) (s : Bytes) : Bytes := q :: (escape s ++ [q])

/-- What `readStr` makes of a string written with escapes. -/
theorem readStr_escape {q : Codec.Byte} (hq : q = doubleQuote ∨ q = singleQuote) (s : Bytes) :
    readStr q (escape s ++ [q]) = (s.map fun c => (escapes.lookup c).getD c, (escape s).length + 1) := by
  have hback : backslash ≠ q := by rcases hq with rfl | rfl <;> decide
  induction s with
  | nil => simp [escape, readStr]
  | cons c s ih =>
    simp only [escape, List.flatMap_cons, List.append_assoc] at ih ⊢
    cases he : escapes.lookup c with
    | some e => simp [readStr, hback, ih, he]
    | none =>
      -- The quotes and the backslash have an escape.
      have hc : c ≠ q ∧ c ≠ backslash := by
        constructor
        · rintro rfl
          rcases hq with rfl | rfl <;> cases he
        · rintro rfl
          cases he
      rw [List.singleton_append, readStr.eq_def]
      simp [hc, ih, he]

/-- The bytes that are written with a letter. -/
def controls : List Codec.Byte := [9, newline, 13, 8, 12]

/-- **A string literal is read as the string** just if there is no control
character to be written with a letter in it. -/
theorem tokenize_quoted_iff (q : Codec.Byte) (hq : q = doubleQuote ∨ q = singleQuote) (s : Bytes) :
    (tokenize (quoted q s)).map (fun t => (t.1.kind, t.1.value)) = [(.stringLit, s)] ↔ ∀ c ∈ s, c ∉ controls := by
  have hstart : (Tokenizer.start (quoted q s)).skipWS.rest = q :: (escape s ++ [q]) := by
    rcases hq with rfl | rfl <;> rfl
  have hscan : scan q (escape s ++ [q]) = (.stringLit, s.map fun c => (escapes.lookup c).getD c, (escape s).length + 2) := by
    have hread := readStr_escape hq s
    have hangle : q ≠ ch '<' := by rcases hq with rfl | rfl <;> decide
    simp only [scan, hangle, hq, Bool.or_eq_true, decide_eq_true_eq, if_true, if_false, hread]
  have hletter : ∀ c : Codec.Byte, (escapes.lookup c).getD c = c ↔ c ∉ controls := by decide +kernel
  have hend : ((Tokenizer.start (quoted q s)).skipWS.skip ((escape s).length + 2)).skipWS.rest = [] := by
    rw [Tokenizer.skipWS, Tokenizer.skip, Tokenizer.skip, hstart]
    simp
  rw [tokenize, Tokenizer.tokens_cons hstart, hscan, Tokenizer.tokens_nil hend]
  simpa [← hletter] using List.map_inj_left (g := id)

theorem tokenize_quoted_backslash :
    (tokenize (quoted doubleQuote (ascii "a\\'"))).map (fun t => (t.1.kind, t.1.value)) =
      [(.stringLit, ascii "a\\'")] :=
  (tokenize_quoted_iff doubleQuote (.inl rfl) (ascii "a\\'")).2 (by decide +kernel)

/-- A newline comes back as the letter of its escape. -/
theorem tokenize_quoted_newline :
    (tokenize (quoted doubleQuote [newline])).map (fun t => (t.1.kind, t.1.value)) = [(.stringLit, ascii "n")] := by
  decide +kernel

end GengoDB.SparqlText
