/-
Fuzzy turtle (`semantics/FuzzyTurtle.h`, `.cpp`): turtle with a truth degree
`{0.4}` after an object. A lexer and a recursive-descent parser go over the
text; the parser collects one degree for every triple and blanks the degrees
in a copy, which is then ordinary turtle.

The lexer is modelled on the bytes that are left. A backslash as the last byte
lets it step one byte past the end, where the code then reads the terminator
of the text. `std::from_chars` is a parameter: the float a text stands for, if
it is one as a whole.
-/
import GengoDB.Chars
import GengoDB.RdfGraph

namespace GengoDB.FuzzyTurtle

open Chars

/-! ## Tokens -/

def isNameDelimiter (c : Codec.Byte) : Bool :=
  c ∈ [ch '<', ch '>', doubleQuote, singleQuote, ch '{', ch '}', ch '[', ch ']', ch '(', ch ')', ch ',', ch ';', ch '#',
    ch '^', ch '@'] || isSpace c

inductive Tok where
  | iri | name | string | langTag | caret2 | number | directive | degree | punct | end_
  deriving DecidableEq

structure Token where
  kind : Tok
  text : Bytes
  begin_ : Nat
  line : Nat
  degree : BitVec 32 := RdfGraph.one32
  deriving DecidableEq

structure FuzzyTurtleError where
  message : Bytes
  line : Nat
  deriving DecidableEq

/-- `in` from `pos` on, the line, and the kind of the last token. -/
structure Lexer where
  rest : Bytes
  pos : Nat
  line : Nat
  lastKind : Tok

/-! ## How far a token goes -/

/-- After `<`, up to and with the `>`. -/
def iriLength : Bytes → Option Nat
  | [] => none
  | c :: s =>
    if c = ch '>' then some 1
    else if c = newline then none
    else if c = backslash then
      match s with
      | [] => none
      | _ :: s => (iriLength s).map (· + 2)
    else (iriLength s).map (· + 1)

/-- After the opening quotes, up to and with the closing ones: the bytes, and
the line after them. `none` comes with the line it is noticed on. -/
def stringLength (quote : Codec.Byte) (long : Bool) : Bytes → Nat → Except Nat (Nat × Nat)
  | [], line => .error line
  | c :: s, line =>
    if c = backslash then
      match s with
      | [] => .error line
      | _ :: s => (stringLength quote long s line).map fun (n, line) => (n + 2, line)
    else if c = newline && !long then .error line
    else
      let line := if c = newline then line + 1 else line
      if c = quote && !long then .ok (1, line)
      else if c = quote && s.take 2 == [quote, quote] then .ok (run (· == quote) (s.drop 2) + 3, line)
      else (stringLength quote long s line).map fun (n, line) => (n + 1, line)

/-- `lexNumber`. -/
def signLength : Bytes → Nat
  | c :: _ => if c = ch '+' || c = ch '-' then 1 else 0
  | [] => 0

def fractionLength : Bytes → Nat
  | c :: d :: s => if c = ch '.' && isDigit d then run isDigit (d :: s) + 1 else 0
  | _ => 0

def exponentLength : Bytes → Nat
  | c :: s =>
    if c = ch 'e' || c = ch 'E' then
      let sign := signLength s
      1 + sign + run isDigit (s.drop sign)
    else 0
  | [] => 0

def numberLength (s : Bytes) : Nat :=
  let n := signLength s
  let n := n + run isDigit (s.drop n)
  let n := n + fractionLength (s.drop n)
  n + exponentLength (s.drop n)

/-- The scan of a name, up to a delimiter. -/
def nameScan : Bytes → Nat
  | [] => 0
  | c :: s =>
    if isNameDelimiter c then 0
    else if c = backslash then
      match s with
      | [] => 2
      | _ :: s => nameScan s + 2
    else nameScan s + 1

/-- Dots at the end do not belong to a name, unless escaped. -/
def trimDots (s : Bytes) : Nat → Nat
  | n + 2 => if s.getD (n + 1) 0 = ch '.' && s.getD n 0 != backslash then trimDots s (n + 1) else n + 2
  | n => n

def nameLength (s : Bytes) : Nat := trimDots s (nameScan s)

def isNumberByte (c : Codec.Byte) : Bool :=
  isDigit c || c ∈ [ch '.', ch 'e', ch 'E', ch '+', ch '-']

/-- `0 ≤ value ≤ 1`, of the bits of a float. -/
def inUnit (value : BitVec 32) : Bool := value.toNat ≤ RdfGraph.one32.toNat || value = 0x80000000

/-- After `{`: the white space, the number, the white space, and the `}`. -/
structure DegreeParts where
  before : Nat
  number : Bytes
  after : Nat

def degreeParts (s : Bytes) : DegreeParts :=
  let before := run isSpace s
  let number := (s.drop before).take (run isNumberByte (s.drop before))
  { before, number, after := run isSpace ((s.drop before).drop number.length) }

/-- All of it, braces included. -/
def DegreeParts.length (d : DegreeParts) : Nat := d.before + d.number.length + d.after + 2

/-! ## The lexer -/

section
variable (fromChars : Bytes → Option (BitVec 32))

/-- The token of kind `kind` and `length` bytes at the front of `s`. -/
def make (s : Bytes) (pos startLine : Nat) (kind : Tok) (length line : Nat) : Token × Lexer :=
  ({ kind, text := s.take length, begin_ := pos, line := startLine },
   { rest := s.drop length, pos := pos + length, line, lastKind := kind })

/-- A truth degree, `s` being what follows the `{`. -/
def lexDegree (s : Bytes) (pos line : Nat) : Except FuzzyTurtleError (Token × Lexer) :=
  let d := degreeParts s
  let inner := d.length - 2
  let lineAfter := line + newlines (s.take inner)
  if d.number.isEmpty || (s.drop inner).head? != some (ch '}') then
    .error ⟨ascii "expected a truth degree like \x7b0.5\x7d (graph blocks are not supported)", lineAfter⟩
  else
    match fromChars d.number with
    | none => .error ⟨ascii "invalid truth degree '" ++ d.number ++ ascii "'", lineAfter⟩
    | some value =>
      if inUnit value then
        let (t, lexer) := make (ch '{' :: s) pos line .degree d.length lineAfter
        .ok ({ t with degree := value }, lexer)
      else .error ⟨ascii "truth degree " ++ d.number ++ ascii " is outside [0,1]", lineAfter⟩

/-- The token at the first byte `c` of `c :: s`. -/
def lexToken (c : Codec.Byte) (s : Bytes) (pos line : Nat) (lastKind : Tok) : Except FuzzyTurtleError (Token × Lexer) :=
  let make := make (c :: s) pos line
  if c = ch '<' then
    match iriLength s with
    | none => .error ⟨ascii "unterminated IRI", line⟩
    | some n => .ok (make .iri (n + 1) line)
  else if c = doubleQuote || c = singleQuote then
    let long := s.take 2 == [c, c]
    let opening := if long then 3 else 1
    match stringLength c long ((c :: s).drop opening) line with
    | .error line => .error ⟨ascii "unterminated string", line⟩
    | .ok (n, line) => .ok (make .string (opening + n) line)
  else if c = ch '{' then lexDegree fromChars s pos line
  else if c = ch '^' && s.head? == some (ch '^') then .ok (make .caret2 2 line)
  else if c = ch '@' then
    .ok (make (if lastKind = .string then .langTag else .directive) (run (fun c => isAlnum c || c = ch '-') s + 1) line)
  else if c ∈ [ch '[', ch ']', ch '(', ch ')', ch ',', ch ';'] then .ok (make .punct 1 line)
  else if c = ch '}' then .error ⟨ascii "unexpected '\x7d'", line⟩
  else if c = ch '.' && !(s.head?.any isDigit) then .ok (make .punct 1 line)
  else if isDigit c || c ∈ [ch '+', ch '-', ch '.'] then .ok (make .number (numberLength (c :: s)) line)
  else if nameLength (c :: s) = 0 then .error ⟨ascii "unexpected character '" ++ [c] ++ ascii "'", line⟩
  else .ok (make .name (nameLength (c :: s)) line)

def Lexer.next (L : Lexer) : Except FuzzyTurtleError (Token × Lexer) :=
  let n := gap false L.rest
  let line := L.line + newlines (L.rest.take n)
  match L.rest.drop n with
  | [] => .ok ({ kind := .end_, text := [], begin_ := L.pos + n, line }, { L with rest := [], pos := L.pos + n, line })
  | c :: s => lexToken fromChars c s (L.pos + n) line L.lastKind

def Lexer.start (input : Bytes) : Lexer := { rest := input, pos := 0, line := 1, lastKind := .end_ }

/-! ## The parser -/

/-- `fuel` bounds the depth of the recursion. -/
inductive Failure where
  | error (e : FuzzyTurtleError)
  | outOfFuel
  deriving DecidableEq

structure Parser where
  lexer : Lexer
  cur : Token
  out : Bytes
  degrees : List (BitVec 32)
  collectionDepth : Nat

/-- A range of the copy, blanked but for its newlines. -/
def blank (out : Bytes) (first length : Nat) : Bytes :=
  out.mapIdx fun i c => if first ≤ i && i < first + length && c != newline then 32 else c

namespace Parser

variable {fromChars}

def fail {α : Type} (p : Parser) (message : Bytes) : Except Failure α := .error (.error ⟨message, p.cur.line⟩)

variable (p : Parser)

def isPunct (c : Char) : Bool := p.cur.kind = .punct && p.cur.text.head? == some (ch c)

def isKeyword (kw : String) : Bool := p.cur.kind = .name && p.cur.text.map toUpper == ascii kw

variable (fromChars)

def advance : Except Failure Parser :=
  match p.lexer.next fromChars with
  | .ok (cur, lexer) => .ok { p with cur, lexer }
  | .error e => .error (.error e)

def expectPunct (c : Char) : Except Failure Parser :=
  if p.isPunct c then p.advance fromChars else p.fail (ascii "expected '" ++ [ch c] ++ ascii "'")

def expectTerm : Except Failure Parser :=
  if p.cur.kind = .iri || p.cur.kind = .name then p.advance fromChars
  else p.fail (ascii "expected an IRI or prefixed name")

def parseVerb : Except Failure Parser := p.expectTerm fromChars

/-- `while (isPunct(';')) advance();` -/
def skipSemicolons : Nat → Parser → Except Failure Parser
  | 0, _ => .error .outOfFuel
  | fuel + 1, p => if p.isPunct ';' then do skipSemicolons fuel (← p.advance fromChars) else .ok p

/-- The end of `parseObject`: the degree of the triple with this index. -/
def parseDegree (idx : Nat) : Except Failure Parser :=
  if p.cur.kind = .degree then
    if 0 < p.collectionDepth then p.fail (ascii "truth degrees inside RDF collections are not supported")
    else
      ({ p with
        degrees := p.degrees.set idx p.cur.degree
        out := blank p.out p.cur.begin_ p.cur.text.length } : Parser).advance fromChars
  else .ok p

/-- An object that is a string. -/
def parseString : Except Failure Parser := do
  let p ← p.advance fromChars
  if p.cur.kind = .langTag then p.advance fromChars
  else if p.cur.kind = .caret2 then (← p.advance fromChars).expectTerm fromChars
  else return p

mutual

def parsePredicateObjectList : Nat → Parser → Except Failure Parser
  | 0, _ => .error .outOfFuel
  | fuel + 1, p => do
    let p ← p.parseVerb fromChars
    let p ← parseObjectList fuel p
    parseMorePredicates fuel p

/-- Its loop over `;`. -/
def parseMorePredicates : Nat → Parser → Except Failure Parser
  | 0, _ => .error .outOfFuel
  | fuel + 1, p =>
    if p.isPunct ';' then do
      let p ← skipSemicolons fromChars fuel p
      if p.isPunct '.' || p.isPunct ']' || p.cur.kind = .end_ then return p
      let p ← p.parseVerb fromChars
      let p ← parseObjectList fuel p
      parseMorePredicates fuel p
    else return p

def parseObjectList : Nat → Parser → Except Failure Parser
  | 0, _ => .error .outOfFuel
  | fuel + 1, p => do
    let p ← parseObject fuel p
    parseMoreObjects fuel p

/-- Its loop over `,`. -/
def parseMoreObjects : Nat → Parser → Except Failure Parser
  | 0, _ => .error .outOfFuel
  | fuel + 1, p =>
    if p.isPunct ',' then do
      let p ← p.advance fromChars
      let p ← parseObject fuel p
      parseMoreObjects fuel p
    else return p

def parseObject : Nat → Parser → Except Failure Parser
  | 0, _ => .error .outOfFuel
  | fuel + 1, p => do
    let idx := p.degrees.length
    let p := { p with degrees := p.degrees ++ [RdfGraph.one32] }
    let p ←
      if p.isPunct '[' then do
        let p ← p.advance fromChars
        let p ← if p.isPunct ']' then pure p else parsePredicateObjectList fuel p
        p.expectPunct fromChars ']'
      else if p.isPunct '(' then do
        let p ← p.advance fromChars
        parseCollectionItems fuel { p with collectionDepth := p.collectionDepth + 1 }
      else if p.cur.kind = .string then p.parseString fromChars
      else if p.cur.kind = .iri || p.cur.kind = .name || p.cur.kind = .number then p.advance fromChars
      else p.fail (ascii "expected an object")
    p.parseDegree fromChars idx

/-- From its loop on; the depth was raised before. -/
def parseCollectionItems : Nat → Parser → Except Failure Parser
  | 0, _ => .error .outOfFuel
  | fuel + 1, p =>
    if p.isPunct ')' then do
      let p ← p.advance fromChars
      return { p with collectionDepth := p.collectionDepth - 1 }
    else if p.cur.kind = .end_ then p.fail (ascii "unterminated collection")
    else do
      let p ← parseObject fuel p
      parseCollectionItems fuel { p with degrees := p.degrees ++ [RdfGraph.one32] }

end

def parseTriples (fuel : Nat) (p : Parser) : Except Failure Parser := do
  if p.isPunct '[' then
    let p ← p.advance fromChars
    let empty := p.isPunct ']'
    let p ← if empty then pure p else parsePredicateObjectList fromChars fuel p
    let p ← p.expectPunct fromChars ']'
    if empty || !p.isPunct '.' then parsePredicateObjectList fromChars fuel p else return p
  else if p.isPunct '(' then
    let p ← p.advance fromChars
    let p ← parseCollectionItems fromChars fuel { p with collectionDepth := p.collectionDepth + 1 }
    parsePredicateObjectList fromChars fuel p
  else
    let p ← p.expectTerm fromChars
    parsePredicateObjectList fromChars fuel p

def parseStatement (fuel : Nat) (p : Parser) : Except Failure Parser := do
  if p.cur.kind = .directive then
    let isPrefix := p.cur.text == ascii "@prefix"
    if !isPrefix && p.cur.text != ascii "@base" then
      p.fail (ascii "unknown directive '" ++ p.cur.text ++ ascii "'")
    else
      let p ← p.advance fromChars
      let p ← if isPrefix then p.expectTerm fromChars else pure p
      let p ← p.expectTerm fromChars
      p.expectPunct fromChars '.'
  else if p.isKeyword "PREFIX" || p.isKeyword "BASE" then
    let isPrefix := p.isKeyword "PREFIX"
    let p ← p.advance fromChars
    let p ← if isPrefix then p.expectTerm fromChars else pure p
    p.expectTerm fromChars
  else
    let p ← parseTriples fromChars fuel p
    p.expectPunct fromChars '.'

def parseDocument : Nat → Parser → Except Failure Parser
  | 0, _ => .error .outOfFuel
  | fuel + 1, p => if p.cur.kind = .end_ then .ok p else do parseDocument fuel (← parseStatement fromChars fuel p)

end Parser

/-- The copy and the degrees of `loadFuzzyTTL`. -/
structure Result where
  turtle : Bytes
  degrees : List (BitVec 32)
  deriving DecidableEq

def loadFuzzyTTL (fuel : Nat) (input : Bytes) : Except Failure Result := do
  let cur : Token := { kind := .end_, text := [], begin_ := 0, line := 0 }
  let p : Parser := { lexer := .start input, cur, out := input, degrees := [], collectionDepth := 0 }
  let p ← p.advance fromChars
  let p ← p.parseDocument fromChars fuel
  return { turtle := p.out, degrees := p.degrees }

end

end GengoDB.FuzzyTurtle
