/-
Texts of the SPARQL endpoint (`tools/sparql-endpoint.cpp`): the parameters of a
request (`parseFormEncoded`), and a result as comma-separated or tab-separated
values (`toCsv`, `toTsv`).

A form is decoded to the parameters it was made of, however they were encoded
(`parseFormEncoded_lookup`). A reader that knows quoted fields gets every cell
of a result back from its text (`read_toCsv`). `tsvEscape` drops carriage
returns and leaves backslashes as they are, so not every cell can be read back
(`readTsv_toTsv_iff`).
-/
import Mathlib.Data.List.Forall2
import GengoDB.Assoc
import GengoDB.Chars
import GengoDB.Datatypes

namespace GengoDB.Endpoint

open Chars List

/-! ## Forms -/

def isxdigit (c : Codec.Byte) : Bool := isDigit c || (65 ≤ c.val && c.val ≤ 70) || (97 ≤ c.val && c.val ≤ 102)

/-- A digit, as `std::stoi` reads it at base 16. -/
def hexValue (c : Codec.Byte) : ℕ := if isDigit c then c.val - 48 else if c.val ≤ 70 then c.val - 55 else c.val - 87

def urlDecode : Bytes → Bytes
  | [] => []
  | c :: s =>
    if c = ch '+' then ch ' ' :: urlDecode s
    else
      match s with
      | a :: b :: rest =>
        if c = ch '%' && isxdigit a && isxdigit b then Fin.ofNat 256 (16 * hexValue a + hexValue b) :: urlDecode rest
        else c :: urlDecode (a :: b :: rest)
      | s => c :: urlDecode s

/-- What the loop of `parseFormEncoded` does with a pair. -/
def addPair (result : List (Bytes × Bytes)) (pair : Bytes) : List (Bytes × Bytes) :=
  if pair = [] then result
  else
    let key := urlDecode (pair.takeWhile (· != ch '='))
    let value := urlDecode ((pair.dropWhile (· != ch '=')).drop 1)
    if key = [] then result else Assoc.insert result key value

/-- The pairs are what stands between one `&` and the next. -/
def parseFormEncoded (body : Bytes) : List (Bytes × Bytes) := (body.splitOn (ch '&')).foldl addPair []

/-- A hexadecimal digit in either case. -/
def hexDigit (upper : Bool) (n : Fin 16) : Codec.Byte :=
  if n.val < 10 then Fin.ofNat 256 (48 + n) else Fin.ofNat 256 ((if upper then 55 else 87) + n)

def isUnreserved (c : Codec.Byte) : Bool := isAlnum c || c ∈ [ch '-', ch '.', ch '_', ch '~']

/-- The texts that stand for some bytes: unreserved bytes as they are, a space
as a plus sign, and any byte by its number. -/
inductive Encodes : Bytes → Bytes → Prop
  | nil : Encodes [] []
  | keep {c e s} : isUnreserved c → Encodes e s → Encodes (c :: e) (c :: s)
  | space {e s} : Encodes e s → Encodes (ch '+' :: e) (ch ' ' :: s)
  | hex {e s} (upper upper' : Bool) (hi lo : Fin 16) : Encodes e s →
    Encodes (ch '%' :: hexDigit upper hi :: hexDigit upper' lo :: e) (Fin.ofNat 256 (16 * hi + lo) :: s)

theorem hexDigit_spec : ∀ upper n, isxdigit (hexDigit upper n) ∧ hexValue (hexDigit upper n) = n.val ∧
    hexDigit upper n ≠ ch '&' ∧ hexDigit upper n ≠ ch '=' := by
  decide

theorem isUnreserved_spec : ∀ c, isUnreserved c → c ≠ ch '+' ∧ c ≠ ch '%' ∧ c ≠ ch '&' ∧ c ≠ ch '=' := by
  decide +kernel

theorem urlDecode_cons {c : Codec.Byte} (hplus : c ≠ ch '+') (hpercent : c ≠ ch '%') (s : Bytes) :
    urlDecode (c :: s) = c :: urlDecode s := by
  rw [urlDecode.eq_def]
  match s with
  | [] | [_] => simp [hplus]
  | a :: b :: rest => simp [hplus, hpercent]

theorem urlDecode_encodes {e s : Bytes} (h : Encodes e s) : urlDecode e = s := by
  induction h with
  | nil => rfl
  | keep hc _ ih => rw [urlDecode_cons (isUnreserved_spec _ hc).1 (isUnreserved_spec _ hc).2.1, ih]
  | space _ ih =>
    rw [urlDecode.eq_def]
    simp [ih]
  | hex upper upper' hi lo _ ih =>
    obtain ⟨hhi, hhi', -⟩ := hexDigit_spec upper hi
    obtain ⟨hlo, hlo', -⟩ := hexDigit_spec upper' lo
    rw [urlDecode, if_neg (by decide)]
    simp [hhi, hlo, hhi', hlo', ih]

/-- An encoding has none of the bytes that separate pairs. -/
theorem separators_notMem {e s : Bytes} (h : Encodes e s) : ch '&' ∉ e ∧ ch '=' ∉ e := by
  induction h with
  | nil => simp
  | keep hc _ ih =>
    obtain ⟨-, -, hamp, heq⟩ := isUnreserved_spec _ hc
    simp only [mem_cons, not_or]
    exact ⟨⟨hamp.symm, ih.1⟩, heq.symm, ih.2⟩
  | space _ ih =>
    simp only [mem_cons, not_or]
    exact ⟨⟨by decide, ih.1⟩, by decide, ih.2⟩
  | hex upper upper' hi lo _ ih =>
    obtain ⟨-, -, hhi, hhi'⟩ := hexDigit_spec upper hi
    obtain ⟨-, -, hlo, hlo'⟩ := hexDigit_spec upper' lo
    simp only [mem_cons, not_or]
    exact ⟨⟨by decide, hhi.symm, hlo.symm, ih.1⟩, by decide, hhi'.symm, hlo'.symm, ih.2⟩

/-- The text of a parameter. -/
def pairText (e : Bytes × Bytes) : Bytes := e.1 ++ ch '=' :: e.2

/-- The texts of parameters, each with encodings of its name and of its value. -/
def EncodedAs : List (Bytes × Bytes) → List (Bytes × Bytes) → Prop :=
  Forall₂ fun e p => Encodes e.1 p.1 ∧ Encodes e.2 p.2

theorem addPair_pairText {e p : Bytes × Bytes} (hkey : Encodes e.1 p.1) (hvalue : Encodes e.2 p.2) (hne : p.1 ≠ [])
    (result : List (Bytes × Bytes)) : addPair result (pairText e) = Assoc.insert result p.1 p.2 := by
  have hkept : ∀ c ∈ e.1, (c != ch '=') = true := fun c hc =>
    bne_iff_ne.2 fun heq => (separators_notMem hkey).2 (heq ▸ hc)
  unfold addPair pairText
  rw [if_neg (by simp), takeWhile_append_of_pos hkept, dropWhile_append_of_pos hkept]
  simp [urlDecode_encodes hkey, urlDecode_encodes hvalue, hne]

theorem foldl_addPair {texts params : List (Bytes × Bytes)} (h : EncodedAs texts params) (hne : ∀ p ∈ params, p.1 ≠ [])
    (result : List (Bytes × Bytes)) : (texts.map pairText).foldl addPair result =
      params.foldl (fun l p => Assoc.insert l p.1 p.2) result := by
  induction h generalizing result with
  | nil => rfl
  | cons he _ ih =>
    rw [map_cons, foldl_cons, foldl_cons, addPair_pairText he.1 he.2 (hne _ mem_cons_self)]
    exact ih (fun p hp => hne p (mem_cons_of_mem _ hp)) _

theorem amp_notMem {texts params : List (Bytes × Bytes)} (h : EncodedAs texts params) :
    ∀ t ∈ texts.map pairText, ch '&' ∉ t := by
  induction h with
  | nil => simp
  | cons he _ ih =>
    rw [map_cons, forall_mem_cons]
    refine ⟨?_, ih⟩
    simp only [pairText, mem_append, mem_cons, not_or]
    exact ⟨(separators_notMem he.1).1, by decide, (separators_notMem he.2).1⟩

/-- **Forms.** A form is decoded to the parameters it was made of, in whatever
order and encoding. -/
theorem parseFormEncoded_lookup (params texts : List (Bytes × Bytes)) (hkeys : (params.map Prod.fst).Nodup)
    (hne : ∀ p ∈ params, p.1 ≠ []) (h : EncodedAs texts params) (k : Bytes) :
    (parseFormEncoded ([ch '&'].intercalate (texts.map pairText))).lookup k = params.lookup k := by
  have hfold : (parseFormEncoded ([ch '&'].intercalate (texts.map pairText))) =
      params.foldl (fun l p => Assoc.insert l p.1 p.2) [] := by
    cases h with
    | nil => decide
    | cons he hrest =>
      rw [parseFormEncoded, splitOn_intercalate _ (amp_notMem (.cons he hrest)) (by simp)]
      exact foldl_addPair (.cons he hrest) hne []
  rw [hfold, Assoc.lookup_foldl_insert hkeys]
  simp

/-- The name is written in hex, and the value has a space and a plus sign. -/
theorem parseFormEncoded_lookup_space :
    (parseFormEncoded (ascii "%71=a+%2B&x=")).lookup (ascii "q") = some (ascii "a +") :=
  parseFormEncoded_lookup [(ascii "q", ascii "a +"), (ascii "x", [])] [(ascii "%71", ascii "a+%2B"), (ascii "x", [])]
    (by decide) (by decide)
    (.cons ⟨.hex true true 7 1 .nil, .keep (by decide) (.space (.hex true true 2 11 .nil))⟩
      (.cons ⟨.keep (by decide) .nil, .nil⟩ .nil)) (ascii "q")

/-! ## Comma-separated values -/

def comma : Codec.Byte := 44
def carriageReturn : Codec.Byte := 13

/-- A result; every row has a cell for each variable. -/
structure TableRows where
  vars : List Bytes
  rows : List (List (Option Bytes))
  width : ∀ row ∈ rows, row.length = vars.length

theorem TableRows.row_ne_nil (t : TableRows) (hvars : t.vars ≠ []) : ∀ row ∈ t.rows, row ≠ [] :=
  fun row hrow hnil => hvars (length_eq_zero_iff.1 (t.width row hrow ▸ hnil ▸ rfl))

def csvEscape (v : Bytes) : Bytes :=
  if v.any (· ∈ [comma, doubleQuote, newline, carriageReturn]) then
    doubleQuote :: v.flatMap (fun c => if c = doubleQuote then [doubleQuote, doubleQuote] else [c]) ++ [doubleQuote]
  else v

/-- A line of `toCsv`. -/
def csvLine (cells : List Bytes) : Bytes := [comma].intercalate cells ++ [carriageReturn, newline]

def toCsv (t : TableRows) : Bytes :=
  csvLine (t.vars.map csvEscape) ++ t.rows.flatMap fun row => csvLine (row.map fun cell => cell.elim [] csvEscape)

/-- Where a reader is: before a field, in one without or with quotes, or behind
a quote that may have ended it. -/
inductive Mode
  | start | plain | quoted | closed
  deriving DecidableEq

/-- A reader of records. A field in quotes may have commas and line ends, and
two quotes for one; the line end behind the last record may be missing. -/
def read : Mode → Bytes → List Bytes → Bytes → Option (List (List Bytes))
  | mode, field, row, [] =>
    if mode = .quoted then none else if mode = .start ∧ row = [] then some [] else some [row ++ [field]]
  | .quoted, field, row, c :: s => if c = doubleQuote then read .closed field row s else read .quoted (field ++ [c]) row s
  | mode, field, row, c :: s =>
    if c = comma then read .start [] (row ++ [field]) s
    else if c = carriageReturn then
      match s with
      | d :: s => if d = newline then (read .start [] [] s).map ((row ++ [field]) :: ·) else none
      | [] => none
    else if c = doubleQuote then
      match mode with
      | .start => read .quoted [] row s
      | .closed => read .quoted (field ++ [doubleQuote]) row s
      | _ => none
    else if c = newline ∨ mode = .closed then none
    else read .plain (field ++ [c]) row s

section
variable {mode : Mode} {field s v : Bytes} {row : List Bytes}

theorem read_comma (h : mode ≠ .quoted) : read mode field row (comma :: s) = read .start [] (row ++ [field]) s := by
  rw [read.eq_def]
  cases mode with
  | quoted => exact absurd rfl h
  | start | plain | closed => rfl

theorem read_lineEnd (h : mode ≠ .quoted) : read mode field row (carriageReturn :: newline :: s) =
    (read .start [] [] s).map ((row ++ [field]) :: ·) := by
  rw [read.eq_def]
  cases mode with
  | quoted => exact absurd rfl h
  | start | plain | closed => rfl

theorem read_quoted : read .quoted field row
    (v.flatMap (fun c => if c = doubleQuote then [doubleQuote, doubleQuote] else [c]) ++ doubleQuote :: s) =
      read .closed (field ++ v) row s := by
  induction v generalizing field with
  | nil => rw [flatMap_nil, nil_append, append_nil, read, if_pos rfl]
  | cons c v ih =>
    have ih := @ih (field ++ [c])
    rw [append_assoc, singleton_append] at ih
    rw [flatMap_cons, ← ih]
    by_cases hc : c = doubleQuote
    · subst hc
      rw [if_pos rfl, append_assoc, cons_append, read, if_pos rfl, read.eq_def]
      rfl
    · rw [if_neg hc, append_assoc, singleton_append, read, if_neg hc]

theorem read_plain (hmode : mode = .start ∨ mode = .plain)
    (hv : ∀ c ∈ v, c ∉ [comma, doubleQuote, newline, carriageReturn]) : ∃ mode', mode' ≠ .quoted ∧
      read mode field row (v ++ s) = read mode' (field ++ v) row s := by
  induction v generalizing mode field with
  | nil => exact ⟨mode, by rcases hmode with rfl | rfl <;> decide, by rw [append_nil, nil_append]⟩
  | cons c v ih =>
    obtain ⟨mode', hmode', heq⟩ := @ih .plain (field ++ [c]) (.inr rfl) fun d hd => hv d (mem_cons_of_mem _ hd)
    refine ⟨mode', hmode', ?_⟩
    rw [append_assoc, singleton_append] at heq
    have hc := hv c mem_cons_self
    simp only [mem_cons, not_mem_nil, or_false, not_or] at hc
    rw [cons_append, ← heq, read.eq_def]
    rcases hmode with rfl | rfl <;> simp [hc]

/-- A cell is read back. -/
theorem read_csvEscape (v s : Bytes) (row : List Bytes) : ∃ mode, mode ≠ .quoted ∧
    read .start [] row (csvEscape v ++ s) = read mode v row s := by
  unfold csvEscape
  split
  · refine ⟨.closed, by decide, ?_⟩
    rw [cons_append, cons_append, append_assoc, singleton_append, read.eq_def]
    exact read_quoted
  · next h => exact read_plain (.inl rfl) fun c hc hin => h (any_eq_true.2 ⟨c, hc, by simpa using hin⟩)

/-- A line is read back. -/
theorem read_csvLine (cells : List Bytes) (hcells : cells ≠ []) :
    read .start [] row (csvLine (cells.map csvEscape) ++ s) = (read .start [] [] s).map ((row ++ cells) :: ·) := by
  induction cells generalizing row with
  | nil => exact absurd rfl hcells
  | cons v cells ih =>
    cases cells with
    | nil =>
      obtain ⟨mode, hmode, heq⟩ := read_csvEscape v (carriageReturn :: newline :: s) row
      rw [read_lineEnd hmode] at heq
      simpa [csvLine] using heq
    | cons w cells =>
      obtain ⟨mode, hmode, heq⟩ := read_csvEscape v (comma :: (csvLine ((w :: cells).map csvEscape) ++ s)) row
      rw [read_comma hmode, ih (cons_ne_nil w cells)] at heq
      simpa [csvLine, intercalate_cons_cons] using heq

end

theorem read_rows (rows : List (List (Option Bytes))) (h : ∀ row ∈ rows, row ≠ []) : read .start [] []
    (rows.flatMap fun row => csvLine (row.map fun cell => cell.elim [] csvEscape)) =
      some (rows.map fun row => row.map fun cell => cell.getD []) := by
  induction rows with
  | nil => rfl
  | cons row rows ih =>
    have hcell (cell : Option Bytes) : cell.elim [] csvEscape = csvEscape (cell.getD []) := by
      cases cell <;> rfl
    have hmap : row.map (fun cell => cell.elim [] csvEscape) = (row.map fun cell => cell.getD []).map csvEscape := by
      simp [hcell]
    rw [flatMap_cons, hmap, read_csvLine _ (by simpa using h row mem_cons_self),
      ih fun r hr => h r (mem_cons_of_mem _ hr)]
    rfl

/-- **A result as comma-separated values**: the variables and all cells are read
back, cells without a value as empty ones. -/
theorem read_toCsv (t : TableRows) (hvars : t.vars ≠ []) :
    read .start [] [] (toCsv t) = some (t.vars :: t.rows.map fun row => row.map fun cell => cell.getD []) := by
  rw [toCsv, read_csvLine _ hvars, read_rows _ (t.row_ne_nil hvars)]
  rfl

/-- A cell with a comma and quotes, and one without a value. -/
theorem read_toCsv_quotes : read .start [] [] (toCsv ⟨[ascii "a", ascii "b"], [[some (ascii "x,\"y\""), none]], by simp⟩) =
    some [[ascii "a", ascii "b"], [ascii "x,\"y\"", []]] :=
  read_toCsv ⟨[ascii "a", ascii "b"], [[some (ascii "x,\"y\""), none]], by simp⟩ (by simp)

/-! ## Tab-separated values -/

def tab : Codec.Byte := 9

def tsvEscape (v : Bytes) : Bytes :=
  v.flatMap fun c =>
    if c = tab then [backslash, ch 't'] else if c = newline then [backslash, ch 'n']
    else if c = carriageReturn then [] else [c]

/-- A line of `toTsv`, without its end. -/
def tsvLine (row : List (Option Bytes)) : Bytes := [tab].intercalate (row.map fun cell => cell.elim [] tsvEscape)

def toTsv (t : TableRows) : Bytes :=
  ([tab].intercalate (t.vars.map (ch '?' :: ·)) :: t.rows.map tsvLine).flatMap (· ++ [newline])

/-- What an escape stands for, from its second byte. -/
def escaped (d : Codec.Byte) : Option Codec.Byte :=
  [(ch 't', tab), (ch 'n', newline), (ch 'r', carriageReturn), (backslash, backslash)].lookup d

/-- Undoes the escapes of a cell. -/
def tsvUnescape : Bytes → Bytes
  | c :: d :: s =>
    match if c = backslash then escaped d else none with
    | some b => b :: tsvUnescape s
    | none => c :: tsvUnescape (d :: s)
  | s => s

/-- A reader of the lines; the variables come without their question mark. -/
def readTsv (doc : Bytes) : List (List Bytes) :=
  match (doc.splitOn newline).dropLast.map (·.splitOn tab) with
  | [] => []
  | vars :: rows => vars.map (·.drop 1) :: rows.map (·.map tsvUnescape)

/-- No carriage return, and no backslash where it is taken for the first byte of
an escape. -/
def Unambiguous : Bytes → Prop
  | [] => True
  | c :: s => c ≠ carriageReturn ∧ (c = backslash →
      ∀ d ∈ s.head?, d ∉ [backslash, ch 't', ch 'n', ch 'r', tab, newline]) ∧ Unambiguous s

section
variable {c d b : Codec.Byte} {s : Bytes}

theorem tsvUnescape_cons (hc : c ≠ backslash) : tsvUnescape (c :: s) = c :: tsvUnescape s := by
  cases s <;> simp [tsvUnescape, hc]

theorem tsvUnescape_escape (hd : escaped d = some b) : tsvUnescape (backslash :: d :: s) = b :: tsvUnescape s := by
  simp [tsvUnescape, hd]

theorem tsvUnescape_backslash (hd : escaped d = none) :
    tsvUnescape (backslash :: d :: s) = backslash :: tsvUnescape (d :: s) := by
  simp [tsvUnescape, hd]

/-- The three kinds of bytes: with an escape, dropped, and kept. -/
theorem tsvEscape_cons (c : Codec.Byte) (s : Bytes) :
    (c ∈ [tab, newline] ∧ ∃ d, tsvEscape (c :: s) = backslash :: d :: tsvEscape s ∧
      escaped d = some c ∧ d ∉ [backslash, tab, newline]) ∨
    (c = carriageReturn ∧ tsvEscape (c :: s) = tsvEscape s) ∨
    (c ∉ [tab, newline, carriageReturn] ∧ tsvEscape (c :: s) = c :: tsvEscape s) := by
  by_cases hc : c ∈ [tab, newline, carriageReturn]
  · simp only [mem_cons, not_mem_nil, or_false] at hc
    rcases hc with rfl | rfl | rfl
    · exact .inl ⟨by decide, ch 't', rfl, by decide⟩
    · exact .inl ⟨by decide, ch 'n', rfl, by decide⟩
    · exact .inr (.inl ⟨rfl, rfl⟩)
  · refine .inr (.inr ⟨hc, ?_⟩)
    simp only [mem_cons, not_mem_nil, or_false, not_or] at hc
    simp [tsvEscape, hc]

theorem separators_notMem_tsvEscape (v : Bytes) : tab ∉ tsvEscape v ∧ newline ∉ tsvEscape v := by
  induction v with
  | nil => decide
  | cons c s ih =>
    rcases tsvEscape_cons c s with ⟨-, d, hesc, -, hd⟩ | ⟨-, hesc⟩ | ⟨hc, hesc⟩ <;> rw [hesc]
    · simp only [mem_cons, not_mem_nil, or_false, not_or, ne_comm (a := d)] at hd ⊢
      exact ⟨⟨by decide, hd.2.1, ih.1⟩, by decide, hd.2.2, ih.2⟩
    · exact ih
    · simp only [mem_cons, not_mem_nil, or_false, not_or, ne_comm (a := c)] at hc ⊢
      exact ⟨⟨hc.1, ih.1⟩, hc.2.1, ih.2⟩

/-- A cell never gets longer, also behind a backslash. -/
theorem length_tsvUnescape (s : Bytes) : (tsvUnescape (tsvEscape s)).length ≤ s.length ∧
    (tsvUnescape (backslash :: tsvEscape s)).length ≤ s.length + 1 := by
  induction s with
  | nil => decide
  | cons c s ih =>
    rcases tsvEscape_cons c s with ⟨-, d, hesc, hd, hne⟩ | ⟨-, hesc⟩ | ⟨-, hesc⟩ <;> rw [hesc]
    · rw [tsvUnescape_escape hd, tsvUnescape_escape rfl, tsvUnescape_cons (by simp_all)]
      simp [ih.1]
    · exact ⟨ih.1.trans (Nat.le_succ _), ih.2.trans (Nat.le_succ _)⟩
    have hfirst : (tsvUnescape (c :: tsvEscape s)).length ≤ s.length + 1 := by
      by_cases hb : c = backslash
      · exact hb ▸ ih.2
      · rw [tsvUnescape_cons hb]
        exact Nat.succ_le_succ ih.1
    refine ⟨hfirst, ?_⟩
    cases hd : escaped c with
    | none =>
      rw [tsvUnescape_backslash hd]
      exact Nat.succ_le_succ hfirst
    | some b =>
      rw [tsvUnescape_escape hd]
      exact Nat.succ_le_succ (ih.1.trans (Nat.le_succ _))

theorem escaped_isSome : ∀ d, (escaped d).isSome ↔ d ∈ [backslash, ch 't', ch 'n', ch 'r'] := by
  decide +kernel

/-- A backslash is kept exactly if the byte behind it does not make an escape
of it. -/
theorem tsvUnescape_backslash_iff (d : Codec.Byte) (s : Bytes) :
    tsvUnescape (backslash :: tsvEscape (d :: s)) = backslash :: d :: s ↔
      d ∉ [backslash, ch 't', ch 'n', ch 'r', tab, newline] ∧ tsvUnescape (tsvEscape (d :: s)) = d :: s := by
  obtain ⟨hlen, hlen'⟩ := length_tsvUnescape s
  rcases tsvEscape_cons d s with ⟨hd, e, hesc, he, hne⟩ | ⟨-, hesc⟩ | ⟨hd, hesc⟩ <;> rw [hesc]
  · rw [tsvUnescape_escape rfl, tsvUnescape_cons (by simp_all)]
    exact iff_of_false (fun h => by simp_all) fun h => h.1 (mem_append_right [backslash, ch 't', ch 'n', ch 'r'] hd)
  · exact iff_of_false (fun h => absurd (h ▸ hlen') (by simp)) fun h => absurd (h.2 ▸ hlen) (by simp)
  have hescaped := escaped_isSome d
  cases he : escaped d with
  | none =>
    rw [tsvUnescape_backslash he, cons.injEq, and_iff_right rfl, iff_and_self]
    simp_all
  | some b =>
    rw [tsvUnescape_escape he]
    refine iff_of_false (fun h => ?_) fun h => h.1 (mem_append_left [tab, newline] (hescaped.1 (he ▸ rfl)))
    have := congrArg length h
    simp only [length_cons] at this
    omega

/-- A cell is what its text stands for, exactly if it is unambiguous. -/
theorem tsvUnescape_tsvEscape_iff (v : Bytes) : tsvUnescape (tsvEscape v) = v ↔ Unambiguous v := by
  induction v with
  | nil => simp [tsvEscape, tsvUnescape, Unambiguous]
  | cons c s ih =>
    rw [Unambiguous, ← ih]
    rcases tsvEscape_cons c s with ⟨hc, d, hesc, hd, -⟩ | ⟨rfl, hesc⟩ | ⟨hc, hesc⟩ <;> rw [hesc]
    · obtain ⟨hr, hb⟩ : c ≠ carriageReturn ∧ c ≠ backslash := by
        constructor <;> rintro rfl <;> exact absurd hc (by decide)
      simp [tsvUnescape_escape hd, hr, hb]
    · exact iff_of_false (fun h => absurd (h ▸ (length_tsvUnescape s).1) (by simp)) fun h => h.1 rfl
    · have hr : c ≠ carriageReturn := fun h => hc (by simp [h])
      by_cases hb : c = backslash
      · subst hb
        cases s with
        | nil => simp [tsvEscape, tsvUnescape, hr]
        | cons d s => simp [tsvUnescape_backslash_iff, hr]
      · simp [tsvUnescape_cons hb, hr, hb]

end

theorem splitOn_lines (lines : List Bytes) (h : ∀ l ∈ lines, newline ∉ l) :
    ((lines.flatMap (· ++ [newline])).splitOn newline).dropLast = lines := by
  induction lines with
  | nil => rfl
  | cons l lines ih =>
    rw [flatMap_cons, append_assoc, singleton_append, splitOn_append_cons_self_of_not_mem (h l mem_cons_self),
      dropLast_cons_of_ne_nil (splitOn_ne_nil newline _), ih fun l' hl' => h l' (mem_cons_of_mem _ hl')]

theorem newline_notMem {cells : List Bytes} (h : ∀ cell ∈ cells, newline ∉ cell) : newline ∉ [tab].intercalate cells := by
  induction cells with
  | nil => simp
  | cons v cells ih =>
    have ih := ih fun cell hcell => h cell (mem_cons_of_mem _ hcell)
    cases cells with
    | nil => simpa using h
    | cons w cells => simp [intercalate_cons_cons, ih, h v, show newline ≠ tab by decide]

theorem readTsv_toTsv (t : TableRows) (hvars : t.vars ≠ []) (hnames : ∀ v ∈ t.vars, tab ∉ v ∧ newline ∉ v) :
    readTsv (toTsv t) =
      t.vars :: t.rows.map fun row => row.map fun cell => tsvUnescape (tsvEscape (cell.getD [])) := by
  have hcell (cell : Option Bytes) : cell.elim [] tsvEscape = tsvEscape (cell.getD []) := by
    cases cell <;> rfl
  have hrow row (h : row ∈ t.rows) : (tsvLine row).splitOn tab = row.map fun cell => tsvEscape (cell.getD []) := by
    rw [tsvLine, splitOn_intercalate _ (by simp [hcell, separators_notMem_tsvEscape])
      (by simpa using t.row_ne_nil hvars row h)]
    simp [hcell]
  have hlines : ∀ l ∈ [tab].intercalate (t.vars.map (ch '?' :: ·)) :: t.rows.map tsvLine, newline ∉ l := by
    rw [forall_mem_cons, forall_mem_map]
    refine ⟨newline_notMem ?_, fun row _ => newline_notMem ?_⟩
    · simpa [show newline ≠ ch '?' by decide] using fun v hv => (hnames v hv).2
    · simp [hcell, separators_notMem_tsvEscape]
  rw [readTsv, toTsv, splitOn_lines _ hlines, map_cons, map_map, Function.comp_def, map_congr_left hrow,
    splitOn_intercalate _ (by simpa [show tab ≠ ch '?' by decide] using fun v hv => (hnames v hv).1) (by simpa)]
  simp [Function.comp_def]

/-- **A result as tab-separated values**: with variables that have no separator,
the variables and all cells are read back exactly if no cell is ambiguous. -/
theorem readTsv_toTsv_iff (t : TableRows) (hvars : t.vars ≠ []) (hnames : ∀ v ∈ t.vars, tab ∉ v ∧ newline ∉ v) :
    readTsv (toTsv t) = t.vars :: t.rows.map (fun row => row.map fun cell => cell.getD []) ↔
      ∀ row ∈ t.rows, ∀ v, some v ∈ row → Unambiguous v := by
  rw [readTsv_toTsv t hvars hnames, cons.injEq, and_iff_right rfl, map_inj_left]
  refine forall₂_congr fun row _ => ?_
  rw [map_inj_left]
  refine ⟨fun h v hv => (tsvUnescape_tsvEscape_iff v).1 (h _ hv), fun h cell hcell => ?_⟩
  cases cell with
  | none => rfl
  | some v => exact (tsvUnescape_tsvEscape_iff v).2 (h v hcell)

theorem readTsv_toTsv_tab : readTsv (toTsv ⟨[ascii "a"], [[some [tab]], [none]], by simp⟩) = [[ascii "a"], [[tab]], [[]]] :=
  (readTsv_toTsv_iff ⟨[ascii "a"], [[some [tab]], [none]], by simp⟩ (by simp) (by decide)).2 (by
    simpa using (tsvUnescape_tsvEscape_iff [tab]).1 (by decide))

/-- A tab, and a backslash with a letter. -/
theorem toTsv_ambiguous : [tab] ≠ [backslash, ch 't'] ∧ toTsv ⟨[ascii "a"], [[some [tab]]], by simp⟩ =
    toTsv ⟨[ascii "a"], [[some [backslash, ch 't']]], by simp⟩ := by
  decide

end GengoDB.Endpoint
