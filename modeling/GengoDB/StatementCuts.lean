/-
Statements out of a text (`StatementAccumulator::feed` of `SparqlEngine.cpp`):
a scanner of its own that cuts at the `;` it sees outside of IRIs, strings,
comments and braces. The tokenizer of the front end sees the same `;` as long
as no `<` is a less-than and no `#` stands in a prefixed name
(`cuts_eq_semicolons`): the scanner takes every `<` for an IRI up to the next
`>`, and every `#` for a comment.
-/
import GengoDB.SparqlTokenizer

namespace GengoDB.SparqlText

open Chars List Nat

structure StatementAccumulator where
  buf : Bytes := []
  depth : Int := 0
  inIri : Bool := false
  inStr : Bool := false
  strDelim : Codec.Byte := 0
  deriving DecidableEq

namespace StatementAccumulator

/-- The loop of `feed` from the byte at `i` on, with the place of the `;` that
ends a statement. The flag is set inside a comment. -/
def feedFrom : StatementAccumulator → Bool → Nat → Bytes → StatementAccumulator × List (Nat × Bytes)
  | acc, _, _, [] => (acc, [])
  | acc, true, i, c :: s =>
    if c = newline then feedFrom { acc with buf := acc.buf ++ [newline] } false (i + 1) s
    else feedFrom acc true (i + 1) s
  | acc, false, i, c :: s =>
    let pushed := { acc with buf := acc.buf ++ [c] }
    if acc.inIri then feedFrom { pushed with inIri := c != ch '>' } false (i + 1) s
    else if acc.inStr then
      if c = backslash then
        match s with
        | d :: s => feedFrom { pushed with buf := acc.buf ++ [c, d] } false (i + 2) s
        | [] => ({ pushed with inStr := c != acc.strDelim }, [])
      else feedFrom { pushed with inStr := c != acc.strDelim } false (i + 1) s
    else if c = ch '#' then feedFrom acc true (i + 1) s
    else if c = ch '<' then feedFrom { pushed with inIri := true } false (i + 1) s
    else if c = doubleQuote || c = singleQuote then feedFrom { pushed with inStr := true, strDelim := c } false (i + 1) s
    else if c = ch '{' then feedFrom { pushed with depth := acc.depth + 1 } false (i + 1) s
    else if c = ch '}' then feedFrom { pushed with depth := acc.depth - 1 } false (i + 1) s
    else if c = ch ';' && acc.depth ≤ 0 then
      let (acc', out) := feedFrom { acc with buf := [] } false (i + 1) s
      (acc', (i, acc.buf) :: out)
    else feedFrom pushed false (i + 1) s

variable {acc : StatementAccumulator} {c d : Codec.Byte} {s : Bytes} {i : Nat}

theorem feedFrom_between (hiri : acc.inIri = false) (hstr : acc.inStr = false) : acc.feedFrom false i (c :: s) =
      if c = ch '#' then feedFrom acc true (i + 1) s
      else if c = ch '<' then feedFrom { acc with buf := acc.buf ++ [c], inIri := true } false (i + 1) s
      else if c = doubleQuote || c = singleQuote then
        feedFrom { acc with buf := acc.buf ++ [c], inStr := true, strDelim := c } false (i + 1) s
      else if c = ch '{' then feedFrom { acc with buf := acc.buf ++ [c], depth := acc.depth + 1 } false (i + 1) s
      else if c = ch '}' then feedFrom { acc with buf := acc.buf ++ [c], depth := acc.depth - 1 } false (i + 1) s
      else if c = ch ';' && acc.depth ≤ 0 then ((feedFrom { acc with buf := [] } false (i + 1) s).1,
          (i, acc.buf) :: (feedFrom { acc with buf := [] } false (i + 1) s).2)
      else feedFrom { acc with buf := acc.buf ++ [c] } false (i + 1) s := by
  rw [feedFrom.eq_def]
  simp [hiri, hstr]

theorem feedFrom_iri (hiri : acc.inIri) : acc.feedFrom false i (c :: s) =
      feedFrom { acc with buf := acc.buf ++ [c], inIri := c != ch '>' } false (i + 1) s := by
  rw [feedFrom.eq_def]
  simp only [hiri, if_true]

theorem feedFrom_str (hiri : acc.inIri = false) (hstr : acc.inStr) (hc : c ≠ backslash) :
    acc.feedFrom false i (c :: s) =
      feedFrom { acc with buf := acc.buf ++ [c], inStr := c != acc.strDelim } false (i + 1) s := by
  rw [feedFrom.eq_def]
  simp [hiri, hstr, hc]

theorem feedFrom_escape (hiri : acc.inIri = false) (hstr : acc.inStr) : acc.feedFrom false i (backslash :: d :: s) =
      feedFrom { acc with buf := acc.buf ++ [backslash, d] } false (i + 2) s := by
  rw [feedFrom.eq_def]
  simp [hiri, hstr]

variable (acc : StatementAccumulator)

def feed (chunk : Bytes) : StatementAccumulator × List Bytes :=
  let (acc, out) := feedFrom acc false 0 chunk
  (acc, out.map Prod.snd)

/-- One byte, but for an escape in a string: what it does does not depend on
its place or on the bytes after it, and a newline ends a comment. -/
theorem feedFrom_step (comment : Bool) (c : Codec.Byte)
    (h : comment = false → acc.inIri = false → acc.inStr → c ≠ backslash) :
    ∃ acc' comment', ∃ out : Option Bytes, (c = newline → comment' = false) ∧ ∀ i s, acc.feedFrom comment i (c :: s) =
      ((feedFrom acc' comment' (i + 1) s).1,
        (out.map fun statement => (i, statement)).toList ++ (feedFrom acc' comment' (i + 1) s).2) := by
  cases comment with
  | true =>
    by_cases hc : c = newline
    · exact ⟨_, false, none, fun _ => rfl, fun i s => by rw [feedFrom, if_pos hc]; rfl⟩
    · exact ⟨acc, true, none, fun h => absurd h hc, fun i s => by rw [feedFrom, if_neg hc]; rfl⟩
  | false =>
    cases hiri : acc.inIri with
    | true => exact ⟨_, false, none, fun _ => rfl, fun i s => feedFrom_iri hiri⟩
    | false =>
      cases hstr : acc.inStr with
      | true => exact ⟨_, false, none, fun _ => rfl, fun i s => feedFrom_str hiri hstr (h rfl hiri hstr)⟩
      | false =>
        have heq i s := feedFrom_between (s := s) (c := c) (i := i) hiri hstr
        split_ifs at heq with hhash hlt hquote hopen hclose hsemi
        · exact ⟨_, true, none, fun h => absurd (h.symm.trans hhash) (by decide), heq⟩
        · exact ⟨_, false, none, fun _ => rfl, heq⟩
        · exact ⟨_, false, none, fun _ => rfl, heq⟩
        · exact ⟨_, false, none, fun _ => rfl, heq⟩
        · exact ⟨_, false, none, fun _ => rfl, heq⟩
        · exact ⟨_, false, some acc.buf, fun _ => rfl, heq⟩
        · exact ⟨_, false, none, fun _ => rfl, heq⟩

/-- **A line at a time, or at once**: a line ends a comment, and an escape in a
string does not go over its end. -/
theorem feedFrom_line (b : Bytes) : ∀ (a : Bytes) (acc : StatementAccumulator) (comment : Bool) (i : Nat),
    acc.feedFrom comment i (a ++ newline :: b) =
      (((acc.feedFrom comment i (a ++ [newline])).1.feedFrom false (i + a.length + 1) b).1,
        (acc.feedFrom comment i (a ++ [newline])).2 ++
          ((acc.feedFrom comment i (a ++ [newline])).1.feedFrom false (i + a.length + 1) b).2)
  | [], acc, comment, i => by
    obtain ⟨acc', comment', out, hcomment, hstep⟩ := feedFrom_step acc comment newline fun _ _ _ => by decide
    rw [hcomment rfl] at hstep
    rw [nil_append, nil_append, hstep, hstep]
    simp [feedFrom]
  | c :: a, acc, comment, i => by
    by_cases hescape : comment = false ∧ acc.inIri = false ∧ acc.inStr ∧ c = backslash
    · obtain ⟨rfl, hiri, hstr, rfl⟩ := hescape
      cases a with
      | nil =>
        simp only [cons_append, nil_append, feedFrom_escape hiri hstr]
        rfl
      | cons d a =>
        simp only [cons_append, feedFrom_escape hiri hstr]
        have hplace : i + 2 + a.length + 1 = i + (backslash :: d :: a).length + 1 := by
          simp only [length_cons]
          omega
        rw [feedFrom_line b a, hplace]
    · obtain ⟨acc', comment', out, -, hstep⟩ := feedFrom_step acc comment c
        fun hcomment hiri hstr hc => hescape ⟨hcomment, hiri, hstr, hc⟩
      have hplace : i + 1 + a.length + 1 = i + (c :: a).length + 1 := by
        rw [length_cons]
        omega
      rw [cons_append, cons_append, hstep, hstep, feedFrom_line b a, hplace, append_assoc]

/-- The places do not matter to what comes out. -/
theorem feedFrom_place : ∀ (s : Bytes) (acc : StatementAccumulator) (comment : Bool) (i j : Nat),
    (acc.feedFrom comment i s).1 = (acc.feedFrom comment j s).1 ∧
      (acc.feedFrom comment i s).2.map Prod.snd = (acc.feedFrom comment j s).2.map Prod.snd
  | [], _, _, _, _ => by simp [feedFrom]
  | c :: s, acc, comment, i, j => by
    by_cases hescape : comment = false ∧ acc.inIri = false ∧ acc.inStr ∧ c = backslash
    · obtain ⟨rfl, hiri, hstr, rfl⟩ := hescape
      cases s with
      | nil => simp [feedFrom, hiri, hstr]
      | cons d s =>
        rw [feedFrom_escape hiri hstr, feedFrom_escape hiri hstr]
        exact feedFrom_place s _ false (i + 2) (j + 2)
    · obtain ⟨acc', comment', out, -, hstep⟩ := feedFrom_step acc comment c
        fun hcomment hiri hstr hc => hescape ⟨hcomment, hiri, hstr, hc⟩
      obtain ⟨hacc, hout⟩ := feedFrom_place s acc' comment' (i + 1) (j + 1)
      rw [hstep, hstep, map_append, map_append, hout]
      exact ⟨hacc, congrArg (· ++ _) (by cases out <;> rfl)⟩

/-- The REPL: one chunk after the other. -/
def feedAll : StatementAccumulator → List Bytes → StatementAccumulator × List Bytes
  | acc, [] => (acc, [])
  | acc, chunk :: chunks =>
    let (acc, out) := acc.feed chunk
    let (acc, out') := acc.feedAll chunks
    (acc, out ++ out')

/-- **Chunks that end with a newline**: the statements, the pending text and the
state of the scanner are those of the whole text. -/
theorem feedAll_eq_feed (chunks : List Bytes)
    (h : ∀ chunk ∈ chunks, chunk.getLast? = some newline) : acc.feedAll chunks = acc.feed chunks.flatten := by
  induction chunks generalizing acc with
  | nil => rfl
  | cons chunk chunks ih =>
    obtain ⟨a, rfl⟩ := getLast?_eq_some_iff.1 (h chunk mem_cons_self)
    have hline := feedFrom_line chunks.flatten a acc false 0
    have hplace := feedFrom_place chunks.flatten (acc.feed (a ++ [newline])).1 false 0 (0 + a.length + 1)
    have hrest := ih (acc.feed (a ++ [newline])).1 fun c hc => h c (mem_cons_of_mem _ hc)
    simp only [feed, feedAll, flatten_cons, append_assoc, singleton_append] at hplace hrest ⊢
    rw [hline, map_append, hrest, hplace.1, hplace.2]

theorem feedAll_eq_feed_comment : feedAll {} [ascii "A # b;\n", ascii "'\\\n", ascii "'; C\n"] =
      feed {} (ascii "A # b;\n'\\\n'; C\n") :=
  feedAll_eq_feed {} [ascii "A # b;\n", ascii "'\\\n", ascii "'; C\n"] (by decide)

/-- Where `feed` cuts a text. -/
def cuts (text : Bytes) : List Nat := (feedFrom {} false 0 text).2.map Prod.fst

end StatementAccumulator

open StatementAccumulator

/-- What a token adds to the brace depth. -/
def TK.opens : TK → Int
  | .lBrace => 1
  | .rBrace => -1
  | _ => 0

/-- The `;` among the tokens that stand at brace depth zero. -/
def semicolonsFrom : Int → List (Token × Nat) → List Nat
  | _, [] => []
  | depth, (t, i) :: toks =>
    let later := semicolonsFrom (depth + t.kind.opens) toks
    if t.kind = .semicolon && depth = 0 then i :: later else later

def semicolons (text : Bytes) : List Nat := semicolonsFrom 0 (tokenize text)

/-! ## The scanner over one token -/

/-- Between tokens, at a brace depth. -/
structure Between (acc : StatementAccumulator) (depth : Int) : Prop where
  depth : acc.depth = depth
  inIri : acc.inIri = false
  inStr : acc.inStr = false

/-- The cuts from `i` on. -/
def cutsFrom (acc : StatementAccumulator) (i : Nat) (s : Bytes) : List Nat := (acc.feedFrom false i s).2.map Prod.fst

/-- The scanner goes over the first `n` bytes without a cut. -/
def Passes (s : Bytes) (n : Nat) (depth depth' : Int) : Prop :=
  ∀ acc i, Between acc depth → ∃ acc', Between acc' depth' ∧ cutsFrom acc i s = cutsFrom acc' (i + n) (s.drop n)

variable {s : Bytes} {n m : Nat} {d e f : Int} {c : Codec.Byte} {acc : StatementAccumulator} {i : Nat}

theorem Passes.zero : Passes s 0 d d := fun acc _ hacc => ⟨acc, hacc, rfl⟩

theorem Passes.trans (h : Passes s n d e) (h' : Passes (s.drop n) m e f) : Passes s (n + m) d f := by
  intro acc i hacc
  obtain ⟨acc₁, hacc₁, hcuts⟩ := h acc i hacc
  obtain ⟨acc₂, hacc₂, hcuts'⟩ := h' acc₁ (i + n) hacc₁
  refine ⟨acc₂, hacc₂, ?_⟩
  rw [hcuts, hcuts', drop_drop, add_assoc]

theorem Passes.cons (h : Passes (c :: s) 1 d e) (h' : Passes s n e f) : Passes (c :: s) (n + 1) d f := by
  rw [add_comm]
  exact h.trans h'

/-- Bytes the scanner has no rule for. -/
def isPlain (c : Codec.Byte) : Bool :=
  !(c ∈ [ch '#', ch '<', doubleQuote, singleQuote, ch '{', ch '}', ch ';'])

theorem passes_plain (hc : isPlain c) : Passes (c :: s) 1 d d := by
  intro acc i hacc
  refine ⟨{ acc with buf := acc.buf ++ [c] }, ⟨hacc.depth, hacc.inIri, hacc.inStr⟩, ?_⟩
  simp only [isPlain, mem_cons, Bool.not_eq_true', decide_eq_false_iff_not, not_or] at hc
  obtain ⟨hhash, hlt, hdouble, hsingle, hopen, hclose, hsemi⟩ := hc
  simp only [cutsFrom, feedFrom_between hacc.inIri hacc.inStr, hhash, hlt, hdouble, hsingle,
    hopen, hclose, hsemi, Bool.false_eq_true, if_false, decide_false, Bool.or_self, Bool.false_and, drop_one, tail_cons]

theorem passes_run {p : Codec.Byte → Bool} (hp : ∀ c, p c → isPlain c) : ∀ s, Passes s (run p s) d d
  | [] => .zero
  | c :: s => by
    by_cases hc : p c
    · rw [run, if_pos hc]
      exact (passes_plain (hp c hc)).cons (passes_run hp s)
    · rw [run, if_neg hc]
      exact .zero

theorem passes_brace : Passes (ch '{' :: s) 1 d (d + 1) := by
  intro acc i hacc
  refine ⟨{ acc with buf := acc.buf ++ [ch '{'], depth := acc.depth + 1 }, ⟨?_, hacc.inIri, hacc.inStr⟩, ?_⟩
  · exact congrArg (· + 1) hacc.depth
  · have hnot : ch '{' ≠ ch '#' ∧ ch '{' ≠ ch '<' ∧ ch '{' ≠ doubleQuote ∧ ch '{' ≠ singleQuote := by decide
    simp only [cutsFrom, feedFrom_between hacc.inIri hacc.inStr, hnot, Bool.false_eq_true, if_false,
      decide_false, Bool.or_self, if_true, drop_one, tail_cons]

theorem passes_close : Passes (ch '}' :: s) 1 d (d - 1) := by
  intro acc i hacc
  refine ⟨{ acc with buf := acc.buf ++ [ch '}'], depth := acc.depth - 1 }, ⟨?_, hacc.inIri, hacc.inStr⟩, ?_⟩
  · exact congrArg (· - 1) hacc.depth
  · have hnot : ch '}' ≠ ch '#' ∧ ch '}' ≠ ch '<' ∧ ch '}' ≠ doubleQuote ∧ ch '}' ≠ singleQuote ∧ ch '}' ≠ ch '{' := by
      decide
    simp only [cutsFrom, feedFrom_between hacc.inIri hacc.inStr, hnot, Bool.false_eq_true, if_false,
      decide_false, Bool.or_self, if_true, drop_one, tail_cons]

theorem cutsFrom_semicolon (hacc : Between acc d) : ∃ acc', Between acc' d ∧
    cutsFrom acc i (ch ';' :: s) = if d ≤ 0 then i :: cutsFrom acc' (i + 1) s else cutsFrom acc' (i + 1) s := by
  have hnot : ch ';' ≠ ch '#' ∧ ch ';' ≠ ch '<' ∧ ch ';' ≠ doubleQuote ∧ ch ';' ≠ singleQuote ∧ ch ';' ≠ ch '{' ∧
      ch ';' ≠ ch '}' := by decide
  by_cases hd : d ≤ 0
  · refine ⟨{ acc with buf := [] }, ⟨hacc.depth, hacc.inIri, hacc.inStr⟩, ?_⟩
    simp only [cutsFrom, feedFrom_between hacc.inIri hacc.inStr, hnot, hacc.depth, hd,
      Bool.false_eq_true, if_false, decide_false, decide_true, Bool.or_self, Bool.and_self, if_true, map_cons]
  · refine ⟨{ acc with buf := acc.buf ++ [ch ';'] }, ⟨hacc.depth, hacc.inIri, hacc.inStr⟩, ?_⟩
    simp only [cutsFrom, feedFrom_between hacc.inIri hacc.inStr, hnot, hacc.depth, hd,
      Bool.false_eq_true, if_false, decide_false, decide_true, Bool.or_self, Bool.and_false]

/-- White space and comments; both scanners end a comment at the newline. -/
theorem passes_gap : ∀ s, Passes s (gap false s) d d ∧ ∀ acc i, Between acc d → ∃ acc', Between acc' d ∧
    (acc.feedFrom true i s).2.map Prod.fst = cutsFrom acc' (i + gap true s) (s.drop (gap true s))
  | [] => ⟨.zero, fun acc _ hacc => ⟨acc, hacc, rfl⟩⟩
  | c :: s => by
    obtain ⟨hplain, hcomment⟩ := passes_gap s
    constructor
    · by_cases hspace : isSpace c
      · have hc : isPlain c := by
          simp only [isPlain, Bool.not_eq_true', decide_eq_false_iff_not]
          rintro hmem
          have hall : ∀ x ∈ [ch '#', ch '<', doubleQuote, singleQuote, ch '{', ch '}', ch ';'], isSpace x = false := by
            decide +kernel
          rw [hall c hmem] at hspace
          cases hspace
        rw [gap, if_pos hspace]
        exact (passes_plain hc).cons hplain
      · rw [gap, if_neg hspace]
        split
        · next hhash =>
          intro acc i hacc
          obtain ⟨acc', hacc', hcuts⟩ := hcomment acc (i + 1) hacc
          refine ⟨acc', hacc', ?_⟩
          rw [cutsFrom, feedFrom_between hacc.inIri hacc.inStr, if_pos hhash, hcuts,
            drop_succ_cons, add_assoc, add_comm 1]
        · exact .zero
    · intro acc i hacc
      rw [feedFrom, gap, drop_succ_cons, add_comm (gap _ s), ← add_assoc]
      by_cases hc : c = newline
      · rw [if_pos hc, hc]
        exact hplain _ _ ⟨hacc.depth, hacc.inIri, hacc.inStr⟩
      · rw [if_neg hc, bne_iff_ne.2 hc]
        exact hcomment acc (i + 1) hacc

/-- After the `<` of an IRI. -/
theorem cutsFrom_iri : ∀ (acc : StatementAccumulator) (i : Nat) {s : Bytes}, acc.depth = d → acc.inIri →
    acc.inStr = false → ∃ acc', Between acc' d ∧
      cutsFrom acc i s = cutsFrom acc' (i + (readUntil (ch '>') s).2) (s.drop (readUntil (ch '>') s).2)
  | _, _, [], _, _, _ => ⟨{ depth := d }, ⟨rfl, rfl, rfl⟩, rfl⟩
  | acc, i, c :: s, hdepth, hiri, hstr => by
    rw [cutsFrom, feedFrom_iri hiri]
    by_cases hc : c = ch '>'
    · have hread : (readUntil (ch '>') (c :: s)).2 = 1 := by simp [readUntil, run, hc]
      rw [hread]
      exact ⟨{ acc with buf := acc.buf ++ [c], inIri := c != ch '>' }, ⟨hdepth, by simp [hc], hstr⟩, rfl⟩
    · have hread : (readUntil (ch '>') (c :: s)).2 = (readUntil (ch '>') s).2 + 1 := by
        simp only [readUntil, run, bne_iff_ne.2 hc, if_true, length_cons, add_lt_add_iff_right]
        split <;> rfl
      rw [hread, drop_succ_cons, add_comm (readUntil _ s).2, ← add_assoc]
      exact cutsFrom_iri _ _ hdepth (bne_iff_ne.2 hc) hstr

/-- After the opening quote of a string. -/
theorem cutsFrom_str {q : Codec.Byte} (acc : StatementAccumulator) (i : Nat) (hq : q ≠ backslash)
    (hdepth : acc.depth = d) (hiri : acc.inIri = false)
    (hstr : acc.inStr) (hdelim : acc.strDelim = q) : ∃ acc', Between acc' d ∧
      cutsFrom acc i s = cutsFrom acc' (i + (readStr q s).2) (s.drop (readStr q s).2) := by
  fun_induction readStr q s generalizing acc i with
  | case1 => exact ⟨{ depth := d }, ⟨rfl, rfl, rfl⟩, rfl⟩
  | case2 s =>
    rw [cutsFrom, feedFrom_str hiri hstr hq]
    exact ⟨{ acc with buf := acc.buf ++ [q], inStr := q != acc.strDelim }, ⟨hdepth, hiri, by simp [hdelim]⟩, rfl⟩
  | case3 hne =>
    refine ⟨{ depth := d }, ⟨rfl, rfl, rfl⟩, ?_⟩
    rw [cutsFrom, feedFrom.eq_def]
    simp only [hiri, hstr]
    rfl
  | case4 e s r n hread hne ih =>
    rw [cutsFrom, feedFrom_escape hiri hstr]
    obtain ⟨acc', hacc', hcuts⟩ := ih { acc with buf := acc.buf ++ [backslash, e] } (i + 2) hdepth hiri hstr hdelim
    rw [hread] at hcuts
    refine ⟨acc', hacc', hcuts.trans ?_⟩
    rw [drop_succ_cons, drop_succ_cons, add_assoc, add_comm 2]
  | case5 c s hne hback r n hread ih =>
    rw [cutsFrom, feedFrom_str hiri hstr hback]
    obtain ⟨acc', hacc', hcuts⟩ := ih { acc with buf := acc.buf ++ [c], inStr := c != acc.strDelim } (i + 1)
      hdepth hiri (by rw [hdelim]; exact bne_iff_ne.2 hne) hdelim
    rw [hread] at hcuts
    refine ⟨acc', hacc', hcuts.trans ?_⟩
    rw [drop_succ_cons, add_assoc, add_comm 1]

/-! ## Plain tokens -/

theorem isPlain_of_isWordByte : ∀ c, isWordByte c → isPlain c := by decide +kernel

theorem isPlain_of_isNameByte : ∀ c, isNameByte c → isPlain c := by decide +kernel

theorem isPlain_of_isDigit : ∀ c, isDigit c → isPlain c := by decide +kernel

theorem isPlain_of_isLocalByte : ∀ c, isLocalByte c → c ≠ ch '#' → isPlain c := by decide +kernel

theorem passes_numberLength : Passes s (numberLength s) d d := by
  have hdigits := passes_run (d := d) isPlain_of_isDigit
  unfold numberLength
  dsimp only
  split
  · next hfraction =>
    obtain ⟨t, ht⟩ : ∃ t, s.drop (run isDigit s) = ch '.' :: t := by
      cases hdrop : s.drop (run isDigit s) with
      | nil => simp [hdrop] at hfraction
      | cons b t => exact ⟨t, by simp_all⟩
    have hdot : Passes (s.drop (run isDigit s)) (run isDigit t + 1) d d := by
      rw [ht]
      exact (passes_plain (by decide)).cons (hdigits t)
    rw [ht, add_assoc, add_comm 1]
    exact (hdigits s).trans hdot
  · exact hdigits s

/-- A `#` of a prefixed name is in its value: only dots are dropped. -/
theorem mem_dropDots {c : Codec.Byte} (h : c ∈ s) (hc : c ≠ ch '.') : c ∈ dropDots s := by
  have hmem : c ∈ s.reverse.takeWhile (· == ch '.') ++ s.reverse.dropWhile (· == ch '.') := by
    rw [takeWhile_append_dropWhile]
    exact mem_reverse.2 h
  rcases mem_append.1 hmem with hdots | hrest
  · exact absurd (by simpa using all_eq_true.1 all_takeWhile _ hdots) hc
  · exact mem_reverse.2 hrest

theorem passes_local : ∀ {s : Bytes}, ch '#' ∉ s.take (run isLocalByte s) → Passes s (run isLocalByte s) d d
  | [], _ => .zero
  | c :: s, h => by
    by_cases hc : isLocalByte c
    · rw [run, if_pos hc] at h ⊢
      rw [take_succ_cons, mem_cons, not_or] at h
      exact (passes_plain (isPlain_of_isLocalByte c hc (Ne.symm h.1))).cons (passes_local h.2)
    · rw [run, if_neg hc]
      exact .zero

theorem passes_readIdent (h : (readIdent s).1 = .prefixedName → ch '#' ∉ (readIdent s).2.1) :
    Passes s (readIdent s).2.2 d d := by
  have hname := passes_run (d := d) isPlain_of_isNameByte s
  unfold readIdent at h ⊢
  dsimp only at h ⊢
  split at h
  · next hcolon =>
    rw [if_pos hcolon]
    obtain ⟨t, ht⟩ : ∃ t, s.drop (run isNameByte s) = ch ':' :: t := by
      cases hdrop : s.drop (run isNameByte s) with
      | nil => simp [hdrop] at hcolon
      | cons b t => exact ⟨t, by simp_all⟩
    rw [ht] at h ⊢
    have hhash : ch '#' ∉ t.take (run isLocalByte t) := by
      intro hmem
      exact h rfl (mem_append_right _ (mem_dropDots hmem (by decide)))
    have hlocal : Passes (s.drop (run isNameByte s)) (run isLocalByte t + 1) d d := by
      rw [ht]
      exact (passes_plain (by decide)).cons (passes_local hhash)
    rw [add_assoc, add_comm 1]
    exact hname.trans hlocal
  · next hcolon =>
    rw [if_neg hcolon]
    exact hname

/-! ## Any token -/

/-- Tokens the scanner reads as the tokenizer does. -/
def Token.Clear (t : Token) : Prop := t.kind ≠ .lt ∧ t.kind ≠ .lte ∧ (t.kind = .prefixedName → ch '#' ∉ t.value)

/-- Symbols are braces, a `;`, or plain. -/
theorem symbols_cases : ∀ e ∈ symbols, e = ([ch '{'], .lBrace) ∨ e = ([ch '}'], .rBrace) ∨ e = ([ch ';'], .semicolon) ∨
    e.2.opens = 0 ∧ ∀ b ∈ e.1, isPlain b := by
  decide +kernel

theorem passes_all : ∀ {w s : Bytes}, (∀ b ∈ w, isPlain b) → w <+: s → Passes s w.length d d
  | [], _, _, _ => .zero
  | b :: w, _, hw, h => by
    obtain ⟨t, rfl⟩ := h
    exact (passes_plain (hw b (by simp))).cons (passes_all (fun b hb => hw b (by simp [hb])) (prefix_append w t))

theorem passes_iri : Passes (ch '<' :: s) ((readUntil (ch '>') s).2 + 1) d d := by
  intro acc i hacc
  obtain ⟨acc', hacc', hcuts⟩ : ∃ acc', Between acc' d ∧
      cutsFrom { acc with buf := acc.buf ++ [ch '<'], inIri := true } (i + 1) s =
        cutsFrom acc' (i + 1 + (readUntil (ch '>') s).2) (s.drop (readUntil (ch '>') s).2) :=
    cutsFrom_iri _ _ hacc.depth rfl hacc.inStr
  refine ⟨acc', hacc', ?_⟩
  rw [cutsFrom, feedFrom_between hacc.inIri hacc.inStr,
    drop_succ_cons, add_comm (readUntil _ s).2, ← add_assoc]
  exact hcuts

theorem passes_string (hc : c = doubleQuote ∨ c = singleQuote) : Passes (c :: s) ((readStr c s).2 + 1) d d := by
  intro acc i hacc
  have hnot : c ≠ backslash ∧ c ≠ ch '#' ∧ c ≠ ch '<' := by rcases hc with rfl | rfl <;> decide
  obtain ⟨acc', hacc', hcuts⟩ : ∃ acc', Between acc' d ∧
      cutsFrom { acc with buf := acc.buf ++ [c], inStr := true, strDelim := c } (i + 1) s =
        cutsFrom acc' (i + 1 + (readStr c s).2) (s.drop (readStr c s).2) :=
    cutsFrom_str _ _ hnot.1 hacc.depth hacc.inIri rfl rfl
  refine ⟨acc', hacc', ?_⟩
  rw [cutsFrom, feedFrom_between hacc.inIri hacc.inStr, if_neg hnot.2.1, if_neg hnot.2.2,
    if_pos (by simpa using hc), drop_succ_cons, add_comm (readStr c s).2, ← add_assoc]
  exact hcuts

theorem passes_symbol {text : Bytes} {kind : TK} (h : (text, kind) ∈ symbols) (hs : text <+: s) (hsemi : kind ≠ .semicolon) :
    Passes s text.length d (d + kind.opens) := by
  rcases symbols_cases _ h with h | h | h | ⟨hopens, hplain⟩
  · cases h
    obtain ⟨t, rfl⟩ := hs
    exact passes_brace
  · cases h
    obtain ⟨t, rfl⟩ := hs
    exact passes_close
  · cases h
    exact absurd rfl hsemi
  · rw [show kind.opens = 0 from hopens, Int.add_zero]
    exact passes_all hplain hs

/-- **A token other than a `;`** is gone over, if it is clear. -/
theorem passes_scan (hhash : c ≠ ch '#') (hsemi : (scan c s).1 ≠ .semicolon)
    (hclear : Token.Clear ⟨(scan c s).1, (scan c s).2.1, m⟩) : Passes (c :: s) (scan c s).2.2 d (d + (scan c s).1.opens) := by
  obtain ⟨hlt, hlte, hname⟩ := hclear
  have h := scanned c s
  generalize scan c s = r at h hsemi hlt hlte hname ⊢
  have hsame {k : TK} (hk : k.opens = 0) {l : Nat} (h : Passes (c :: s) l d d) : Passes (c :: s) l d (d + k.opens) := by
    rwa [hk, Int.add_zero]
  cases h with
  | iri hc =>
    subst hc
    exact hsame rfl passes_iri
  | lte => exact absurd rfl hlte
  | lt => exact absurd rfl hlt
  | string hc => exact hsame rfl (passes_string hc)
  | variable_ hc =>
    have hplain : isPlain c := by rcases hc with rfl | rfl <;> decide
    exact hsame rfl ((passes_plain hplain).cons (passes_run isPlain_of_isWordByte s))
  | @blankNode t hc hs =>
    subst hc hs
    refine hsame rfl ((passes_plain (by decide)).cons ((passes_plain (by decide)).cons ?_))
    exact passes_run isPlain_of_isNameByte t
  | symbol h hs => exact passes_symbol h hs hsemi
  | number => exact hsame rfl passes_numberLength
  | ident =>
    have hopens : (readIdent (c :: s)).1.opens = 0 := by
      unfold readIdent
      dsimp only
      split <;> rfl
    exact hsame hopens (passes_readIdent hname)
  | unknown hangle hquote h =>
    have hsymbol {b : Codec.Byte} {k : TK} (hb : ([b], k) ∈ symbols) : c ≠ b := by
      rintro rfl
      exact h _ hb (prefix_append [c] s)
    have hopen := hsymbol (b := ch '{') (k := .lBrace) (by decide +kernel)
    have hclose := hsymbol (b := ch '}') (k := .rBrace) (by decide +kernel)
    have hsemicolon := hsymbol (b := ch ';') (k := .semicolon) (by decide +kernel)
    refine hsame rfl (passes_plain ?_)
    simp [isPlain, hhash, hangle, hquote, hopen, hclose, hsemicolon]

theorem scan_semicolon (h : (scan c s).1 = .semicolon) : c = ch ';' ∧ (scan c s).2.2 = 1 := by
  have hsymbols : ∀ e ∈ symbols, e.2 = .semicolon → e.1 = [ch ';'] := by decide +kernel
  have hscanned := scanned c s
  generalize scan c s = r at h hscanned ⊢
  cases hscanned with
  | iri | lte | lt | string | variable_ | blankNode | number | unknown => cases h
  | symbol hmem hs =>
    cases hsymbols _ hmem h
    obtain ⟨t, ht⟩ := hs
    exact ⟨(List.cons.inj ht).1.symm, rfl⟩
  | ident =>
    unfold readIdent at h
    dsimp only at h
    split at h <;> cases h

/-! ## Whole texts -/

/-- No `;` stands after more closing than opening braces. -/
def Balanced : Int → List (Token × Nat) → Prop
  | _, [] => True
  | depth, (t, _) :: toks => (t.kind = .semicolon → 0 ≤ depth) ∧ Balanced (depth + t.kind.opens) toks

/-- Nothing starts a comment or is white space after both are skipped. -/
theorem head_of_gap : ∀ s : Bytes, (∀ c ∈ (s.drop (gap false s)).head?, c ≠ ch '#') ∧
    ∀ c ∈ (s.drop (gap true s)).head?, c ≠ ch '#'
  | [] => by simp
  | b :: s => by
    obtain ⟨hplain, hcomment⟩ := head_of_gap s
    constructor
    · rw [gap]
      split
      · exact hplain
      · split
        · exact hcomment
        · next hhash => simpa using hhash
    · rw [gap]
      cases b != newline with
      | false => exact hplain
      | true => exact hcomment

/-- Both scanners, from one token boundary on. -/
theorem cutsFrom_tokens : ∀ {fuel : Nat} {T : Tokenizer} {acc : StatementAccumulator} {d : Int}, T.rest.length < fuel →
    Between acc d → (∀ t ∈ T.tokens fuel, t.1.Clear) → Balanced d (T.tokens fuel) →
      cutsFrom acc T.pos T.rest = semicolonsFrom d (T.tokens fuel)
  | fuel + 1, T, acc, d, hfuel, hacc, hclear, hbalanced => by
    obtain ⟨acc, hacc, hgap⟩ := (passes_gap T.rest).1 acc T.pos hacc
    have hgap : cutsFrom _ T.pos T.rest = cutsFrom acc T.skipWS.pos T.skipWS.rest := hgap
    have hlength : T.skipWS.rest.length ≤ T.rest.length := by simp [Tokenizer.skipWS, Tokenizer.skip]
    rw [hgap]
    cases hrest : T.skipWS.rest with
    | nil =>
      rw [Tokenizer.tokens_nil hrest]
      rfl
    | cons c s =>
      have hhash : c ≠ ch '#' := by
        have hhead := (head_of_gap T.rest).1 c
        rw [show T.rest.drop (gap false T.rest) = c :: s from hrest] at hhead
        exact hhead rfl
      obtain ⟨hpos, -⟩ := scan_spec c s
      rw [Tokenizer.tokens_cons hrest] at hclear hbalanced ⊢
      obtain ⟨hfirst, hclear⟩ := forall_mem_cons.1 hclear
      obtain ⟨hdepth, hbalanced⟩ := hbalanced
      have hskip : (T.skipWS.skip (scan c s).2.2).rest = (c :: s).drop (scan c s).2.2 := by rw [← hrest]; rfl
      have hshort : (T.skipWS.skip (scan c s).2.2).rest.length < fuel := by
        rw [hrest, length_cons] at hlength
        rw [hskip, length_drop, length_cons]
        omega
      -- What both give for the rest.
      have hnext {acc'} (hacc' : Between acc' (d + (scan c s).1.opens)) :
          cutsFrom acc' (T.skipWS.pos + (scan c s).2.2) ((c :: s).drop (scan c s).2.2) =
            semicolonsFrom (d + (scan c s).1.opens) ((T.skipWS.skip (scan c s).2.2).tokens fuel) := by
        rw [← hskip]
        exact cutsFrom_tokens hshort hacc' hclear hbalanced
      rw [semicolonsFrom]
      by_cases hsemi : (scan c s).1 = .semicolon
      · obtain ⟨rfl, hone⟩ := scan_semicolon hsemi
        obtain ⟨acc', hacc', hcuts⟩ := cutsFrom_semicolon hacc
        have hopens : d + (scan (ch ';') s).1.opens = d := by rw [hsemi]; exact Int.add_zero d
        have hplace : cutsFrom acc' (T.skipWS.pos + 1) s =
            cutsFrom acc' (T.skipWS.pos + (scan (ch ';') s).2.2) ((ch ';' :: s).drop (scan (ch ';') s).2.2) := by
          rfl
        have hzero : d ≤ 0 ↔ d = 0 := by
          have := hdepth hsemi
          omega
        rw [hcuts, hplace, hnext (by rw [hopens]; exact hacc')]
        by_cases hd : d = 0 <;> simp [hzero, hsemi]
      · obtain ⟨acc', hacc', hcuts⟩ := passes_scan hhash hsemi hfirst acc T.skipWS.pos hacc
        rw [hcuts, hnext hacc']
        simp [hsemi]

/-- Every token is one both scanners read alike. -/
def Legible (text : Bytes) : Prop := (∀ t ∈ tokenize text, t.1.Clear) ∧ Balanced 0 (tokenize text)

/-- **The cuts are the `;` at brace depth zero**, in a text with no less-than
and no `#` in a name. -/
theorem cuts_eq_semicolons {text : Bytes} (h : Legible text) : StatementAccumulator.cuts text = semicolons text :=
  cutsFrom_tokens (lt_succ_self _) ⟨rfl, rfl, rfl⟩ h.1 h.2

instance (t : Token) : Decidable t.Clear := inferInstanceAs (Decidable (_ ∧ _ ∧ _))

instance decidableBalanced : ∀ depth toks, Decidable (Balanced depth toks)
  | _, [] => .isTrue trivial
  | depth, (t, _) :: toks =>
    have := decidableBalanced (depth + t.kind.opens) toks
    inferInstanceAs (Decidable (_ ∧ _))

instance (text : Bytes) : Decidable (Legible text) := inferInstanceAs (Decidable (_ ∧ _))

theorem cuts_of_two_statements :
    StatementAccumulator.cuts (ascii "LOAD <a;b>; SELECT") = semicolons (ascii "LOAD <a;b>; SELECT") :=
  cuts_eq_semicolons (by decide +kernel)

/-- A less-than, and a `#` in a name, hide the `;` after them. -/
theorem cuts_miss_semicolon :
    StatementAccumulator.cuts (ascii "SELECT ?x WHERE \x7b ?x ex:p ?y FILTER(?y < 5) \x7d;") = [] ∧
    semicolons (ascii "SELECT ?x WHERE \x7b ?x ex:p ?y FILTER(?y < 5) \x7d;") = [45] ∧
    StatementAccumulator.cuts (ascii "ASK ex:a#b;") = [] ∧ semicolons (ascii "ASK ex:a#b;") = [10] := by
  decide +kernel

end GengoDB.SparqlText
