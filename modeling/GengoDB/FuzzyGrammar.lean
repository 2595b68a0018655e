/-
The turtle grammar over the tokens of `FuzzyTurtle`, with the triples a text
stands for in the order an RDF parser emits them: the triple of an object
before those of its own property list or collection, for each cell of a
collection `rdf:first`, what its item holds, `rdf:rest`. An object may carry a
degree, but not inside a collection.

The parser is sound for it: it takes the tokens of a derivation, adds the
degrees of its triples, and blanks the degrees in its copy (`Parser.after`).
-/
import GengoDB.FuzzyLexer

namespace GengoDB.FuzzyTurtle

open Fallible Chars List

/-! ## Tokens the grammar tells apart -/

namespace Token

def isPunct (t : Token) (c : Char) : Bool := t.kind = .punct && t.text.head? == some (ch c)

def isTerm (t : Token) : Bool := t.kind = .iri || t.kind = .name

def isKeyword (t : Token) (kw : String) : Bool := t.kind = .name && t.text.map toUpper == ascii kw

variable {t : Token} {c : Char}

theorem kind_of_isPunct (h : t.isPunct c) : t.kind = .punct := by
  simp only [isPunct, Bool.and_eq_true, decide_eq_true_eq] at h
  exact h.1

theorem isPunct_of_isPunct (h : t.isPunct c) (d : Char) : t.isPunct d = (ch c == ch d) := by
  simp only [isPunct, Bool.and_eq_true, beq_iff_eq] at h
  simp only [isPunct, h.1, h.2]
  rfl

theorem isPunct_of_kind (h : t.kind ≠ .punct) (c : Char) : t.isPunct c = false := by
  simp [isPunct, h]

theorem kind_of_isTerm (h : t.isTerm) : t.kind = .iri ∨ t.kind = .name := by
  simpa [isTerm] using h

theorem kind_ne_of_isTerm {k : Tok} (h : t.isTerm) (hk : k ≠ .iri ∧ k ≠ .name) : t.kind ≠ k := by
  rcases kind_of_isTerm h with h | h
  · exact h ▸ hk.1.symm
  · exact h ▸ hk.2.symm

theorem isPunct_of_isTerm (h : t.isTerm) (c : Char) : t.isPunct c = false :=
  isPunct_of_kind (kind_ne_of_isTerm h (by decide)) c

end Token

/-! ## The grammar -/

/-- A node of a triple. An anonymous node goes by the bracket that opens it, a
cell of a collection by the bracket and its place. -/
inductive Node where
  | token (t : Token)
  | literal (value : Token) (suffix : Option Token)
  | blank (bracket : Token)
  | cell (bracket : Token) (i : Nat)
  | first
  | rest
  | nil

structure Triple where
  subject : Node
  predicate : Node
  object : Node
  degree : BitVec 32

/-- What a part of the text can be: an object with the node it stands for, an
object of a triple, the objects of a subject and predicate, the predicates of
a subject, those after its first one, the items of a collection from one on,
with its closing bracket. -/
inductive Phrase where
  | node (node : Node)
  | object (subject predicate : Node)
  | objects (subject predicate : Node)
  | predicates (subject : Node)
  | morePredicates (subject : Node)
  | items (bracket : Token) (i : Nat) (node : Node)

/-- The tokens are such a phrase, and stand for these triples. The flag is set
inside a collection. -/
inductive Derives : Bool → Phrase → List Token → List Triple → Prop where
  | term {coll t} (h : t.isTerm ∨ t.kind = .number) : Derives coll (.node (.token t)) [t] []
  | string {coll t} (h : t.kind = .string) : Derives coll (.node (.literal t none)) [t] []
  | tagged {coll t l} (h : t.kind = .string) (hl : l.kind = .langTag) :
    Derives coll (.node (.literal t (some l))) [t, l] []
  | typed {coll t c d} (h : t.kind = .string) (hc : c.kind = .caret2) (hd : d.isTerm) :
    Derives coll (.node (.literal t (some d))) [t, c, d] []
  | anon {coll o c} (ho : o.isPunct '[') (hc : c.isPunct ']') : Derives coll (.node (.blank o)) [o, c] []
  | properties {coll o c a ts} (ho : o.isPunct '[') (h : Derives coll (.predicates (.blank o)) a ts) (hc : c.isPunct ']') :
    Derives coll (.node (.blank o)) (o :: (a ++ [c])) ts
  | collection {coll o n a ts} (ho : o.isPunct '(') (h : Derives coll (.items o 0 n) a ts) :
    Derives coll (.node n) (o :: a) ts
  | close {coll o i c} (hc : c.isPunct ')') : Derives coll (.items o i .nil) [c] []
  | item {coll o i n a b ts us} (h : Derives true (.object (.cell o i) .first) a ts)
      (h' : Derives coll (.items o (i + 1) n) b us) :
    Derives coll (.items o i (.cell o i)) (a ++ b) (ts ++ ⟨.cell o i, .rest, n, RdfGraph.one32⟩ :: us)
  | bare {coll s p n a ts} (h : Derives coll (.node n) a ts) :
    Derives coll (.object s p) a (⟨s, p, n, RdfGraph.one32⟩ :: ts)
  | degree {s p n a ts d} (h : Derives false (.node n) a ts) (hd : d.kind = .degree) :
    Derives false (.object s p) (a ++ [d]) (⟨s, p, n, d.degree⟩ :: ts)
  | one {coll s p a ts} (h : Derives coll (.object s p) a ts) : Derives coll (.objects s p) a ts
  | cons {coll s p a c b ts us} (h : Derives coll (.object s p) a ts) (hc : c.isPunct ',')
      (h' : Derives coll (.objects s p) b us) : Derives coll (.objects s p) (a ++ c :: b) (ts ++ us)
  | predicates {coll s v a b ts us} (hv : v.isTerm) (h : Derives coll (.objects s (.token v)) a ts)
      (h' : Derives coll (.morePredicates s) b us) : Derives coll (.predicates s) (v :: (a ++ b)) (ts ++ us)
  | noMore {coll s} : Derives coll (.morePredicates s) [] []
  | skip {coll s c a ts} (hc : c.isPunct ';') (h : Derives coll (.morePredicates s) a ts) :
    Derives coll (.morePredicates s) (c :: a) ts
  | more {coll s c a ts} (hc : c.isPunct ';') (h : Derives coll (.predicates s) a ts) :
    Derives coll (.morePredicates s) (c :: a) ts

/-- `triples`. -/
inductive Triples : List Token → List Triple → Prop where
  | term {t a ts} (ht : t.isTerm) (hnotPrefix : ¬ t.isKeyword "PREFIX") (hnotBase : ¬ t.isKeyword "BASE")
      (h : Derives false (.predicates (.token t)) a ts) : Triples (t :: a) ts
  | anon {o c a ts} (ho : o.isPunct '[') (hc : c.isPunct ']') (h : Derives false (.predicates (.blank o)) a ts) :
    Triples (o :: c :: a) ts
  | properties {o c a ts} (ho : o.isPunct '[') (h : Derives false (.predicates (.blank o)) a ts) (hc : c.isPunct ']') :
    Triples (o :: (a ++ [c])) ts
  | propertiesMore {o c a b ts us} (ho : o.isPunct '[') (h : Derives false (.predicates (.blank o)) a ts)
      (hc : c.isPunct ']') (h' : Derives false (.predicates (.blank o)) b us) : Triples (o :: (a ++ c :: b)) (ts ++ us)
  | collection {o n a b ts us} (ho : o.isPunct '(') (h : Derives false (.items o 0 n) a ts)
      (h' : Derives false (.predicates n) b us) : Triples (o :: (a ++ b)) (ts ++ us)

inductive Statement : List Token → List Triple → Prop where
  | atPrefix {d n i e} (hd : d.kind = .directive) (htext : d.text = ascii "@prefix") (hn : n.isTerm) (hi : i.isTerm)
      (he : e.isPunct '.') : Statement [d, n, i, e] []
  | atBase {d i e} (hd : d.kind = .directive) (htext : d.text = ascii "@base") (hi : i.isTerm) (he : e.isPunct '.') :
    Statement [d, i, e] []
  | keywordPrefix {d n i} (hd : d.isKeyword "PREFIX") (hn : n.isTerm) (hi : i.isTerm) : Statement [d, n, i] []
  | keywordBase {d i} (hd : d.isKeyword "BASE") (hi : i.isTerm) : Statement [d, i] []
  | triples {a ts e} (h : Triples a ts) (he : e.isPunct '.') : Statement (a ++ [e]) ts

inductive Document : List Token → List Triple → Prop where
  | nil : Document [] []
  | cons {a b ts us} (h : Statement a ts) (h' : Document b us) : Document (a ++ b) (ts ++ us)

section
variable {coll : Bool} {s : Node} {a : List Token} {ts : List Triple}

theorem Derives.skips (h : Derives coll (.morePredicates s) a ts) : ∀ {toks : List Token}, (∀ t ∈ toks, t.isPunct ';') →
    Derives coll (.morePredicates s) (toks ++ a) ts
  | [], _ => h
  | t :: _, htoks => .skip (htoks t (by simp)) (h.skips fun u hu => htoks u (by simp [hu]))

theorem Derives.mores (h : Derives coll (.predicates s) a ts) : ∀ {toks : List Token}, (∀ t ∈ toks, t.isPunct ';') →
    toks ≠ [] → Derives coll (.morePredicates s) (toks ++ a) ts
  | [t], htoks, _ => .more (htoks t (by simp)) h
  | t :: u :: _, htoks, _ =>
    .skip (htoks t (by simp)) (h.mores (fun v hv => htoks v (by simp [hv])) (cons_ne_nil u _))

end

/-! ## Taking tokens -/

/-- The current token and the lexer after it, before and after these tokens. -/
inductive Steps (fromChars : Bytes → Option (BitVec 32)) : Token × Lexer → List Token → Token × Lexer → Prop where
  | nil (s) : Steps fromChars s [] s
  | cons {t L s ts s'} (hkind : t.kind ≠ .end_) (hnext : Lexer.next fromChars L = .ok s) (h : Steps fromChars s ts s') :
    Steps fromChars (t, L) (t :: ts) s'

theorem blankAll_append (out : Bytes) (a b : List Token) : blankAll out (a ++ b) = blankAll (blankAll out a) b :=
  foldl_append

theorem blankAll_of_kind {out : Bytes} {t : Token} (h : t.kind ≠ .degree) : blankAll out [t] = out := if_neg h

theorem Steps.append {fromChars : Bytes → Option (BitVec 32)} {s m s' : Token × Lexer} {a b : List Token}
    (h : Steps fromChars s a m) (h' : Steps fromChars m b s') : Steps fromChars s (a ++ b) s' := by
  induction h with
  | nil => exact h'
  | cons hkind hnext _ ih => exact .cons hkind hnext (ih h')

namespace Parser

/-- The current token and what is behind it. -/
def place (p : Parser) : Token × Lexer := (p.cur, p.lexer)

/-- `p` at `s`, after the tokens `toks`, with the degrees of their triples. -/
def after (p : Parser) (toks : List Token) (ds : List (BitVec 32)) (s : Token × Lexer) : Parser :=
  { p with lexer := s.2, cur := s.1, out := blankAll p.out toks, degrees := p.degrees ++ ds }

variable {p p' : Parser} {s m : Token × Lexer} {a b toks : List Token} {ds es : List (BitVec 32)}

theorem after_after : (p.after a ds m).after b es s = p.after (a ++ b) (ds ++ es) s := by
  simp [after, blankAll_append]

theorem after_nil : p.after [] [] p.place = p := by
  simp [after, blankAll, place]

section
variable (fromChars : Bytes → Option (BitVec 32))

/-- `p'` comes from `p` by the tokens `toks`, with the degrees `ds`. -/
def Took (p p' : Parser) (toks : List Token) (ds : List (BitVec 32)) : Prop :=
  ∃ s, Steps fromChars p.place toks s ∧ p' = p.after toks ds s

/-- The object without its degree. -/
def parseNode (fuel : Nat) (p : Parser) : Except Failure Parser :=
  if p.isPunct '[' then do
    let p ← p.advance fromChars
    let p ← if p.isPunct ']' then pure p else parsePredicateObjectList fromChars fuel p
    p.expectPunct fromChars ']'
  else if p.isPunct '(' then do
    let p ← p.advance fromChars
    parseCollectionItems fromChars fuel { p with collectionDepth := p.collectionDepth + 1 }
  else if p.cur.kind = .string then p.parseString fromChars
  else if p.cur.kind = .iri || p.cur.kind = .name || p.cur.kind = .number then p.advance fromChars
  else p.fail (ascii "expected an object")

/-- The loop over `;` from its second test on. -/
def parseAfterSemicolons (fuel : Nat) (p : Parser) : Except Failure Parser :=
  if p.isPunct '.' || p.isPunct ']' || p.cur.kind = .end_ then .ok p
  else do
    let p ← p.parseVerb fromChars
    let p ← parseObjectList fromChars fuel p
    parseMorePredicates fromChars fuel p

end

variable {fromChars : Bytes → Option (BitVec 32)} {fuel : Nat} {c : Char}

theorem parseObject_succ : parseObject fromChars (fuel + 1) p =
      (parseNode fromChars fuel { p with degrees := p.degrees ++ [RdfGraph.one32] } >>= fun q =>
      q.parseDegree fromChars p.degrees.length) := by
  simp only [parseObject, parseNode]
  split
  · rw [bind_assoc]
    refine congrArg _ (funext fun q => ?_)
    split <;> rw [bind_assoc]
  · split_ifs <;> simp only [bind_assoc]

theorem parseMorePredicates_succ : parseMorePredicates fromChars (fuel + 1) p =
    if p.isPunct ';' then skipSemicolons fromChars fuel p >>= parseAfterSemicolons fromChars fuel else .ok p := rfl

theorem parseMoreObjects_succ : parseMoreObjects fromChars (fuel + 1) p =
    if p.isPunct ',' then p.advance fromChars >>= parseObjectList fromChars (fuel + 1) else .ok p := rfl

/-! ## One token -/

theorem Took.refl (p : Parser) : Took fromChars p p [] [] := ⟨p.place, .nil _, after_nil.symm⟩

theorem Took.trans {m p' : Parser} (h : Took fromChars p m a ds) (h' : Took fromChars m p' b es) :
    Took fromChars p p' (a ++ b) (ds ++ es) := by
  obtain ⟨s, hs, rfl⟩ := h
  obtain ⟨s', hs', rfl⟩ := h'
  exact ⟨s', hs.append hs', after_after⟩

theorem Took.cons {m p' : Parser} {t : Token} (h : Took fromChars p m [t] []) (h' : Took fromChars m p' b es) :
    Took fromChars p p' (t :: b) es := h.trans h'

theorem Took.depth (h : Took fromChars p p' toks ds) : p'.collectionDepth = p.collectionDepth := by
  obtain ⟨s, -, rfl⟩ := h
  rfl

theorem advance_eq_ok (h : p.advance fromChars = .ok p') :
    ∃ cur lexer, p.lexer.next fromChars = .ok (cur, lexer) ∧ p' = { p with cur, lexer } := by
  unfold advance at h
  split at h
  · next cur lexer hnext =>
    cases h
    exact ⟨cur, lexer, hnext, rfl⟩
  · cases h

theorem took_advance (hend : p.cur.kind ≠ .end_) (hdegree : p.cur.kind ≠ .degree) (h : p.advance fromChars = .ok p') :
    Took fromChars p p' [p.cur] [] := by
  obtain ⟨cur, lexer, hnext, rfl⟩ := advance_eq_ok h
  refine ⟨(cur, lexer), .cons hend hnext (.nil _), ?_⟩
  simp [after, blankAll_of_kind hdegree]

theorem took_punct (hc : p.isPunct c) (h : p.advance fromChars = .ok p') : Took fromChars p p' [p.cur] [] := by
  have hkind : p.cur.kind = .punct := Token.kind_of_isPunct hc
  exact took_advance (by rw [hkind]; decide) (by rw [hkind]; decide) h

theorem took_term (hc : p.cur.isTerm) (h : p.advance fromChars = .ok p') : Took fromChars p p' [p.cur] [] :=
  took_advance (Token.kind_ne_of_isTerm hc (by decide)) (Token.kind_ne_of_isTerm hc (by decide)) h

theorem expectPunct_eq_ok (h : p.expectPunct fromChars c = .ok p') :
    p.cur.isPunct c ∧ Took fromChars p p' [p.cur] [] := by
  unfold expectPunct at h
  split at h
  · next hc => exact ⟨hc, took_punct hc h⟩
  · cases h

theorem expectTerm_eq_ok (h : p.expectTerm fromChars = .ok p') : p.cur.isTerm ∧ Took fromChars p p' [p.cur] [] := by
  unfold expectTerm at h
  split at h
  · next hc => exact ⟨hc, took_term hc h⟩
  · cases h

theorem skipSemicolons_eq_ok : ∀ {fuel : Nat} {p : Parser}, skipSemicolons fromChars fuel p = .ok p' →
    ∃ toks : List Token, (∀ t ∈ toks, t.isPunct ';') ∧ (p.isPunct ';' → toks ≠ []) ∧ Took fromChars p p' toks []
  | 0, _, h => (nomatch h)
  | fuel + 1, p, h => by
    unfold skipSemicolons at h
    split at h
    · next hc =>
      obtain ⟨m, hm, h⟩ := bind_eq_ok.1 h
      obtain ⟨toks, hall, -, htook⟩ := skipSemicolons_eq_ok h
      exact ⟨p.cur :: toks, forall_mem_cons.2 ⟨hc, hall⟩, fun _ => cons_ne_nil _ _, (took_punct hc hm).cons htook⟩
    · next hc =>
      cases h
      exact ⟨[], by simp, fun h => absurd h hc, .refl _⟩

/-! ## Soundness -/

variable (fromChars) in
/-- `p'` comes from `p` by a phrase. -/
def Finds (p p' : Parser) (X : Phrase) : Prop :=
  ∃ toks ts, Derives (0 < p.collectionDepth) X toks ts ∧ Took fromChars p p' toks (ts.map Triple.degree)

variable {X : Phrase} {q : Parser}

theorem Took.finds (h : Took fromChars p q a ds) (h' : Finds fromChars q p' X) :
    ∃ b us, Derives (0 < p.collectionDepth) X b us ∧ Took fromChars p p' (a ++ b) (ds ++ us.map Triple.degree) := by
  obtain ⟨b, us, hX, hb⟩ := h'
  rw [h.depth] at hX
  exact ⟨b, us, hX, h.trans hb⟩

variable (fromChars) in
/-- What the parsers find with this much fuel. -/
structure Sound (fuel : Nat) : Prop where
  predicates {p p' : Parser} (h : parsePredicateObjectList fromChars fuel p = .ok p') (s : Node) :
    Finds fromChars p p' (.predicates s)
  morePredicates {p p' : Parser} (h : parseMorePredicates fromChars fuel p = .ok p') (s : Node) :
    Finds fromChars p p' (.morePredicates s)
  objects {p p' : Parser} (h : parseObjectList fromChars fuel p = .ok p') (s pr : Node) : Finds fromChars p p' (.objects s pr)
  moreObjects {p p' : Parser} (h : parseMoreObjects fromChars fuel p = .ok p') :
    p' = p ∨ p.isPunct ',' ∧ ∃ q, p.advance fromChars = .ok q ∧ ∀ s pr, Finds fromChars q p' (.objects s pr)
  object {p p' : Parser} (h : parseObject fromChars fuel p = .ok p') (s pr : Node) : Finds fromChars p p' (.object s pr)
  items {p p' : Parser} (h : parseCollectionItems fromChars fuel { p with collectionDepth := p.collectionDepth + 1 } = .ok p')
    (o : Token) (i : Nat) : ∃ n, Finds fromChars p p' (.items o i n)

theorem sound_zero : Sound fromChars 0 where
  predicates h := nomatch h
  morePredicates h := nomatch h
  objects h := nomatch h
  moreObjects h := nomatch h
  object h := nomatch h
  items h := nomatch h

theorem parseString_sound (hkind : p.cur.kind = .string) (h : p.parseString fromChars = .ok p') :
    ∃ n, Finds fromChars p p' (.node n) := by
  obtain ⟨q, hq, h⟩ := bind_eq_ok.1 h
  have hstring := took_advance (by rw [hkind]; decide) (by rw [hkind]; decide) hq
  split at h
  · next htag =>
    have hlang := took_advance (by rw [htag]; decide) (by rw [htag]; decide) h
    exact ⟨_, _, _, .tagged hkind htag, hstring.trans hlang⟩
  · split at h
    · next hcaret =>
      obtain ⟨r, hr, h⟩ := bind_eq_ok.1 h
      obtain ⟨hterm, htype⟩ := expectTerm_eq_ok h
      have hcaret' := took_advance (by rw [hcaret]; decide) (by rw [hcaret]; decide) hr
      exact ⟨_, _, _, .typed hkind hcaret hterm, hstring.trans (hcaret'.trans htype)⟩
    · cases h
      exact ⟨_, _, _, .string hkind, hstring⟩

/-- The end of an object: the first of its triples gets the degree. -/
theorem parseDegree_sound {n s pr : Node}
    (hnode : Finds fromChars { p with degrees := p.degrees ++ [RdfGraph.one32] } q (.node n))
    (h : q.parseDegree fromChars p.degrees.length = .ok p') : Finds fromChars p p' (.object s pr) := by
  obtain ⟨a, ts, hderives, s', hsteps, rfl⟩ := hnode
  unfold parseDegree at h
  split at h
  · next hdegree =>
    split at h
    · cases h
    · next hdepth =>
      obtain ⟨cur, lexer, hnext, rfl⟩ := advance_eq_ok h
      have hflag : decide (0 < p.collectionDepth) = false := decide_eq_false hdepth
      rw [hflag] at hderives
      refine ⟨a ++ [s'.1], ⟨s, pr, n, s'.1.degree⟩ :: ts, ?_, (cur, lexer), hsteps.append (.cons ?_ hnext (.nil _)), ?_⟩
      · rw [hflag]
        exact .degree hderives hdegree
      · rw [show s'.1.kind = .degree from hdegree]
        decide
      · simp only [after, blankAll_append, append_assoc, singleton_append]
        rw [set_append_right _ _ (Nat.le_refl _), Nat.sub_self]
        congr 1
        exact (if_pos hdegree).symm
  · cases h
    refine ⟨a, _, .bare hderives, s', hsteps, ?_⟩
    simp [after]

/-- A pair of brackets with predicates between them. -/
theorem Sound.brackets (hsound : Sound fromChars fuel) (hopen : p.isPunct '[') (hadvance : p.advance fromChars = .ok q)
    {r : Parser} (h : parsePredicateObjectList fromChars fuel q = .ok r) (hclose : r.expectPunct fromChars ']' = .ok p') :
    ∃ a c ts, c.isPunct ']' ∧ Derives (0 < p.collectionDepth) (.predicates (.blank p.cur)) a ts ∧
      Took fromChars p p' (p.cur :: (a ++ [c])) (ts.map Triple.degree) := by
  have htook := took_punct hopen hadvance
  obtain ⟨a, ts, hderives, hpred⟩ := htook.finds (hsound.predicates h (.blank p.cur))
  obtain ⟨hc, hlast⟩ := expectPunct_eq_ok hclose
  have hall := hpred.trans hlast
  rw [append_nil] at hall
  exact ⟨a, r.cur, ts, hc, hderives, hall⟩

theorem parseNode_sound (hsound : Sound fromChars fuel) (h : parseNode fromChars fuel p = .ok p') :
    ∃ n, Finds fromChars p p' (.node n) := by
  unfold parseNode at h
  split at h
  · next hopen =>
    obtain ⟨q, hq, h⟩ := bind_eq_ok.1 h
    have htook := took_punct hopen hq
    split at h
    · obtain ⟨hc, hlast⟩ := expectPunct_eq_ok h
      exact ⟨_, _, _, .anon hopen hc, htook.trans hlast⟩
    · obtain ⟨r, hr, h⟩ := bind_eq_ok.1 h
      obtain ⟨a, c, ts, hc, hderives, hall⟩ := hsound.brackets hopen hq hr h
      exact ⟨_, _, _, .properties hopen hderives hc, hall⟩
  · split at h
    · next hopen =>
      obtain ⟨q, hq, h⟩ := bind_eq_ok.1 h
      obtain ⟨n, hitems⟩ := hsound.items h p.cur 0
      obtain ⟨a, ts, hderives, hall⟩ := (took_punct hopen hq).finds hitems
      exact ⟨n, _, _, .collection hopen hderives, hall⟩
    · split at h
      · next hkind => exact parseString_sound hkind h
      · split at h
        · next hkind =>
          have hkind : p.cur.isTerm ∨ p.cur.kind = .number := by
            simpa [Token.isTerm] using hkind
          refine ⟨_, _, _, .term hkind, ?_⟩
          rcases hkind with hterm | hnumber
          · exact took_term hterm h
          · exact took_advance (by rw [hnumber]; decide) (by rw [hnumber]; decide) h
        · cases h

section
variable (hsound : Sound fromChars fuel)
include hsound

theorem Sound.predicates_succ (h : parsePredicateObjectList fromChars (fuel + 1) p = .ok p') (s : Node) :
    Finds fromChars p p' (.predicates s) := by
  obtain ⟨q, hq, h⟩ := bind_eq_ok.1 h
  obtain ⟨r, hr, h⟩ := bind_eq_ok.1 h
  obtain ⟨hverb, htook⟩ := expectTerm_eq_ok hq
  obtain ⟨a, ts, hobjects, ha⟩ := htook.finds (hsound.objects hr s (.token p.cur))
  obtain ⟨b, us, hmore, hall⟩ := ha.finds (hsound.morePredicates h s)
  refine ⟨_, _, .predicates hverb hobjects hmore, ?_⟩
  rw [map_append]
  exact hall

theorem Sound.morePredicates_succ (h : parseMorePredicates fromChars (fuel + 1) p = .ok p') (s : Node) :
    Finds fromChars p p' (.morePredicates s) := by
  rw [parseMorePredicates_succ] at h
  split at h
  · next hsemi =>
    obtain ⟨q, hq, h⟩ := bind_eq_ok.1 h
    obtain ⟨toks, htoks, hne, htook⟩ := skipSemicolons_eq_ok hq
    unfold parseAfterSemicolons at h
    split at h
    · cases h
      refine ⟨toks, [], ?_, htook⟩
      have hnone : Derives (0 < p.collectionDepth) (.morePredicates s) [] [] := .noMore
      simpa using hnone.skips htoks
    · -- Here the loop goes on as the function itself does.
      obtain ⟨a, ts, hderives, hall⟩ := htook.finds (hsound.predicates_succ h s)
      exact ⟨_, _, hderives.mores htoks (hne hsemi), hall⟩
  · cases h
    exact ⟨[], [], .noMore, .refl _⟩

theorem Sound.objects_succ (h : parseObjectList fromChars (fuel + 1) p = .ok p') (s pr : Node) :
    Finds fromChars p p' (.objects s pr) := by
  obtain ⟨q, hq, h⟩ := bind_eq_ok.1 h
  obtain ⟨a, ts, hobject, ha⟩ := hsound.object hq s pr
  rcases hsound.moreObjects h with rfl | ⟨hcomma, r, hr, hmore⟩
  · exact ⟨a, ts, .one hobject, ha⟩
  · obtain ⟨b, us, hobjects, hall⟩ := (ha.trans (took_punct hcomma hr)).finds (hmore s pr)
    refine ⟨_, _, .cons hobject hcomma hobjects, ?_⟩
    rw [map_append]
    rwa [append_nil, append_assoc] at hall

theorem Sound.items_succ
    (h : parseCollectionItems fromChars (fuel + 1) { p with collectionDepth := p.collectionDepth + 1 } = .ok p')
    o i : ∃ n, Finds fromChars p p' (.items o i n) := by
  unfold parseCollectionItems at h
  split at h
  · next hclose =>
    obtain ⟨q, hq, h⟩ := bind_eq_ok.1 h
    cases h
    obtain ⟨s, hsteps, rfl⟩ := took_punct hclose hq
    exact ⟨.nil, [p.cur], [], .close hclose, s, hsteps, rfl⟩
  · split at h
    · cases h
    · obtain ⟨q, hq, h⟩ := bind_eq_ok.1 h
      obtain ⟨a, ts, hobject, s, hsteps, rfl⟩ := hsound.object hq (.cell o i) .first
      have hitem : Took fromChars p (p.after a (ts.map Triple.degree ++ [RdfGraph.one32]) s) a
          (ts.map Triple.degree ++ [RdfGraph.one32]) := ⟨s, hsteps, rfl⟩
      obtain ⟨n, hitems⟩ : ∃ n, Finds fromChars (p.after a (ts.map Triple.degree ++ [RdfGraph.one32]) s) p'
          (.items o (i + 1) n) := hsound.items (by simpa [after] using h) o (i + 1)
      obtain ⟨b, us, hrest, hall⟩ := hitem.finds hitems
      refine ⟨.cell o i, _, _, .item hobject hrest, ?_⟩
      rw [map_append]
      rwa [append_assoc] at hall

theorem Sound.succ : Sound fromChars (fuel + 1) where
  predicates h s := hsound.predicates_succ h s
  morePredicates h s := hsound.morePredicates_succ h s
  objects h s pr := hsound.objects_succ h s pr
  moreObjects {p p'} h := by
    rw [parseMoreObjects_succ] at h
    split at h
    · next hcomma =>
      obtain ⟨q, hq, h⟩ := bind_eq_ok.1 h
      exact .inr ⟨hcomma, q, hq, hsound.objects_succ h⟩
    · cases h
      exact .inl rfl
  object {p p'} h s pr := by
    rw [parseObject_succ] at h
    obtain ⟨q, hq, h⟩ := bind_eq_ok.1 h
    obtain ⟨n, hnode⟩ := parseNode_sound hsound hq
    exact parseDegree_sound hnode h
  items h o i := hsound.items_succ h o i

end

variable (fromChars) in
/-- **What the parsers take is a derivation**, and the degrees are those of
its triples. -/
theorem sound : ∀ fuel, Sound fromChars fuel
  | 0 => sound_zero
  | fuel + 1 => (sound fuel).succ

variable (fromChars) in
/-- `p'` comes from `p` by tokens that stand for triples. -/
def TookSome (R : List Token → List Triple → Prop) (p p' : Parser) : Prop :=
  ∃ toks ts, R toks ts ∧ Took fromChars p p' toks (ts.map Triple.degree)

/-- Outside a collection. -/
theorem Took.predicates {s : Node} (h : Took fromChars p q a ds) (hdepth : p.collectionDepth = 0)
    (h' : parsePredicateObjectList fromChars fuel q = .ok p') :
    ∃ b us, Derives false (.predicates s) b us ∧ Took fromChars p p' (a ++ b) (ds ++ us.map Triple.degree) := by
  have hfinds := h.finds ((sound fromChars fuel).predicates h' s)
  rwa [hdepth] at hfinds

theorem parseTriples_sound (hdepth : p.collectionDepth = 0) (hnotPrefix : ¬ p.isKeyword "PREFIX")
    (hnotBase : ¬ p.isKeyword "BASE") (h : parseTriples fromChars fuel p = .ok p') : TookSome fromChars Triples p p' := by
  unfold parseTriples at h
  split at h
  · next hopen =>
    obtain ⟨q, hq, h⟩ := bind_eq_ok.1 h
    have htook := took_punct hopen hq
    cases hempty : q.isPunct ']' with
    | true =>
      simp only [hempty, pure_bind] at h
      obtain ⟨r, hr, h⟩ := bind_eq_ok.1 h
      obtain ⟨hc, hlast⟩ := expectPunct_eq_ok hr
      obtain ⟨a, ts, hderives, hall⟩ := (htook.trans hlast).predicates hdepth h
      exact ⟨_, _, .anon hopen hc hderives, hall⟩
    | false =>
      simp only [hempty] at h
      obtain ⟨r, hr, h⟩ := bind_eq_ok.1 h
      obtain ⟨u, hu, h⟩ := bind_eq_ok.1 h
      obtain ⟨a, c, ts, hc, hderives, hbrackets⟩ := (sound fromChars fuel).brackets hopen hq hr hu
      rw [hdepth] at hderives
      split at h
      · obtain ⟨b, us, hmore, hall⟩ := hbrackets.predicates hdepth h
        refine ⟨_, _, .propertiesMore hopen hderives hc hmore, ?_⟩
        simpa using hall
      · cases h
        exact ⟨_, _, .properties hopen hderives hc, hbrackets⟩
  · split at h
    · next hopen =>
      obtain ⟨q, hq, h⟩ := bind_eq_ok.1 h
      obtain ⟨r, hr, h⟩ := bind_eq_ok.1 h
      obtain ⟨n, hitems⟩ := (sound fromChars fuel).items hr p.cur 0
      obtain ⟨a, ts, hderives, hcollection⟩ := (took_punct hopen hq).finds hitems
      rw [hdepth] at hderives
      obtain ⟨b, us, hpredicates, hall⟩ := hcollection.predicates hdepth h
      refine ⟨_, _, .collection hopen hderives hpredicates, ?_⟩
      rw [map_append]
      exact hall
    · obtain ⟨q, hq, h⟩ := bind_eq_ok.1 h
      obtain ⟨hterm, htook⟩ := expectTerm_eq_ok hq
      obtain ⟨a, ts, hderives, hall⟩ := htook.predicates hdepth h
      exact ⟨_, _, .term hterm hnotPrefix hnotBase hderives, hall⟩

theorem took_keyword {kw : String} (hc : p.isKeyword kw) (h : p.advance fromChars = .ok p') :
    Took fromChars p p' [p.cur] [] := by
  simp only [isKeyword, Bool.and_eq_true] at hc
  exact took_term (by simp [Token.isTerm, hc.1]) h

theorem parseStatement_sound (hdepth : p.collectionDepth = 0) (h : parseStatement fromChars fuel p = .ok p') :
    TookSome fromChars Statement p p' := by
  unfold parseStatement at h
  split at h
  · next hkind =>
    by_cases hatPrefix : p.cur.text = ascii "@prefix"
    · simp only [hatPrefix] at h
      obtain ⟨q, hq, h⟩ := bind_eq_ok.1 h
      obtain ⟨r, hr, h⟩ := bind_eq_ok.1 h
      obtain ⟨u, hu, h⟩ := bind_eq_ok.1 h
      have htook := took_advance (by rw [hkind]; decide) (by rw [hkind]; decide) hq
      obtain ⟨hn, hname⟩ := expectTerm_eq_ok hr
      obtain ⟨hi, hiri⟩ := expectTerm_eq_ok hu
      obtain ⟨he, hdot⟩ := expectPunct_eq_ok h
      exact ⟨_, _, .atPrefix hkind hatPrefix hn hi he, htook.trans (hname.trans (hiri.trans hdot))⟩
    · simp only [beq_eq_false_iff_ne.2 hatPrefix] at h
      split at h
      · cases h
      · next hatBase =>
        simp only [pure_bind] at h
        obtain ⟨q, hq, h⟩ := bind_eq_ok.1 h
        obtain ⟨u, hu, h⟩ := bind_eq_ok.1 h
        have htook := took_advance (by rw [hkind]; decide) (by rw [hkind]; decide) hq
        obtain ⟨hi, hiri⟩ := expectTerm_eq_ok hu
        obtain ⟨he, hdot⟩ := expectPunct_eq_ok h
        exact ⟨_, _, .atBase hkind (by simpa using hatBase) hi he, htook.trans (hiri.trans hdot)⟩
  · split at h
    · next hkeyword =>
      obtain ⟨q, hq, h⟩ := bind_eq_ok.1 h
      split at h
      · next hisPrefix =>
        obtain ⟨r, hr, h⟩ := bind_eq_ok.1 h
        obtain ⟨hn, hname⟩ := expectTerm_eq_ok hr
        obtain ⟨hi, hiri⟩ := expectTerm_eq_ok h
        exact ⟨_, _, .keywordPrefix hisPrefix hn hi, (took_keyword hisPrefix hq).trans (hname.trans hiri)⟩
      · next hisPrefix =>
        obtain ⟨hi, hiri⟩ := expectTerm_eq_ok h
        have hisBase : p.isKeyword "BASE" := by simpa [hisPrefix] using hkeyword
        exact ⟨_, _, .keywordBase hisBase hi, (took_keyword hisBase hq).trans hiri⟩
    · next hkeyword =>
      simp only [Bool.or_eq_true, not_or] at hkeyword
      obtain ⟨q, hq, h⟩ := bind_eq_ok.1 h
      obtain ⟨a, ts, htriples, htook⟩ := parseTriples_sound hdepth hkeyword.1 hkeyword.2 hq
      obtain ⟨he, hdot⟩ := expectPunct_eq_ok h
      refine ⟨_, _, .triples htriples he, ?_⟩
      simpa using htook.trans hdot

theorem parseDocument_sound : ∀ {fuel : Nat} {p : Parser}, p.collectionDepth = 0 →
    parseDocument fromChars fuel p = .ok p' → TookSome fromChars Document p p' ∧ p'.cur.kind = .end_
  | 0, _, _, h => (nomatch h)
  | fuel + 1, p, hdepth, h => by
    unfold parseDocument at h
    split at h
    · next hend =>
      cases h
      exact ⟨⟨[], [], .nil, .refl _⟩, hend⟩
    · obtain ⟨q, hq, h⟩ := bind_eq_ok.1 h
      obtain ⟨a, ts, hstatement, htook⟩ := parseStatement_sound hdepth hq
      obtain ⟨⟨b, us, hdocument, htook'⟩, hend⟩ := parseDocument_sound (htook.depth.trans hdepth) h
      refine ⟨⟨_, _, .cons hstatement hdocument, ?_⟩, hend⟩
      rw [map_append]
      exact htook.trans htook'

end Parser

end GengoDB.FuzzyTurtle
