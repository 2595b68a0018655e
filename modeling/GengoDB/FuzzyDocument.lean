/-
The parser of fuzzy turtle takes exactly the texts of the grammar
(`loadFuzzyTTL_iff`): what `FuzzyGrammar` found it to take is a derivation, and
here every derivation is taken, with enough fuel, if what comes after it cannot
belong to it (`Phrase.Follow`). The triples of a text are therefore those of
any of its derivations, and their degrees are what the parser returns.
-/
import GengoDB.FuzzyGrammar

namespace GengoDB.FuzzyTurtle

open Fallible Chars List Token Bool

/-! ## Taking tokens -/

variable {fromChars : Bytes → Option (BitVec 32)}

theorem Steps.split {s' : Token × Lexer} {b : List Token} :
    ∀ {a : List Token} {s : Token × Lexer}, Steps fromChars s (a ++ b) s' →
      ∃ m, Steps fromChars s a m ∧ Steps fromChars m b s'
  | [], s, h => ⟨s, .nil s, h⟩
  | _ :: _, _, .cons hkind hnext h => by
    obtain ⟨m, ha, hb⟩ := h.split
    exact ⟨m, .cons hkind hnext ha, hb⟩

namespace Parser.Took

variable {fromChars : Bytes → Option (BitVec 32)} {p p' q : Parser} {t : Token} {a b : List Token} {c : Char}
  {ds es : List (BitVec 32)} {x : BitVec 32}

theorem split (h : Took fromChars p p' (a ++ b) (ds ++ es)) :
    ∃ q, Took fromChars p q a ds ∧ Took fromChars q p' b es := by
  obtain ⟨s, hsteps, rfl⟩ := h
  obtain ⟨m, ha, hb⟩ := hsteps.split
  exact ⟨p.after a ds m, ⟨m, ha, rfl⟩, s, hb, after_after.symm⟩

theorem eq_of_nil (h : Took fromChars p p' [] []) : p' = p := by
  obtain ⟨s, hsteps, rfl⟩ := h
  cases hsteps
  exact after_nil

theorem cur_of_nil (h : Took fromChars p p' [] ds) : p'.cur = p.cur := by
  obtain ⟨s, hsteps, rfl⟩ := h
  cases hsteps
  rfl

/-- A first degree may be there before the tokens. -/
theorem push (h : Took fromChars p p' a (x :: ds)) : Took fromChars { p with degrees := p.degrees ++ [x] } p' a ds := by
  obtain ⟨s, hsteps, rfl⟩ := h
  exact ⟨s, hsteps, by simp [after]⟩

theorem deeper (h : Took fromChars p p' a ds) : Took fromChars { p with collectionDepth := p.collectionDepth + 1 }
      { p' with collectionDepth := p'.collectionDepth + 1 } a ds := by
  obtain ⟨s, hsteps, rfl⟩ := h
  exact ⟨s, hsteps, rfl⟩

theorem depth_eq (h : Took fromChars p p' a ds) (h' : Took fromChars q p' b es) :
    q.collectionDepth = p.collectionDepth := h'.depth.symm.trans h.depth

theorem cur (h : Took fromChars p p' (t :: a) ds) : p.cur = t := by
  obtain ⟨s, hsteps, -⟩ := h
  cases hsteps
  rfl

theorem head {P : Token → Prop} (h : Took fromChars p p' a ds) (hfirst : ∃ t rest, a = t :: rest ∧ P t) : P p.cur := by
  obtain ⟨t, rest, rfl, ht⟩ := hfirst
  exact h.cur ▸ ht

variable (h : Took fromChars p p' (t :: a) ds)
include h

theorem advance (ht : t.kind ≠ .degree) : ∃ q, p.advance fromChars = .ok q ∧ Took fromChars q p' a ds := by
  obtain ⟨s, hsteps, rfl⟩ := h
  cases hsteps with
  | @cons _ _ m _ _ hkind hnext h =>
    refine ⟨p.after [] [] m, by simp [Parser.advance, hnext, after, blankAll], s, h, ?_⟩
    rw [after_after, after, ← singleton_append, blankAll_append, blankAll_of_kind ht]
    rfl

theorem punct (ht : t.isPunct c) : p.isPunct c ∧ ∃ q, p.advance fromChars = .ok q ∧ Took fromChars q p' a ds := by
  refine ⟨?_, h.advance (by rw [kind_of_isPunct ht]; decide)⟩
  rw [← h.cur] at ht
  exact ht

theorem expectPunct (ht : t.isPunct c) : ∃ q, p.expectPunct fromChars c = .ok q ∧ Took fromChars q p' a ds := by
  obtain ⟨hc, q, hadvance, h⟩ := h.punct ht
  exact ⟨q, (if_pos hc).trans hadvance, h⟩

theorem expectTerm (ht : t.isTerm) : ∃ q, p.expectTerm fromChars = .ok q ∧ Took fromChars q p' a ds := by
  obtain ⟨q, hadvance, hq⟩ := h.advance (kind_ne_of_isTerm ht (by decide))
  rw [← h.cur] at ht
  exact ⟨q, (if_pos ht).trans hadvance, hq⟩

end Parser.Took

/-! ## How a phrase starts, and what follows it -/

/-- First tokens of an object. -/
def Token.StartsObject (t : Token) : Prop :=
  (t.isTerm ∨ t.kind = .number ∨ t.kind = .string) ∨ t.isPunct '[' ∨ t.isPunct '('

/-- Tokens that cannot be part of the phrase before them. -/
def Phrase.Follow : Phrase → Token → Prop
  | .node _, t => t.kind ≠ .langTag ∧ t.kind ≠ .caret2
  | .object _ _, t => (t.kind ≠ .langTag ∧ t.kind ≠ .caret2) ∧ t.kind ≠ .degree
  | .objects _ _, t => t.isPunct ';' ∨ t.isPunct '.' ∨ t.isPunct ']'
  | .predicates _, t => t.isPunct '.' ∨ t.isPunct ']'
  | .morePredicates _, t => t.isPunct '.' ∨ t.isPunct ']'
  | .items _ _ _, _ => True

theorem Token.StartsObject.kind {t : Token} (h : t.StartsObject) :
    t.kind = .iri ∨ t.kind = .name ∨ t.kind = .number ∨ t.kind = .string ∨ t.kind = .punct := by
  rcases h with (h | h | h) | h | h
  · rcases kind_of_isTerm h with h | h
    · exact .inl h
    · exact .inr (.inl h)
  · exact .inr (.inr (.inl h))
  · exact .inr (.inr (.inr (.inl h)))
  · exact .inr (.inr (.inr (.inr (kind_of_isPunct h))))
  · exact .inr (.inr (.inr (.inr (kind_of_isPunct h))))

theorem Token.StartsObject.not_close {t : Token} (h : t.StartsObject) : t.isPunct ')' = false := by
  rcases h with (h | h | h) | h | h
  · exact isPunct_of_isTerm h _
  · exact isPunct_of_kind (by rw [h]; decide) _
  · exact isPunct_of_kind (by rw [h]; decide) _
  · rw [isPunct_of_isPunct h]
    decide
  · rw [isPunct_of_isPunct h]
    decide

section
variable {coll : Bool} {t : Token} {toks : List Token} {ts : List Triple} {n s pr : Node} {c : Char}

theorem Phrase.follow_object_of_isPunct (h : t.isPunct c) : (Phrase.object s pr).Follow t := by
  have hkind := kind_of_isPunct h
  simp only [Phrase.Follow, hkind]
  decide

theorem Phrase.follow_object_of_starts (h : t.StartsObject) : (Phrase.object s pr).Follow t := by
  rcases h.kind with h | h | h | h | h
  all_goals
    simp only [Phrase.Follow, h]
    decide

theorem Derives.node_head (h : Derives coll (.node n) toks ts) : ∃ t rest, toks = t :: rest ∧ t.StartsObject := by
  cases h with
  | term h =>
    rcases h with h | h
    · exact ⟨_, _, rfl, .inl (.inl h)⟩
    · exact ⟨_, _, rfl, .inl (.inr (.inl h))⟩
  | string h | tagged h | typed h => exact ⟨_, _, rfl, .inl (.inr (.inr h))⟩
  | anon h | properties h => exact ⟨_, _, rfl, .inr (.inl h)⟩
  | collection h => exact ⟨_, _, rfl, .inr (.inr h)⟩

theorem Derives.object_head (h : Derives coll (.object s pr) toks ts) :
    ∃ t rest, toks = t :: rest ∧ t.StartsObject := by
  cases h with
  | bare h => exact h.node_head
  | degree h hd =>
    obtain ⟨t, rest, rfl, ht⟩ := h.node_head
    exact ⟨t, _, rfl, ht⟩

theorem Derives.items_head {o : Token} {i : Nat} (h : Derives coll (.items o i n) toks ts) :
    ∃ t rest, toks = t :: rest ∧ (Phrase.object s pr).Follow t := by
  cases h with
  | close hc => exact ⟨_, _, rfl, Phrase.follow_object_of_isPunct hc⟩
  | item h =>
    obtain ⟨t, rest, rfl, ht⟩ := h.object_head
    exact ⟨t, _, rfl, Phrase.follow_object_of_starts ht⟩

theorem Derives.predicates_head (h : Derives coll (.predicates s) toks ts) : ∃ v rest, toks = v :: rest ∧ v.isTerm := by
  cases h with
  | predicates hv => exact ⟨_, _, rfl, hv⟩

/-- Where the predicates after the first one start. -/
theorem Derives.morePredicates_head {q p' : Parser} {ds : List (BitVec 32)}
    (h : Derives coll (.morePredicates s) toks ts) (htook : q.Took fromChars p' toks ds)
    (hend : (Phrase.morePredicates s).Follow p'.cur) : (Phrase.objects s pr).Follow q.cur := by
  cases h with
  | noMore => exact .inr (htook.cur_of_nil ▸ hend)
  | skip hc | more hc => exact .inl (htook.cur ▸ hc)

end

/-! ## Completeness -/

section
variable {fromChars : Bytes → Option (BitVec 32)} {p p' : Parser} {toks : List Token} {ts : List Triple}
  {ds : List (BitVec 32)}

/-- Triples do not start as a directive does. -/
theorem Triples.not_keyword (h : Triples toks ts) (htook : p.Took fromChars p' toks ds) :
    ¬ p.cur.kind = .directive ∧ p.isKeyword "PREFIX" = false ∧ p.isKeyword "BASE" = false := by
  have hpunct {c : Char} (hc : p.cur.isPunct c) :
      ¬ p.cur.kind = .directive ∧ p.isKeyword "PREFIX" = false ∧ p.isKeyword "BASE" = false := by
    have hkind := kind_of_isPunct hc
    simp [Parser.isKeyword, hkind]
  cases h with
  | term ht hnotPrefix hnotBase h =>
    rw [← htook.cur] at ht hnotPrefix hnotBase
    exact ⟨kind_ne_of_isTerm ht (by decide), eq_false_iff.2 hnotPrefix, eq_false_iff.2 hnotBase⟩
  | anon ho | properties ho | propertiesMore ho | collection ho => exact hpunct (htook.cur ▸ ho)

theorem Statement.not_end (h : Statement toks ts) (htook : p.Took fromChars p' toks ds) : p.cur.kind ≠ .end_ := by
  have hne : toks ≠ [] := by
    cases h with
    | triples h => cases h <;> simp
    | _ => simp
  obtain ⟨s, hsteps, -⟩ := htook
  cases hsteps with
  | nil => exact absurd rfl hne
  | cons hkind => exact hkind

end

namespace Parser

variable {fromChars : Bytes → Option (BitVec 32)} {p p' q r : Parser} {fuel : Nat} {t d : Token} {a : List Token}
  {ts : List Triple} {ds : List (BitVec 32)}

theorem parseNode_of_term (h : p.cur.isTerm ∨ p.cur.kind = .number) :
    parseNode fromChars fuel p = p.advance fromChars := by
  have hpunct : ∀ c, p.isPunct c = false := by
    rcases h with h | h
    · exact isPunct_of_isTerm h
    · exact isPunct_of_kind (by rw [h]; decide)
  have hstring : p.cur.kind ≠ .string := by
    rcases h with h | h
    · exact kind_ne_of_isTerm h (by decide)
    · rw [h]
      decide
  have hkinds : (decide (p.cur.kind = .iri) || decide (p.cur.kind = .name) || decide (p.cur.kind = .number)) := by
    simpa [isTerm] using h
  rw [parseNode, hpunct, hpunct, if_neg Bool.false_ne_true, if_neg Bool.false_ne_true, if_neg hstring, if_pos hkinds]

theorem settles_string (htook : Took fromChars p p' (t :: a) ds) (ht : t.kind = .string)
    (h : p.parseString fromChars = .ok p') : Settles (parseNode fromChars · p) p' := by
  rw [← htook.cur] at ht
  have hpunct : ∀ c, p.isPunct c = false := isPunct_of_kind (by rw [ht]; decide)
  refine ⟨0, fun fuel _ => ?_⟩
  dsimp only
  rw [parseNode, hpunct, hpunct, if_neg Bool.false_ne_true, if_neg Bool.false_ne_true, if_pos ht, h]

theorem parseNode_of_paren (h : p.isPunct '(') (hadvance : p.advance fromChars = .ok p') : parseNode fromChars fuel p =
      parseCollectionItems fromChars fuel { p' with collectionDepth := p'.collectionDepth + 1 } := by
  have hbracket : p.isPunct '[' = false := (isPunct_of_isPunct h '[').trans (by decide)
  rw [parseNode, hbracket, if_neg Bool.false_ne_true, if_pos h, hadvance, ok_bind]

theorem parseNode_of_empty (h : p.isPunct '[') (hadvance : p.advance fromChars = .ok p') (hclose : p'.isPunct ']') :
    parseNode fromChars fuel p = p'.expectPunct fromChars ']' := by
  rw [parseNode, if_pos h, hadvance, ok_bind]
  simp only [hclose, if_true, pure_bind]

theorem parseNode_of_bracket (h : p.isPunct '[') (hadvance : p.advance fromChars = .ok p') (hclose : p'.isPunct ']' = false) :
    parseNode fromChars fuel p =
      (parsePredicateObjectList fromChars fuel p' >>= fun q => q.expectPunct fromChars ']') := by
  rw [parseNode, if_pos h, hadvance]
  simp [hclose]

/-- What the parser for such a phrase does, with enough fuel. A `;` is skipped
before the other predicates are looked for. -/
def Parses (fromChars : Bytes → Option (BitVec 32)) (p p' : Parser) : Phrase → Prop
  | .node _ => Settles (parseNode fromChars · p) p'
  | .object _ _ => Settles (parseObject fromChars · p) p'
  | .objects _ _ => Settles (parseObjectList fromChars · p) p'
  | .predicates _ => Settles (parsePredicateObjectList fromChars · p) p'
  | .morePredicates _ => Settles (parseMorePredicates fromChars · p) p' ∧
    ∃ q, Settles (skipSemicolons fromChars · p) q ∧ Settles (parseAfterSemicolons fromChars · q) p'
  | .items _ _ _ =>
    Settles (parseCollectionItems fromChars · { p with collectionDepth := p.collectionDepth + 1 }) p'

theorem settles_skipSemicolons (h : p.isPunct ';' = false) : Settles (skipSemicolons fromChars · p) p :=
  .succ ⟨0, fun _ _ => by simp only [skipSemicolons, h, false_eq_true, if_false]⟩

theorem settles_skipSemicolons_cons (h : p.isPunct ';') (hadvance : p.advance fromChars = .ok p')
    (hrest : Settles (skipSemicolons fromChars · p') q) : Settles (skipSemicolons fromChars · p) q := by
  refine .succ ?_
  simp only [skipSemicolons, h, hadvance]
  exact hrest

/-- A `;`, with what comes after it. -/
theorem parses_semicolon {subject : Node} (h : p.isPunct ';') (hadvance : p.advance fromChars = .ok q)
    (hskip : Settles (skipSemicolons fromChars · q) r) (hrest : Settles (parseAfterSemicolons fromChars · r) p') :
    Parses fromChars p p' (.morePredicates subject) := by
  have hskip := settles_skipSemicolons_cons h hadvance hskip
  refine ⟨.succ ?_, r, hskip, hrest⟩
  simp only [parseMorePredicates_succ, h]
  exact hskip.bind hrest

theorem parseString_bare (h : Took fromChars p p' [t] []) (ht : t.kind = .string) (htag : p'.cur.kind ≠ .langTag)
    (hcaret : p'.cur.kind ≠ .caret2) : p.parseString fromChars = .ok p' := by
  obtain ⟨q, hadvance, hnil⟩ := h.advance (by rw [ht]; decide)
  obtain rfl := hnil.eq_of_nil
  rw [parseString, hadvance]
  exact (if_neg htag).trans (if_neg hcaret)

theorem parseString_tagged {l : Token} (h : Took fromChars p p' [t, l] []) (ht : t.kind = .string)
    (hl : l.kind = .langTag) : p.parseString fromChars = .ok p' := by
  obtain ⟨q, hadvance, hq⟩ := h.advance (by rw [ht]; decide)
  obtain ⟨r, hadvance', hnil⟩ := hq.advance (by rw [hl]; decide)
  obtain rfl := hnil.eq_of_nil
  rw [parseString, hadvance, ok_bind, if_pos (by rw [hq.cur, hl]), hadvance']

theorem parseString_typed {c : Token} (h : Took fromChars p p' [t, c, d] []) (ht : t.kind = .string)
    (hc : c.kind = .caret2) (hd : d.isTerm) : p.parseString fromChars = .ok p' := by
  obtain ⟨q, hadvance, hq⟩ := h.advance (by rw [ht]; decide)
  obtain ⟨r, hadvance', hr⟩ := hq.advance (by rw [hc]; decide)
  obtain ⟨u, hterm, hnil⟩ := hr.expectTerm hd
  obtain rfl := hnil.eq_of_nil
  rw [parseString, hadvance, ok_bind, if_neg (by rw [hq.cur, hc]; decide), if_pos (by rw [hq.cur, hc]), hadvance', ok_bind,
    hterm]

/-- The degree goes to the triple that was added first. -/
theorem Took.degree (h : Took fromChars p p' (a ++ [d]) (d.degree :: ds)) (hd : d.kind = .degree)
    (hdepth : p.collectionDepth = 0) (x : BitVec 32) :
    ∃ q, Took fromChars { p with degrees := p.degrees ++ [x] } q a ds ∧ q.cur = d ∧
      q.parseDegree fromChars p.degrees.length = .ok p' := by
  obtain ⟨s, hsteps, rfl⟩ := h
  obtain ⟨m, ha, hlast⟩ := hsteps.split
  cases hlast with
  | @cons _ L _ _ _ hkind hnext hnil =>
    cases hnil
    refine ⟨_, ⟨_, ha, rfl⟩, rfl, ?_⟩
    have hcur : ({ p with degrees := p.degrees ++ [x] }.after a ds (d, L)).cur.kind = .degree := hd
    rw [parseDegree, if_pos hcur]
    simp only [after, hdepth, Parser.advance, hnext, blankAll_append, append_assoc, set_append_right _ _ (Nat.le_refl _),
      Nat.sub_self]
    refine congrArg Except.ok ?_
    congr 1
    exact (if_pos hd).symm

/-! One lemma for each rule that has parts. -/

variable {o c : Token} {i : Nat} {n subject predicate : Node} {b : List Token} {es : List (BitVec 32)}

section
variable (ho : o.isPunct '[') (hc : c.isPunct ']')
include ho hc

theorem parses_anon (htook : Took fromChars p p' [o, c] []) : Parses fromChars p p' (.node n) := by
  obtain ⟨hopen, q, hadvance, hq⟩ := htook.punct ho
  obtain ⟨r, hexpect, hnil⟩ := hq.expectPunct hc
  obtain rfl := hnil.eq_of_nil
  exact ⟨0, fun _ _ => (parseNode_of_empty hopen hadvance (hq.punct hc).1).trans hexpect⟩

/-- Predicates between brackets: up to them, they, and the closing bracket. -/
theorem settles_brackets (hfirst : ∃ v rest, a = v :: rest ∧ v.isTerm)
    (htook : Took fromChars p p' (o :: (a ++ c :: b)) (ds ++ es))
    (h : ∀ {q r}, q.collectionDepth = p.collectionDepth → Took fromChars q r a ds → r.isPunct ']' →
      Settles (parsePredicateObjectList fromChars · q) r) :
    ∃ q r u, p.isPunct '[' ∧ p.advance fromChars = .ok q ∧ q.isPunct ']' = false ∧
      Settles (parsePredicateObjectList fromChars · q) r ∧ r.expectPunct fromChars ']' = .ok u ∧
      Took fromChars u p' b es := by
  obtain ⟨hopen, q, hadvance, hq⟩ := htook.punct ho
  obtain ⟨r, hin, hclose⟩ := hq.split
  obtain ⟨u, hexpect, hrest⟩ := hclose.expectPunct hc
  refine ⟨q, r, u, hopen, hadvance, ?_, h (htook.depth_eq hq) hin (hclose.punct hc).1, hexpect, hrest⟩
  exact isPunct_of_isTerm (hin.head hfirst) _

theorem parses_properties (hfirst : ∃ v rest, a = v :: rest ∧ v.isTerm)
    (htook : Took fromChars p p' (o :: (a ++ [c])) ds)
    (h : ∀ {q r}, q.collectionDepth = p.collectionDepth → Took fromChars q r a ds → r.isPunct ']' →
      Parses fromChars q r (.predicates subject)) : Parses fromChars p p' (.node n) := by
  rw [← append_nil ds] at htook
  obtain ⟨q, r, u, hopen, hadvance, hopened, hin, hexpect, hnil⟩ := settles_brackets ho hc hfirst htook h
  obtain rfl := hnil.eq_of_nil
  simp only [Parses, parseNode_of_bracket hopen hadvance hopened]
  exact hin.bind (.const hexpect)

end

theorem parses_collection (ho : o.isPunct '(') (htook : Took fromChars p p' (o :: a) ds)
    (h : ∀ {q}, q.collectionDepth = p.collectionDepth → Took fromChars q p' a ds → Parses fromChars q p' (.items o i n)) :
    Parses fromChars p p' (.node n) := by
  obtain ⟨hopen, q, hadvance, hq⟩ := htook.punct ho
  simpa only [Parses, parseNode_of_paren hopen hadvance] using h (htook.depth_eq hq) hq

theorem parses_close (hc : c.isPunct ')') (htook : Took fromChars p p' [c] []) :
    Parses fromChars p p' (.items o i n) := by
  obtain ⟨hclose, q, hadvance, hnil⟩ := htook.deeper.punct hc
  obtain rfl := hnil.eq_of_nil
  refine .succ ⟨0, fun fuel _ => ?_⟩
  simp only [parseCollectionItems, hclose, hadvance]
  rfl

/-- An item of a collection is an object at a greater depth. -/
theorem parses_item {n' : Node} (hfirst : ∃ t rest, a = t :: rest ∧ t.StartsObject) (htook : Took fromChars p q a ds)
    (h : Parses fromChars { p with collectionDepth := p.collectionDepth + 1 }
      { q with collectionDepth := q.collectionDepth + 1 } (.object subject predicate))
    (h' : Parses fromChars { q with degrees := q.degrees ++ [RdfGraph.one32] } p' (.items o (i + 1) n)) :
    Parses fromChars p p' (.items o i n') := by
  have ht := htook.head hfirst
  have hopen : { p with collectionDepth := p.collectionDepth + 1 }.isPunct ')' = false := ht.not_close
  have hend : p.cur.kind ≠ .end_ := by
    rcases ht.kind with h | h | h | h | h <;> rw [h] <;> decide
  refine .succ ?_
  simp only [parseCollectionItems, hopen, hend, false_eq_true, if_false]
  exact Settles.bind h h'

/-- An object is a node and, maybe, its degree. -/
theorem parses_object (hdegree : q.parseDegree fromChars p.degrees.length = .ok p')
    (h : Parses fromChars { p with degrees := p.degrees ++ [RdfGraph.one32] } q (.node n)) :
    Parses fromChars p p' (.object subject predicate) := by
  refine .succ ?_
  simp only [parseObject_succ]
  exact Settles.bind h (.const hdegree)

theorem parses_one (hend : p'.isPunct ',' = false) (h : Parses fromChars p p' (.object subject predicate)) :
    Parses fromChars p p' (.objects subject predicate) := by
  have hmore : Settles (parseMoreObjects fromChars · p') p' :=
    .succ ⟨0, fun _ _ => by simp only [parseMoreObjects_succ, hend, false_eq_true, if_false]⟩
  exact .succ (Settles.bind h hmore)

theorem parses_cons (hcomma : q.isPunct ',') (hadvance : q.advance fromChars = .ok r)
    (h : Parses fromChars p q (.object subject predicate)) (h' : Parses fromChars r p' (.objects subject predicate)) :
    Parses fromChars p p' (.objects subject predicate) := by
  have hmore : Settles (parseMoreObjects fromChars · q) p' := by
    refine .succ ?_
    simp only [parseMoreObjects_succ, hcomma, hadvance]
    exact Settles.shift h'
  exact .succ (Settles.bind h hmore)

theorem parses_predicates (hverb : p.expectTerm fromChars = .ok q)
    (h : Parses fromChars q r (.objects subject predicate)) (h' : Parses fromChars r p' (.morePredicates subject)) :
    Parses fromChars p p' (.predicates subject) := by
  refine .succ ?_
  simp only [parsePredicateObjectList, parseVerb, hverb, ok_bind]
  exact Settles.bind h h'.1

theorem parses_noMore (hend : p.isPunct '.' ∨ p.isPunct ']') : Parses fromChars p p (.morePredicates subject) := by
  have hsemi : p.isPunct ';' = false := by
    rcases hend with h | h
    all_goals exact (isPunct_of_isPunct h ';').trans (by decide)
  have hstop : (p.isPunct '.' || p.isPunct ']' || decide (p.cur.kind = .end_)) := by
    rcases hend with h | h <;> simp [h]
  refine ⟨.succ ⟨0, fun _ _ => ?_⟩, p, settles_skipSemicolons hsemi, 0, fun _ _ => if_pos hstop⟩
  simp [parseMorePredicates_succ, hsemi]

/-- After a `;` the loop goes on as the function itself does. -/
theorem parses_more (hsemi : p.isPunct ';') (hadvance : p.advance fromChars = .ok q) (hverb : q.cur.isTerm)
    (h : Parses fromChars q p' (.predicates subject)) : Parses fromChars p p' (.morePredicates subject) := by
  have hpunct : ∀ c, q.isPunct c = false := isPunct_of_isTerm hverb
  have hend : q.cur.kind ≠ .end_ := kind_ne_of_isTerm hverb (by decide)
  refine parses_semicolon hsemi hadvance (settles_skipSemicolons (hpunct _)) ?_
  have hrun fuel : parseAfterSemicolons fromChars fuel q = parsePredicateObjectList fromChars (fuel + 1) q := by
    simp [parseAfterSemicolons, hpunct, hend, parsePredicateObjectList]
  simpa only [hrun] using Settles.shift h

/-- **Every derivation is taken**, with the degrees of its triples. -/
theorem complete {coll : Bool} {X : Phrase} (h : Derives coll X a ts) (hcoll : coll = decide (0 < p.collectionDepth))
    (htook : Took fromChars p p' a (ts.map Triple.degree)) (hfollow : X.Follow p'.cur) : Parses fromChars p p' X := by
  induction h generalizing p p' with
  | @term _ t h =>
    have hkind : t.kind ≠ .degree := by
      rcases h with h | h
      · exact kind_ne_of_isTerm h (by decide)
      · rw [h]
        decide
    obtain ⟨q, hadvance, hnil⟩ := htook.advance hkind
    obtain rfl := hnil.eq_of_nil
    rw [← htook.cur] at h
    exact ⟨0, fun _ _ => (parseNode_of_term h).trans hadvance⟩
  | string h =>
    exact settles_string htook h (parseString_bare htook h hfollow.1 hfollow.2)
  | tagged h hl =>
    exact settles_string htook h (parseString_tagged htook h hl)
  | typed h hc hd =>
    exact settles_string htook h (parseString_typed htook h hc hd)
  | anon ho hc =>
    exact parses_anon ho hc htook
  | properties ho h hc ih =>
    exact parses_properties ho hc h.predicates_head htook fun hdepth hin hclose =>
      ih (hdepth ▸ hcoll) hin (.inr hclose)
  | collection ho h ih =>
    exact parses_collection ho htook fun hdepth hin => ih (hdepth ▸ hcoll) hin trivial
  | close hc =>
    exact parses_close hc htook
  | @item _ o i n a b ts us h h' ih ih' =>
    rw [map_append] at htook
    obtain ⟨q, ha, hb⟩ := htook.split
    have hfollow : (Phrase.object (.cell o i) .first).Follow q.cur := hb.head h'.items_head
    have hrest := hb.push
    exact parses_item h.object_head ha (ih (by simp) ha.deeper hfollow) (ih' (ha.depth ▸ hcoll) hrest trivial)
  | bare h ih =>
    exact parses_object (if_neg hfollow.2) (ih hcoll htook.push hfollow.1)
  | degree h hd ih =>
    have hdepth : p.collectionDepth = 0 := by
      have := of_decide_eq_false hcoll.symm
      omega
    obtain ⟨q, ha, hcur, hdegree⟩ := htook.degree hd hdepth RdfGraph.one32
    refine parses_object hdegree (ih hcoll ha ?_)
    simp only [Phrase.Follow, hcur, hd]
    decide
  | one h ih =>
    obtain ⟨hpunct, hcomma⟩ : p'.cur.kind = .punct ∧ p'.isPunct ',' = false := by
      rcases hfollow with h | h | h
      all_goals exact ⟨kind_of_isPunct h, (isPunct_of_isPunct h ',').trans (by decide)⟩
    refine parses_one hcomma (ih hcoll htook ?_)
    simp only [Phrase.Follow, hpunct]
    decide
  | cons h hc h' ih ih' =>
    rw [map_append] at htook
    obtain ⟨q, ha, hrest⟩ := htook.split
    obtain ⟨hcomma, r, hadvance, hb⟩ := hrest.punct hc
    exact parses_cons hcomma hadvance (ih hcoll ha (Phrase.follow_object_of_isPunct hcomma))
      (ih' (htook.depth_eq hb ▸ hcoll) hb hfollow)
  | predicates hv h h' ih ih' =>
    obtain ⟨q, hverb, hq⟩ := htook.expectTerm hv
    rw [map_append] at hq
    obtain ⟨r, ha, hb⟩ := hq.split
    exact parses_predicates hverb (ih (htook.depth_eq hq ▸ hcoll) ha (h'.morePredicates_head hb hfollow))
      (ih' (htook.depth_eq hb ▸ hcoll) hb hfollow)
  | noMore =>
    obtain rfl := htook.eq_of_nil
    exact parses_noMore hfollow
  | skip hc h ih =>
    obtain ⟨hsemi, q, hadvance, hq⟩ := htook.punct hc
    obtain ⟨-, r, hskip, hafter⟩ := ih (htook.depth_eq hq ▸ hcoll) hq hfollow
    exact parses_semicolon hsemi hadvance hskip hafter
  | more hc h ih =>
    obtain ⟨hsemi, q, hadvance, hq⟩ := htook.punct hc
    exact parses_more hsemi hadvance (hq.head h.predicates_head) (ih (htook.depth_eq hq ▸ hcoll) hq hfollow)

/-! ## Documents -/

theorem parseTriples_of_bracket (h : p.isPunct '[') (hadvance : p.advance fromChars = .ok p')
    (hclose : p'.isPunct ']' = false) :
    parseTriples fromChars fuel p = (parsePredicateObjectList fromChars fuel p' >>= fun q => q.expectPunct fromChars ']' >>=
      fun r => if r.isPunct '.' then .ok r else parsePredicateObjectList fromChars fuel r) := by
  simp only [parseTriples, h, if_true, hadvance, ok_bind, hclose, false_eq_true, if_false]
  refine congrArg _ (funext fun q => congrArg _ (funext fun r => ?_))
  cases r.isPunct '.' <;> rfl

/-- A keyword is a name. -/
theorem keyword_facts {kw : String} (hcur : p.cur = d) (hd : d.isKeyword kw) :
    ¬ p.cur.kind = .directive ∧ p.isKeyword kw ∧ d.kind ≠ .degree := by
  have hname : d.kind = .name := by
    simp only [Token.isKeyword, and_eq_true, decide_eq_true_eq] at hd
    exact hd.1
  subst hcur
  exact ⟨by rw [hname]; decide, hd, by rw [hname]; decide⟩

section
variable (hdepth : p.collectionDepth = 0) (htook : Took fromChars p p' a (ts.map Triple.degree))
include hdepth htook

/-- Predicates outside a collection. -/
theorem settles_predicates (h : Derives false (.predicates subject) a ts) (hend : p'.isPunct '.' ∨ p'.isPunct ']') :
    Settles (parsePredicateObjectList fromChars · p) p' :=
  complete h (by rw [hdepth]; rfl) htook hend

theorem settles_parseTriples (h : Triples a ts) (hend : p'.isPunct '.') : Settles (parseTriples fromChars · p) p' := by
  cases h with
  | @term t a ts ht _ _ h =>
    have hpunct : ∀ c, p.isPunct c = false := by
      rw [← htook.cur] at ht
      exact isPunct_of_isTerm ht
    obtain ⟨q, hterm, hq⟩ := htook.expectTerm ht
    simpa [parseTriples, hpunct, hterm] using settles_predicates ((htook.depth_eq hq).trans hdepth) hq h (.inl hend)
  | anon ho hc h =>
    obtain ⟨hopen, q, hadvance, hq⟩ := htook.punct ho
    obtain ⟨hclose, -⟩ := hq.punct hc
    obtain ⟨r, hexpect, hr⟩ := hq.expectPunct hc
    simpa [parseTriples, hopen, hadvance, hclose, hexpect] using
      settles_predicates ((htook.depth_eq hr).trans hdepth) hr h (.inl hend)
  | properties ho h hc =>
    rw [← append_nil (ts.map Triple.degree)] at htook
    obtain ⟨q, r, u, hopen, hadvance, hopened, hin, hexpect, hnil⟩ := settles_brackets ho hc h.predicates_head htook
      fun hq hin hclose => settles_predicates (hq.trans hdepth) hin h (.inr hclose)
    obtain rfl := hnil.eq_of_nil
    simp only [parseTriples_of_bracket hopen hadvance hopened]
    refine hin.bind ⟨0, fun _ _ => ?_⟩
    simp only [hexpect]
    exact if_pos hend
  | propertiesMore ho h hc h' =>
    rw [map_append] at htook
    obtain ⟨q, r, u, hopen, hadvance, hopened, hin, hexpect, hrest⟩ := settles_brackets ho hc h.predicates_head htook
      fun hq hin hclose => settles_predicates (hq.trans hdepth) hin h (.inr hclose)
    have hverb : u.isPunct '.' = false := isPunct_of_isTerm (hrest.head h'.predicates_head) _
    have hmore := settles_predicates ((htook.depth_eq hrest).trans hdepth) hrest h' (.inl hend)
    simp only [parseTriples_of_bracket hopen hadvance hopened]
    refine hin.bind ?_
    simpa [hexpect, hverb] using hmore
  | collection ho h h' =>
    obtain ⟨hopen, q, hadvance, hq⟩ := htook.punct ho
    rw [map_append] at hq
    obtain ⟨r, ha, hb⟩ := hq.split
    have hbracket : p.isPunct '[' = false := (isPunct_of_isPunct hopen '[').trans (by decide)
    have hitems := complete h (by rw [htook.depth_eq hq, hdepth]; rfl) ha trivial
    have hrun := settles_predicates ((htook.depth_eq hb).trans hdepth) hb h' (.inl hend)
    simp only [parseTriples, hbracket, hopen, hadvance, ok_bind]
    exact Settles.bind hitems hrun

theorem settles_parseStatement (h : Statement a ts) : Settles (parseStatement fromChars · p) p' := by
  cases h with
  | @atPrefix d n i e hd htext hn hi he =>
    have hcur := htook.cur
    obtain ⟨q, hadvance, hq⟩ := htook.advance (by rw [hd]; decide)
    obtain ⟨q₁, hname, hq⟩ := hq.expectTerm hn
    obtain ⟨q₂, hiri, hq⟩ := hq.expectTerm hi
    obtain ⟨q₃, hdot, hnil⟩ := hq.expectPunct he
    obtain rfl := hnil.eq_of_nil
    refine ⟨0, fun fuel _ => ?_⟩
    simp only [parseStatement, hcur, hd, htext, hadvance, ok_bind, hname, hiri, hdot]
    rfl
  | @atBase d i e hd htext hi he =>
    have hcur := htook.cur
    obtain ⟨q, hadvance, hq⟩ := htook.advance (by rw [hd]; decide)
    obtain ⟨q₁, hiri, hq⟩ := hq.expectTerm hi
    obtain ⟨q₂, hdot, hnil⟩ := hq.expectPunct he
    obtain rfl := hnil.eq_of_nil
    refine ⟨0, fun fuel _ => ?_⟩
    simp only [parseStatement, hcur, hd, htext, hadvance, ok_bind, pure_bind, hiri, hdot]
    rfl
  | keywordPrefix hd hn hi =>
    obtain ⟨hkind, hisPrefix, hterm⟩ := keyword_facts htook.cur hd
    obtain ⟨q, hadvance, hq⟩ := htook.advance hterm
    obtain ⟨q₁, hname, hq⟩ := hq.expectTerm hn
    obtain ⟨q₂, hiri, hnil⟩ := hq.expectTerm hi
    obtain rfl := hnil.eq_of_nil
    refine ⟨0, fun fuel _ => ?_⟩
    simp only [parseStatement, hkind, hisPrefix, hadvance, ok_bind, hname, hiri]
    rfl
  | keywordBase hd hi =>
    obtain ⟨hkind, hbase, hterm⟩ := keyword_facts htook.cur hd
    have hnotPrefix : p.isKeyword "PREFIX" = false := by
      have hne : (ascii "BASE" == ascii "PREFIX") = false := by decide
      simp only [isKeyword, and_eq_true, beq_iff_eq] at hbase
      simp [isKeyword, hbase.2, hne]
    obtain ⟨q, hadvance, hq⟩ := htook.advance hterm
    obtain ⟨q₁, hiri, hnil⟩ := hq.expectTerm hi
    obtain rfl := hnil.eq_of_nil
    refine ⟨0, fun fuel _ => ?_⟩
    simp only [parseStatement, hkind, hnotPrefix, hbase, hadvance, ok_bind, pure_bind, hiri]
    rfl
  | triples h he =>
    rw [← append_nil (ts.map Triple.degree)] at htook
    obtain ⟨q, ha, hlast⟩ := htook.split
    obtain ⟨hkind, hnotPrefix, hnotBase⟩ := h.not_keyword ha
    obtain ⟨r, hdot, hnil⟩ := hlast.expectPunct he
    obtain rfl := hnil.eq_of_nil
    simp only [parseStatement, hkind, hnotPrefix, hnotBase, Bool.or_self, false_eq_true, if_false]
    exact (settles_parseTriples hdepth ha h (hlast.punct he).1).bind (.const hdot)

theorem settles_parseDocument (h : Document a ts) (hend : p'.cur.kind = .end_) :
    Settles (parseDocument fromChars · p) p' := by
  induction h generalizing p with
  | nil =>
    obtain rfl := htook.eq_of_nil
    refine .succ ⟨0, fun fuel _ => ?_⟩
    simp [parseDocument, hend]
  | cons h _ ih =>
    rw [map_append] at htook
    obtain ⟨q, ha, hb⟩ := htook.split
    have hne : p.cur.kind ≠ .end_ := h.not_end ha
    have hrun := (settles_parseStatement hdepth ha h).bind (ih (ha.depth.trans hdepth) hb)
    refine .succ ?_
    simpa only [parseDocument, hne, if_false] using hrun

end

end Parser

section
variable {fromChars : Bytes → Option (BitVec 32)} {L : Lexer} {s s' : Token × Lexer} {toks : List Token} {ts : List Triple}
  {input : Bytes} {res : Result} {fuel : Nat}

theorem Lexes.steps (h : Lexes fromChars L toks) :
    ∃ s s', L.next fromChars = .ok s ∧ Steps fromChars s toks s' ∧ s'.1.kind = .end_ := by
  induction h with
  | done h hend => exact ⟨_, _, h, .nil _, hend⟩
  | @token L t L' ts h hkind _ ih =>
    obtain ⟨s, s', hnext, hsteps, hend⟩ := ih
    exact ⟨(t, L'), s', h, .cons hkind hnext hsteps, hend⟩

theorem Steps.lexes (h : Steps fromChars s toks s') : ∀ {L : Lexer}, L.next fromChars = .ok s → s'.1.kind = .end_ →
    Lexes fromChars L toks := by
  induction h with
  | nil s => exact fun hnext hend => .done hnext hend
  | cons hkind hnext' _ ih => exact fun hnext hend => .token hnext hkind (ih hnext' hend)

theorem loadFuzzyTTL_sound (h : loadFuzzyTTL fromChars fuel input = .ok res) :
    ∃ toks ts, Lexes fromChars (.start input) toks ∧ Document toks ts ∧
      res = ⟨blankAll input toks, ts.map Triple.degree⟩ := by
  obtain ⟨p, hp, h⟩ := bind_eq_ok.1 h
  obtain ⟨q, hq, h⟩ := bind_eq_ok.1 h
  obtain ⟨cur, lexer, hnext, rfl⟩ := Parser.advance_eq_ok hp
  obtain ⟨⟨toks, ts, hdocument, s, hsteps, rfl⟩, hend⟩ := Parser.parseDocument_sound rfl hq
  cases h
  exact ⟨toks, ts, hsteps.lexes hnext hend, hdocument, rfl⟩

theorem settles_loadFuzzyTTL (hlexes : Lexes fromChars (.start input) toks) (h : Document toks ts) :
    Settles (loadFuzzyTTL fromChars · input) ⟨blankAll input toks, ts.map Triple.degree⟩ := by
  obtain ⟨s, s', hnext, hsteps, hend⟩ := hlexes.steps
  let p : Parser := { lexer := s.2, cur := s.1, out := input, degrees := [], collectionDepth := 0 }
  have htook : p.Took fromChars (p.after toks (ts.map Triple.degree) s') toks (ts.map Triple.degree) := ⟨s', hsteps, rfl⟩
  have hrun := Parser.settles_parseDocument rfl htook h hend
  have hresult : Settles (fun fuel => p.parseDocument fromChars fuel >>= fun q => pure (Result.mk q.out q.degrees))
      ⟨blankAll input toks, ts.map Triple.degree⟩ := hrun.bind (.const rfl)
  simpa only [loadFuzzyTTL, Parser.advance, hnext, ok_bind] using hresult

/-- **The texts the parser takes** are those of the grammar. -/
theorem loadFuzzyTTL_iff : (∃ fuel, loadFuzzyTTL fromChars fuel input = .ok res) ↔
    ∃ toks ts, Lexes fromChars (.start input) toks ∧ Document toks ts ∧
      res = ⟨blankAll input toks, ts.map Triple.degree⟩ := by
  constructor
  · rintro ⟨fuel, h⟩
    exact loadFuzzyTTL_sound h
  · rintro ⟨toks, ts, hlexes, hdocument, rfl⟩
    obtain ⟨fuel, h⟩ := settles_loadFuzzyTTL hlexes hdocument
    exact ⟨fuel, h fuel (Nat.le_refl _)⟩

/-- **The degrees of a text**: one for each triple of it, in their order, by
any reading of its tokens. -/
theorem degrees_of_triples (h : loadFuzzyTTL fromChars fuel input = .ok res) :
    ∃ toks, Lexes fromChars (.start input) toks ∧ (∃ ts, Document toks ts) ∧
      ∀ ts, Document toks ts → res.degrees = ts.map Triple.degree := by
  obtain ⟨toks, ts, hlexes, hdocument, rfl⟩ := loadFuzzyTTL_sound h
  refine ⟨toks, hlexes, ⟨ts, hdocument⟩, fun ts' hdocument' => ?_⟩
  exact congrArg Result.degrees ((settles_loadFuzzyTTL hlexes hdocument).unique (settles_loadFuzzyTTL hlexes hdocument'))

end

/-- `std::from_chars` on one text. -/
def oneHalf (s : Bytes) : Option (BitVec 32) := if s = ascii "0.5" then some 0x3f000000 else none

/-- Two objects, one with a degree and one a collection. -/
def annotated : Bytes := ascii "x p y \x7b0.5\x7d, (z)."

theorem loadFuzzyTTL_annotated : loadFuzzyTTL oneHalf 20 annotated =
    .ok ⟨ascii "x p y      , (z).", [0x3f000000, RdfGraph.one32, RdfGraph.one32, RdfGraph.one32]⟩ := by
  decide +kernel

theorem degrees_of_annotated : ∃ toks, Lexes oneHalf (.start annotated) toks ∧ (∃ ts, Document toks ts) ∧
    ∀ ts, Document toks ts → [0x3f000000, RdfGraph.one32, RdfGraph.one32, RdfGraph.one32] = ts.map Triple.degree :=
  degrees_of_triples loadFuzzyTTL_annotated

/-! ## The copy -/

/-- No `@` at the front, and none after a degree. -/
def Quiet (toks : List Token) : Prop :=
  (∀ t ∈ toks.head?, ¬ t.kind.isAt) ∧ toks.IsChain fun a b => a.kind = .degree → ¬ b.kind.isAt

section
variable {coll : Bool} {X : Phrase} {t : Token} {a rest : List Token} {ts : List Triple}

theorem Quiet.cons (ht : ¬ t.kind.isAt) (h : Quiet rest) : Quiet (t :: rest) :=
  ⟨by simpa using ht, isChain_cons.2 ⟨fun u hu _ => h.1 u hu, h.2⟩⟩

theorem Quiet.punct {c : Char} (ht : t.isPunct c) (h : Quiet rest) : Quiet (t :: rest) :=
  h.cons (by rw [kind_of_isPunct ht]; exact nofun)

theorem Quiet.term (ht : t.isTerm) (h : Quiet rest) : Quiet (t :: rest) :=
  h.cons (by rcases kind_of_isTerm ht with hkind | hkind <;> rw [hkind] <;> exact nofun)

theorem Derives.quiet (h : Derives coll X a ts) (hrest : Quiet rest) : Quiet (a ++ rest) := by
  induction h generalizing rest with
  | term h =>
    rcases h with h | h
    · exact hrest.term h
    · exact hrest.cons (by rw [h]; exact nofun)
  | string h => exact hrest.cons (by rw [h]; exact nofun)
  | tagged h hl =>
    -- The tag follows a string.
    refine ⟨?_, isChain_cons.2 ⟨fun u _ hdegree => ?_, ?_⟩⟩
    · rintro t ⟨⟩
      rw [h]
      exact nofun
    · rw [h] at hdegree
      cases hdegree
    · refine isChain_cons.2 ⟨fun u _ hdegree => ?_, hrest.2⟩
      rw [hl] at hdegree
      cases hdegree
  | typed h hc hd =>
    exact ((hrest.term hd).cons (by rw [hc]; exact nofun)).cons (by rw [h]; exact nofun)
  | anon ho hc => exact (hrest.punct hc).punct ho
  | properties ho _ hc ih =>
    rw [cons_append, append_assoc]
    exact (ih (hrest.punct hc)).punct ho
  | collection ho _ ih => exact (ih hrest).punct ho
  | close hc => exact hrest.punct hc
  | item _ _ ih ih' =>
    rw [append_assoc]
    exact ih (ih' hrest)
  | bare _ ih => exact ih hrest
  | degree _ hd ih =>
    rw [append_assoc]
    exact ih (hrest.cons (by rw [hd]; exact nofun))
  | one _ ih => exact ih hrest
  | cons _ hc _ ih ih' =>
    rw [append_assoc]
    exact ih ((ih' hrest).punct hc)
  | predicates hv _ _ ih ih' =>
    rw [cons_append, append_assoc]
    exact (ih (ih' hrest)).term hv
  | noMore => exact hrest
  | skip hc _ ih | more hc _ ih => exact (ih hrest).punct hc

theorem Triples.quiet (h : Triples a ts) (hrest : Quiet rest) : Quiet (a ++ rest) := by
  cases h with
  | term ht _ _ h => exact (h.quiet hrest).term ht
  | anon ho hc h => exact ((h.quiet hrest).punct hc).punct ho
  | properties ho h hc =>
    rw [cons_append, append_assoc]
    exact (h.quiet (hrest.punct hc)).punct ho
  | propertiesMore ho h hc h' =>
    rw [cons_append, append_assoc]
    exact (h.quiet ((h'.quiet hrest).punct hc)).punct ho
  | collection ho h h' =>
    rw [cons_append, append_assoc]
    exact (h.quiet (h'.quiet hrest)).punct ho

/-- A statement may start with a `@`, but does not end in a degree. -/
theorem Statement.chain (h : Statement a ts) (hrest : rest.IsChain fun a b => a.kind = .degree → ¬ b.kind.isAt) :
    (a ++ rest).IsChain fun a b => a.kind = .degree → ¬ b.kind.isAt := by
  have hcons {t : Token} {rest : List Token} ht h :
      (t :: rest).IsChain fun a b => a.kind = .degree → ¬ b.kind.isAt :=
    isChain_cons.2 ⟨fun _ _ hdegree => absurd hdegree ht, h⟩
  have hterm {t : Token} (ht : t.isTerm) : t.kind ≠ .degree := kind_ne_of_isTerm ht (by decide)
  have hpunct {t : Token} {c : Char} (ht : t.isPunct c) : t.kind ≠ .degree := by
    rw [kind_of_isPunct ht]
    decide
  have hkeyword {t : Token} {kw : String} (ht : t.isKeyword kw) : t.kind ≠ .degree := by
    simp only [isKeyword, and_eq_true, decide_eq_true_eq] at ht
    rw [ht.1]
    decide
  cases h with
  | atPrefix hd _ hn hi he =>
    exact hcons (by rw [hd]; decide) (hcons (hterm hn) (hcons (hterm hi) (hcons (hpunct he) hrest)))
  | atBase hd _ hi he => exact hcons (by rw [hd]; decide) (hcons (hterm hi) (hcons (hpunct he) hrest))
  | keywordPrefix hd hn hi => exact hcons (hkeyword hd) (hcons (hterm hn) (hcons (hterm hi) hrest))
  | keywordBase hd hi => exact hcons (hkeyword hd) (hcons (hterm hi) hrest)
  | triples h he =>
    rw [append_assoc]
    refine (h.quiet ⟨?_, hcons (hpunct he) hrest⟩).2
    rintro t ⟨⟩
    rw [kind_of_isPunct he]
    exact nofun

theorem Document.chain (h : Document a ts) : a.IsChain fun a b => a.kind = .degree → ¬ b.kind.isAt := by
  induction h with
  | nil => exact .nil
  | cons h _ ih => exact h.chain ih

end

section
variable {fromChars : Bytes → Option (BitVec 32)} {input : Bytes} {res : Result} {fuel : Nat}

/-- **The copy is the text without its degrees**: as long, with the same
newlines, the same but for the degrees, and with the same tokens but for them. -/
theorem copy_of_text (h : loadFuzzyTTL fromChars fuel input = .ok res) :
    ∃ toks, Lexes fromChars (.start input) toks ∧ Copy input res.turtle toks ∧
      Lexes fromChars (.start res.turtle) (toks.filter fun t => t.kind ≠ .degree) := by
  obtain ⟨toks, ts, hlexes, hdocument, rfl⟩ := loadFuzzyTTL_sound h
  refine ⟨toks, hlexes, copy_blankAll input toks, ?_⟩
  have hlast : ∀ t ∈ toks.head?, t.kind.isAt → (Lexer.start input).lastKind = .end_ := fun _ _ _ => rfl
  obtain ⟨r, -, hblank, hstripped⟩ := hlexes.strips hlast hdocument.chain
  have hr : blankAll input toks = r := hblank [] rfl
  rw [← hr] at hstripped
  exact hstripped

theorem copy_of_annotated : ∃ toks, Lexes oneHalf (.start annotated) toks ∧
    Copy annotated (ascii "x p y      , (z).") toks ∧
    Lexes oneHalf (.start (ascii "x p y      , (z).")) (toks.filter fun t => t.kind ≠ .degree) :=
  copy_of_text loadFuzzyTTL_annotated

end

end GengoDB.FuzzyTurtle
