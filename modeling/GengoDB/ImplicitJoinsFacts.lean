/-
What becomes of IN and EXISTS (`ImplicitToExplicitJoins`).

A mark says whether the subquery has a match, so after the pass an expression
has the value it has if unknown subqueries are taken as false
(`Expr.twoValued`). This makes no difference for the truth of an expression in
which an unknown IN stands under an even number of negations only, and none
for its value if no IN is unknown. Under these conditions, and if the first
column available in a subquery is the one it returns, the result is the one of
SQL (`explicit_eq_sql`).
-/
import GengoDB.ImplicitJoins

namespace GengoDB.ImplicitJoins

open RelAlg List Option Expr Kleene Prod Multiset

variable {C V : Type} {L : Set C}

def Expr.ops : Expr L V → List (SubqueryOp L V)
  | value _ _ => []
  | op q => [q]
  | andOp e f | orOp e f => e.ops ++ f.ops
  | notOp e => e.ops

def Surrounding.ops : Surrounding L V → List (SubqueryOp L V)
  | selection e => e.ops
  | map computed => computed.flatMap fun m => m.2.ops

def Surrounding.created : Surrounding L V → List C
  | selection _ => []
  | map computed => computed.map Prod.fst

/-- The columns made for marks are new. -/
structure Fresh (fresh : ℕ → C) (s : Surrounding L V) : Prop where
  injective : Function.Injective fresh
  outside : ∀ n, fresh n ∉ L
  apart : ∀ n, ∀ q ∈ s.ops, fresh n ∉ q.rel.available
  created : ∀ n, fresh n ∉ s.created

/-! ## The order of the marks -/

theorem replaceOps_ops (fresh : ℕ → C) (e : Expr L V) (n : ℕ) : (replaceOps fresh e n).2.map snd = e.ops := by
  induction e generalizing n with
  | value f hf | op q => rfl
  | andOp e f ihe ihf | orOp e f ihe ihf =>
    rw [replaceOps, ops, map_append, ihe, ihf]
  | notOp e ih => exact ih n

theorem replaceOps_columns (fresh : ℕ → C) (e : Expr L V) (n : ℕ) :
    (replaceOps fresh e n).2.map fst = (List.range' n (replaceOps fresh e n).2.length).map fresh := by
  induction e generalizing n with
  | value f hf | op q => rfl
  | andOp e f ihe ihf | orOp e f ihe ihf =>
    rw [replaceOps, map_append, length_append, ihe, ihf, ← map_append, range'_append_1]
  | notOp e ih => exact ih n

theorem replaceAll_ops (fresh : ℕ → C) (computed : List (C × Expr L V)) (n : ℕ) :
    (replaceAll fresh computed n).2.map snd = computed.flatMap fun m => m.2.ops := by
  induction computed generalizing n with
  | nil => rfl
  | cons m computed ih => rw [replaceAll, map_append, flatMap_cons, ih, replaceOps_ops]

theorem replaceAll_columns (fresh : ℕ → C) (computed : List (C × Expr L V)) (n : ℕ) :
    (replaceAll fresh computed n).2.map fst = (List.range' n (replaceAll fresh computed n).2.length).map fresh := by
  induction computed generalizing n with
  | nil => rfl
  | cons m computed ih =>
    rw [replaceAll, map_append, length_append, ih, replaceOps_columns, ← map_append, range'_append_1]

/-- Marks for the subqueries of an operator. -/
structure NewMarks (s : Surrounding L V) (marks : List (C × SubqueryOp L V)) : Prop where
  nodup : (marks.map Prod.fst).Nodup
  outside : ∀ c ∈ marks.map Prod.fst, c ∉ L
  apart : ∀ c ∈ marks.map Prod.fst, ∀ m ∈ marks, c ∉ m.2.rel.available
  created : ∀ c ∈ marks.map Prod.fst, c ∉ s.created

theorem Fresh.newMarks {fresh : ℕ → C} {s : Surrounding L V} {marks : List (C × SubqueryOp L V)}
    (hfresh : Fresh fresh s) (hcolumns : marks.map fst = (List.range' 0 marks.length).map fresh)
    (hops : marks.map snd = s.ops) : NewMarks s marks := by
  have hcol {P : C → Prop} (h : ∀ n, P (fresh n)) : ∀ c ∈ marks.map fst, P c := by
    rw [hcolumns]
    exact forall_mem_map.mpr fun n _ => h n
  refine ⟨?_, hcol hfresh.outside, hcol fun n m hm => ?_, hcol hfresh.created⟩
  · rw [hcolumns]
    exact List.Nodup.map hfresh.injective nodup_range'
  · exact hfresh.apart n m.2 (hops ▸ mem_map_of_mem hm)

/-! ## Marks -/

theorem Subquery.searchInAttr_mem (rel : Subquery L V) : rel.searchInAttr ∈ rel.available := head_mem _

section Marks

variable [DecidableEq V]

/-- What a mark says: whether there is a match. -/
def SubqueryOp.marked : SubqueryOp L V → Row C V → Bool
  | existsOp rel, r => (rel.rows r).card ≠ 0
  | inOp val _ rel, r => some true ∈ (rel.rows r).map fun b => compareEq (val.fn r) (b rel.searchInAttr)

def Expr.twoValued : Expr L V → Row C V → Option Bool
  | value f _, r => f.fn r
  | op q, r => some (q.marked r)
  | andOp e f, r => Kleene.and (e.twoValued r) (f.twoValued r)
  | orOp e f, r => Kleene.or (e.twoValued r) (f.twoValued r)
  | notOp e, r => Kleene.not (e.twoValued r)

theorem directSelection_eq {e : Expr L V} {negated : Bool} {q : SubqueryOp L V}
    (h : directSelection e = some (negated, q)) (a : Row C V) : e.twoValued a = some (negated ^^ q.marked a) := by
  revert h
  fun_cases directSelection e with
  | case1 q' =>
    rintro ⟨⟩
    rw [twoValued, Bool.false_xor]
  | case2 q' =>
    rintro ⟨⟩
    rw [twoValued, twoValued, Kleene.not, map_some, Bool.true_xor]
  | case3 => rintro ⟨⟩

variable {a r : Row C V}

/-- The predicate of a subquery on one of its rows. -/
theorem predicate_holds {val : Scalar C V} {hval : ∀ c ∈ val.used, c ∈ L} {rel : Subquery L V} {b : Row C V}
    (hr : Set.EqOn r a L) (hav : ∀ c ∈ rel.available, r c = none) (hb : b ∈ rel.rows a) :
    (SubqueryOp.inOp val hval rel).predicate.holds (r.merge b)
      ↔ compareEq (val.fn a) (b rel.searchInAttr) = some true := by
  have hx : val.fn (r.merge b) = val.fn a := by
    refine val.reads _ _ fun c hc => ?_
    have hnull : b c = none := rel.within a b hb c fun hmem => rel.separate c hmem (hval c hc)
    rw [Row.merge_apply, hnull, or_none, hr (hval c hc)]
  have hattr : r.merge b rel.searchInAttr = b rel.searchInAttr := by
    rw [Row.merge_apply, hav _ rel.searchInAttr_mem, none_or]
  rw [Pred.holds, SubqueryOp.predicate, Pred.eval, beq_iff_eq]
  dsimp only
  rw [hx, hattr]

/-- Where the marks are right, the expression without subqueries has the two
valued meaning. -/
theorem replaceOps_eval [TruthValues V] {fresh : ℕ → C} (e : Expr L V) (n : ℕ) (hL : Set.EqOn r a L)
    (hmarks : ∀ m ∈ (replaceOps fresh e n).2, r m.1 = some (Values.ofBool (m.2.marked a))) :
    (replaceOps fresh e n).1.eval r = e.twoValued a := by
  induction e generalizing n with
  | value f hf => exact f.reads r a fun c hc => hL (hf c hc)
  | op q =>
    have hmark : r (fresh n) = some (Values.ofBool (q.marked a)) := hmarks _ mem_cons_self
    rw [replaceOps, Replaced.eval, hmark, map_some, TruthValues.truth_ofBool, twoValued]
  | andOp e f ihe ihf | orOp e f ihe ihf =>
    rw [replaceOps, Replaced.eval, twoValued, ihe n fun m hm => hmarks m (mem_append_left _ hm),
      ihf _ fun m hm => hmarks m (mem_append_right _ hm)]
  | notOp e ih => rw [replaceOps, Replaced.eval, twoValued, ih n hmarks]

/-- A join that replaces a subquery finds a match exactly if the subquery has
one, whatever marks the row has already got. -/
theorem matching_card_ne_zero (q : SubqueryOp L V) (hr : Set.EqOn r a L) (hav : ∀ c ∈ q.rel.available, r c = none) :
    (matching q.predicate (q.rel.rows r) r).card ≠ 0 ↔ q.marked a := by
  rw [q.rel.reads r a hr, matching]
  cases q with
  | existsOp rel =>
    have hall : ((rel.rows a).filter fun b => (SubqueryOp.existsOp rel).predicate.holds (r.merge b))
        = rel.rows a :=
      filter_eq_self.mpr fun _ _ => rfl
    rw [SubqueryOp.rel, hall, SubqueryOp.marked, decide_eq_true_iff]
  | inOp val hval rel =>
    rw [← Nat.pos_iff_ne_zero, card_pos_iff_exists_mem, SubqueryOp.marked, decide_eq_true_iff,
      Multiset.mem_map]
    refine exists_congr fun b => ?_
    rw [Multiset.mem_filter]
    exact and_congr_right fun hb => predicate_holds hr hav hb

variable [TruthValues V] {marks : List (C × SubqueryOp L V)} {s : Surrounding L V}

/-- The row `r` is `a` with marks for the subqueries that were done. -/
def Marked (done : List (C × SubqueryOp L V)) (a r : Row C V) : Prop :=
  (∀ c ∉ done.map Prod.fst, r c = a c) ∧ ∀ m ∈ done, r m.1 = some (Values.ofBool (m.2.marked a))

theorem Marked.eqOn (h : Marked marks a r) (hnew : NewMarks s marks) : Set.EqOn r a L :=
  fun c hc => h.1 c fun hmem => hnew.outside c hmem hc

variable [DecidableEq C] {A : Multiset (Row C V)}

/-- A row with the mark of one more subquery. -/
def addMark (r : Row C V) (m : C × SubqueryOp L V) : Row C V :=
  r.merge (Row.single m.1 (Values.ofBool ((matching m.2.predicate (m.2.rel.rows r) r).card ≠ 0)))

theorem markJoins_eq : markJoins marks A = A.map fun a => marks.foldl addMark a := by
  induction marks generalizing A with
  | nil => exact (map_id A).symm
  | cons m marks ih =>
    have hone : joinSubquery (.markJoin m.2.predicate m.1) m.2.rel A = A.map fun a => addMark a m := by
      rw [joinSubquery, ← bind_singleton]
      exact bind_congr fun a _ => map_singleton ..
    rw [markJoins, List.foldl_cons, hone]
    exact ih.trans (map_map ..)

variable {done : List (C × SubqueryOp L V)}

theorem Marked.addMark {m : C × SubqueryOp L V} (h : Marked done a r)
    (ha : Row.Within L a) (hdone : ∀ c ∈ done.map fst, c ∉ L ∧ c ∉ m.2.rel.available)
    (hnew : m.1 ∉ done.map fst) (hm : m.1 ∉ L) : Marked (done ++ [m]) a (addMark r m) := by
  have hL : Set.EqOn r a L := fun c hc => h.1 c fun hmem => (hdone c hmem).1 hc
  have hav : ∀ c ∈ m.2.rel.available, r c = none := fun c hc => by
    rw [h.1 c fun hmem => (hdone c hmem).2 hc, ha c (m.2.rel.separate c hc)]
  have hmark : decide ((matching m.2.predicate (m.2.rel.rows r) r).card ≠ 0) = m.2.marked a :=
    Bool.eq_iff_iff.mpr (decide_eq_true_iff.trans (matching_card_ne_zero m.2 hL hav))
  rw [ImplicitJoins.addMark, hmark]
  refine ⟨fun c hc => ?_, fun m' hm' => ?_⟩
  · simp only [map_append, List.map_cons, map_nil, mem_append, List.mem_singleton, not_or] at hc
    rw [Row.merge_apply, Row.single, if_neg hc.2, or_none, h.1 c hc.1]
  · rcases mem_append.mp hm' with hold | hlast
    · rw [Row.merge_apply, h.2 m' hold, some_or]
    · obtain rfl := List.mem_singleton.mp hlast
      rw [Row.merge_apply, h.1 _ hnew, ha _ hm, none_or, Row.single, if_pos rfl]

/-- All marks are made from the row as it came in. -/
theorem Marked.foldl (h : Marked done a r) (ha : Row.Within L a) (hout : ∀ c ∈ (done ++ marks).map fst, c ∉ L)
    (hapart : ∀ c ∈ (done ++ marks).map fst, ∀ m ∈ marks, c ∉ m.2.rel.available)
    (hnodup : ((done ++ marks).map fst).Nodup) : Marked (done ++ marks) a (marks.foldl ImplicitJoins.addMark r) := by
  induction marks generalizing done r with
  | nil => rwa [append_nil]
  | cons m marks ih =>
    have hstep : Marked (done ++ [m]) a (ImplicitJoins.addMark r m) := by
      refine h.addMark ha (fun c hc => ?_) (fun hmem => ?_) ?_
      · have hin : c ∈ (done ++ m :: marks).map fst := by
          rw [map_append]
          exact mem_append_left _ hc
        exact ⟨hout c hin, hapart c hin m mem_cons_self⟩
      · rw [map_append] at hnodup
        exact (nodup_append.mp hnodup).2.2 _ hmem _ mem_cons_self rfl
      · exact hout m.1 (mem_map_of_mem (mem_append_right _ mem_cons_self))
    have happend : done ++ m :: marks = (done ++ [m]) ++ marks := by rw [append_assoc, singleton_append]
    rw [happend] at hout hapart hnodup ⊢
    exact ih hstep hout (fun c hc m' hm' => hapart c hc m' (mem_cons_of_mem _ hm')) hnodup

theorem NewMarks.marked (hnew : NewMarks s marks) (ha : Row.Within L a) : Marked marks a (marks.foldl addMark a) :=
  have hstart : Marked ([]) a a := ⟨fun _ _ => rfl, by simp⟩
  hstart.foldl ha hnew.outside hnew.apart hnew.nodup

end Marks

/-! ## The result of the pass -/

theorem mapToNull_nil [DecidableEq C] : mapToNull ([] : List C) = (id : Row C V → Row C V) := by
  funext r c
  rw [mapToNull, if_neg not_mem_nil, id]

theorem computedColumns_eq_none [DecidableEq C] [Values V] {E : Type} {eval : E → Row C V → Option Bool}
    {computed : List (C × E)} {a : Row C V} {c : C} (h : c ∉ computed.map fst) :
    computedColumns eval computed a c = none := by
  have hnone : computed.find? (·.1 = c) = none := by
    refine find?_eq_none.mpr fun m hm hc => h ?_
    exact of_decide_eq_true hc ▸ mem_map_of_mem hm
  rw [computedColumns, hnone, bind_none]

theorem computedColumns_congr [DecidableEq C] [Values V] {E : Type} {eval eval' : E → Row C V → Option Bool}
    {computed : List (C × E)} {a : Row C V} (h : ∀ m ∈ computed, eval m.2 a = eval' m.2 a) :
    computedColumns eval computed a = computedColumns eval' computed a := by
  funext c
  refine bind_congr fun m hm => ?_
  rw [h m (mem_of_find?_eq_some hm)]

section Result

variable [DecidableEq C] [DecidableEq V] [TruthValues V] {fresh : ℕ → C} {a : Row C V} {A : Multiset (Row C V)}

/-- The operator with unknown subqueries taken as false. -/
def Surrounding.twoValued : Surrounding L V → Multiset (Row C V) → Multiset (Row C V)
  | selection e, A => A.filter fun a => e.twoValued a = some true
  | map computed, A => A.map fun a => a.merge (computedColumns Expr.twoValued computed a)

/-- A selection of a subquery as a join. -/
theorem joinSubquery_direct (hA : ∀ a ∈ A, Row.Within L a) (negated : Bool) (q : SubqueryOp L V) :
    joinSubquery (if negated then .antiSemiJoin q.predicate else .semiJoin q.predicate) q.rel A
      = A.filter fun a => (negated ^^ q.marked a) := by
  rw [← Row.extend_eq_filter]
  refine Row.extend_congr fun a ha => ?_
  have hmark := matching_card_ne_zero q (Set.eqOn_refl a L) fun c hc => hA a ha c (q.rel.separate c hc)
  by_cases hzero : (matching q.predicate (q.rel.rows a) a).card = 0
  · have hnot : q.marked a = false := Bool.eq_false_iff.mpr fun h => hmark.mpr h hzero
    cases negated <;> simp only [RowJoin.expand, hzero, hnot, ↓reduceIte, Bool.xor_false, Bool.false_eq_true]
  · cases negated <;> simp [RowJoin.expand, hzero, hmark.mp hzero]

theorem replaceAll_computed {r : Row C V} (computed : List (C × Expr L V)) (n : ℕ) (hL : Set.EqOn r a L)
    (hmarks : ∀ m ∈ (replaceAll fresh computed n).2, r m.1 = some (Values.ofBool (m.2.marked a))) :
    computedColumns Replaced.eval (replaceAll fresh computed n).1 r = computedColumns twoValued computed a := by
  induction computed generalizing n with
  | nil => rfl
  | cons m computed ih =>
    funext c
    have hrest := congrFun (ih _ fun m' hm' => hmarks m' (mem_append_right _ hm')) c
    rw [computedColumns, computedColumns] at hrest
    rw [replaceAll, computedColumns, computedColumns]
    by_cases hc : m.1 = c
    · rw [find?_cons_of_pos (by simpa using hc), find?_cons_of_pos (by simpa using hc), bind_some,
        bind_some, replaceOps_eval m.2 n hL fun m' hm' => hmarks m' (mem_append_left _ hm')]
    · rw [find?_cons_of_neg (by simpa using hc), find?_cons_of_neg (by simpa using hc), hrest]

/-- After the pass an unknown subquery counts as false. -/
theorem explicit_eq_twoValued (s : Surrounding L V) (hfresh : Fresh fresh s) (hA : ∀ a ∈ A, Row.Within L a) :
    (s.explicit fresh A).map (mapToNull (s.marks fresh)) = s.twoValued A := by
  cases s with
  | selection e =>
    rw [Surrounding.explicit, Surrounding.marks]
    rcases hdirect : directSelection e with _ | ⟨negated, q⟩
    · have hnew : NewMarks (.selection e) (replaceOps fresh e 0).2 :=
        hfresh.newMarks (replaceOps_columns fresh e 0) (replaceOps_ops fresh e 0)
      rw [if_neg (by simp), markJoins_eq, Multiset.filter_map, Multiset.map_map]
      have hfilter : (A.filter ((fun r => (replaceOps fresh e 0).1.eval r = some true) ∘
          fun a => (replaceOps fresh e 0).2.foldl addMark a)) = A.filter fun a => e.twoValued a = some true := by
        refine filter_congr fun a ha => ?_
        have hmarked := hnew.marked (hA a ha)
        rw [Function.comp_apply, replaceOps_eval e 0 (hmarked.eqOn hnew) hmarked.2]
      rw [hfilter]
      refine (map_congr rfl fun a ha => ?_).trans (map_id _)
      have hwithin := hA a (mem_of_mem_filter ha)
      funext c
      rw [Function.comp_apply, mapToNull]
      split
      · next hc => exact (hwithin c (hnew.outside c hc)).symm
      · next hc => exact (hnew.marked hwithin).1 c hc
    · dsimp only
      rw [joinSubquery_direct hA]
      rw [if_pos (by simp), mapToNull_nil, Multiset.map_id]
      refine filter_congr fun a _ => ?_
      rw [directSelection_eq hdirect a, some.injEq]
  | map computed =>
    have hnew : NewMarks (.map computed) (replaceAll fresh computed 0).2 :=
      hfresh.newMarks (replaceAll_columns fresh computed 0) (replaceAll_ops fresh computed 0)
    rw [Surrounding.explicit, markJoins_eq, Multiset.map_map, Multiset.map_map]
    refine map_congr rfl fun a ha => ?_
    have hmarked := hnew.marked (hA a ha)
    funext c
    rw [Function.comp_apply, Function.comp_apply, replaceAll_computed computed 0 (hmarked.eqOn hnew) hmarked.2,
      mapToNull]
    split
    · next hc =>
      rw [Row.merge_apply, hA a ha c (hnew.outside c hc), computedColumns_eq_none (hnew.created c hc), or_none]
    · next hc => rw [Row.merge_apply, Row.merge_apply, hmarked.1 c hc]

end Result

/-! ## Comparison with SQL -/

section Comparison

variable [DecidableEq V] {a : Row C V} {A : Multiset (Row C V)}

/-- IN compares with the column that the subquery returns. -/
def SubqueryOp.Aligned : SubqueryOp L V → Prop
  | existsOp _ => True
  | inOp _ _ rel => rel.searchInAttr = rel.returned

/-- No IN is unknown on the row where this could make the expression have the
value `b`: none under an odd number of negations if this is true, none under an
even number if it is false. -/
def Expr.Safe (a : Row C V) : Bool → Expr L V → Prop
  | _, value _ _ => True
  | true, op _ => True
  | false, op q => q.sql a ≠ none
  | b, andOp e f | b, orOp e f => e.Safe a b ∧ f.Safe a b
  | b, notOp e => e.Safe a (!b)

/-- What a selection uses of its expression is where it is true, a map uses the
value. -/
def Surrounding.Safe (A : Multiset (Row C V)) : Surrounding L V → Prop
  | selection e => ∀ a ∈ A, e.Safe a true
  | map computed => ∀ a ∈ A, ∀ m ∈ computed, ∀ b, m.2.Safe a b

theorem sqlIn_eq_true {x : Option V} {elements : Multiset (Option V)} :
    sqlIn x elements = some true ↔ some true ∈ elements.map (compareEq x) := by
  by_cases h : some true ∈ elements.map (compareEq x)
  · rw [sqlIn, if_pos h, iff_true_right h]
  · rw [sqlIn]
    refine iff_of_false ?_ h
    split_ifs <;> simp

theorem marked_eq_true {q : SubqueryOp L V} (h : q.Aligned) : q.marked a ↔ q.sql a = some true := by
  cases q with
  | existsOp rel => rw [SubqueryOp.marked, SubqueryOp.sql, some.injEq]
  | inOp val hval rel =>
    have hattr : rel.searchInAttr = rel.returned := h
    rw [SubqueryOp.marked, SubqueryOp.sql, sqlIn_eq_true, decide_eq_true_iff, Multiset.map_map, hattr]
    rfl

theorem twoValued_eq_sql {e : Expr L V} (haligned : ∀ q ∈ e.ops, q.Aligned) {b : Bool} (hsafe : e.Safe a b) :
    e.twoValued a = some b ↔ e.sql a = some b := by
  induction e generalizing b with
  | value f hf => rfl
  | op q =>
    have hq : q.Aligned := haligned q mem_cons_self
    rw [twoValued, sql, some.injEq]
    cases b with
    | true => exact marked_eq_true hq
    | false =>
      have hknown : q.sql a ≠ none := hsafe
      rw [← Bool.not_eq_true, marked_eq_true hq]
      rcases hsql : q.sql a with _ | _ | _ <;> simp_all
  | andOp e f ihe ihf | orOp e f ihe ihf =>
    have he := ihe (fun q hq => haligned q (mem_append_left _ hq)) hsafe.1
    have hf := ihf (fun q hq => haligned q (mem_append_right _ hq)) hsafe.2
    cases b <;> simp only [twoValued, sql, and_eq_true, and_eq_false, or_eq_true, or_eq_false, he, hf]
  | notOp e ih =>
    have he := ih haligned hsafe
    cases b <;> rwa [twoValued, sql, Kleene.not_eq, Kleene.not_eq]

/-- The result of the pass, without the marks, is the one of SQL if IN compares
with the right column and no IN is unknown where it matters. -/
theorem explicit_eq_sql [DecidableEq C] [TruthValues V] {fresh : ℕ → C} (s : Surrounding L V) (hfresh : Fresh fresh s)
    (hA : ∀ a ∈ A, Row.Within L a) (haligned : ∀ q ∈ s.ops, q.Aligned) (hsafe : s.Safe A) :
    (s.explicit fresh A).map (mapToNull (s.marks fresh)) = s.sql A := by
  rw [explicit_eq_twoValued s hfresh hA]
  cases s with
  | selection e => exact filter_congr fun a ha => twoValued_eq_sql haligned (hsafe a ha)
  | map computed =>
    refine map_congr rfl fun a ha => congrArg a.merge (computedColumns_congr fun m hm => ?_)
    have hops : ∀ q ∈ m.2.ops, q.Aligned := fun q hq => haligned q (mem_flatMap.mpr ⟨m, hm, hq⟩)
    exact ext fun b => twoValued_eq_sql hops (hsafe a ha m hm b)

end Comparison

instance : TruthValues ℕ where
  truth n := n == 1
  truth_ofBool b := by cases b <;> rfl

/-- A subquery that returns 5 and null. -/
def fiveAndNull : Subquery ({0} : Set ℕ) ℕ where
  available := [1]
  returned := 1
  rows _ := {Row.single 1 5, Row.empty}
  returned_mem := mem_cons_self
  reads _ _ _ := rfl
  within r b hb c hc := by
    have hne : c ≠ 1 := fun h => hc (List.mem_singleton.mpr h)
    rcases Multiset.mem_cons.mp hb with rfl | hb
    · exact if_neg hne
    · rw [Multiset.mem_singleton.mp hb, Row.empty_apply]
  separate c hc := by simp_all

/-- A subquery with the columns 1 and 2 that returns the second. -/
def secondOfTwo : Subquery ({0} : Set ℕ) ℕ where
  available := [1, 2]
  returned := 2
  rows _ := {(Row.single 1 5).merge (Row.single 2 7)}
  returned_mem := mem_cons_of_mem _ mem_cons_self
  reads _ _ _ := rfl
  within r b hb c hc := by
    have hne : c ≠ 1 ∧ c ≠ 2 := by simpa using hc
    rw [Multiset.mem_singleton.mp hb, Row.merge_apply, Row.single, Row.single, if_neg hne.1, if_neg hne.2,
      or_none]
  separate c hc := by
    rintro rfl
    simp at hc

/-- Column 0 IN a subquery. -/
def lookup (rel : Subquery ({0} : Set ℕ) ℕ) : Expr ({0} : Set ℕ) ℕ :=
  .op (.inOp ⟨[0], fun r => r 0, fun _ _ h => h 0 mem_cons_self⟩ (fun _ hc => List.mem_singleton.mp hc) rel)

/-- IN and NOT EXISTS below OR. -/
theorem explicit_eq_sql_numbers :
    let s := Surrounding.selection ((lookup fiveAndNull).orOp (.notOp (.op (.existsOp fiveAndNull))))
    let A : Multiset (Row ℕ ℕ) := {Row.single 0 5, Row.single 0 6, Row.empty}
    (s.sql A).card = 1 ∧ (s.explicit (· + 2) A).map (mapToNull (s.marks (· + 2))) = s.sql A := by
  refine ⟨by decide, explicit_eq_sql _ ⟨fun m n h => Nat.add_right_cancel h, ?_, ?_, ?_⟩ ?_ ?_ ?_⟩
  · simp
  · simp [Surrounding.ops, ops, lookup, SubqueryOp.rel, fiveAndNull]
  · simp [Surrounding.created]
  · have hsingle : ∀ v : ℕ, Row.Within {0} (Row.single 0 v) := fun v => .single v rfl
    simp [hsingle, Row.Within.empty]
  · simp [Surrounding.ops, ops, lookup, SubqueryOp.Aligned, Subquery.searchInAttr, fiveAndNull]
  · exact fun a _ => ⟨trivial, some_ne_none _⟩

/-- A row passes NOT IN although the set has a null, the column of a map is
false where IN is unknown, and IN misses a value that is in the second column. -/
theorem explicit_differs_from_sql :
    let A : Multiset (Row ℕ ℕ) := {Row.single 0 7}
    let notIn := Surrounding.selection (.notOp (lookup fiveAndNull))
    let computed := Surrounding.map [(3, lookup fiveAndNull)]
    let second := Surrounding.selection (lookup secondOfTwo)
    ((notIn.explicit (· + 4) A).card = 1 ∧ (notIn.sql A).card = 0) ∧
    ((computed.explicit (· + 4) A).map (fun r => r 3) = {some 0} ∧ (computed.sql A).map (fun r => r 3) = {none}) ∧
    (second.explicit (· + 4) A).card = 0 ∧ (second.sql A).card = 1 := by
  decide

end GengoDB.ImplicitJoins
