/-
The payload word of a relationship. The property layer keeps the head of the
relationship's property chain in it; `setTruth` keeps the bits of a `float`
in the same word, and the overload of `addTriple` for three nodes always
calls it, with the degree 1 when the graph is not fuzzy. The six overloads
for typed terms do not.

Relationships of RDF graphs have no properties and records in use are those
of the literals, so what the chain walks of the property layer meet is
decided by the calls alone: the payloads are sound exactly when each degree
happens to be the bits of -1 or the id of a literal's record
(`payloads_sound_iff`).
-/
import Mathlib.Data.Finset.Card
import Mathlib.Data.Int.Interval
import GengoDB.RdfGraphFacts

namespace GengoDB

open Option List

open Function (update update_self update_of_ne)
open Codec

namespace RdfGraph

/-! ## The overloads -/

/-- `addTriple` of typed terms, with the relationship it returns: the six
overloads for an IRI or a blank node, an IRI, and any term. -/
def addTripleTerms (g : RdfGraph) (order : List Slot) (t : Triple) : Option (Int × RdfGraph) :=
  match t.predicate, t.subject with
  | .iri _, .iri _ | .iri _, .bnode _ => do
    let (ids, g) ← g.resolveSlots t order
    let subject ← ids.lookup .subject
    let object ← ids.lookup .object
    let predicate ← ids.lookup .predicate
    let (rel, s) ← g.store.addRelationship subject object (UInt32.ofNat predicate)
    return (rel, g.setStore s)
  | _, _ => none

def setTruth (g : RdfGraph) (rel : Int) (degree : BitVec 32) : RdfGraph :=
  g.setStore (g.store.setRelPayload rel degree.toInt)

def setFuzzy (g : RdfGraph) (fuzzy : Bool) : RdfGraph := { g with fuzzy }

/-- `addTriple` of three nodes calls the overload for their types and sets
the degree of the relationship it returns. -/
theorem addTriple_eq_addTripleTerms (g : RdfGraph) (order : List Slot) (t : Triple) : (g.addTriple order t).map (·.2) =
      (g.addTripleTerms order t).map fun r => r.2.setTruth r.1 (if r.2.fuzzy then t.truth else one32) := by
  unfold addTriple addTripleTerms
  cases t.predicate with
  | iri p =>
    cases t.subject <;> simp only [bind_eq_bind, map_bind, Function.comp_def] <;> rfl
  | _ => rfl

/-- Which overload is called: the one for the terms' types, or the one for
nodes. -/
inductive Overload where
  | terms | nodes
  deriving DecidableEq

structure AddCall where
  overload : Overload
  order : List Slot
  triple : Triple
  deriving DecidableEq

def AddCall.run (c : AddCall) (g : RdfGraph) : Option RdfGraph :=
  match c.overload with
  | .terms => (g.addTripleTerms c.order c.triple).map (·.2)
  | .nodes => (g.addTriple c.order c.triple).map (·.2)

/-- A sequence of calls. -/
def addCalls (g : RdfGraph) : List AddCall → Option RdfGraph
  | [] => some g
  | c :: calls => (c.run g).bind fun g => g.addCalls calls

/-- What the property layer takes for granted: the payload of a relationship
in use is the `none` marker or a property record in use. -/
def PayloadsSound (g : RdfGraph) : Prop :=
  ∀ r, (g.store.graph.rels r).inUse = true →
    (g.store.graph.rels r).payload = graphNone ∨ (g.store.props (g.store.graph.rels r).payload).inUse = true

/-! ## What a call writes -/

/-- The payload a call leaves behind. -/
def AddCall.payload (fuzzy : Bool) (c : AddCall) : Int :=
  match c.overload with
  | .terms => graphNone
  | .nodes => (if fuzzy then c.triple.truth else one32).toInt

/-- The literal a call stores, by its key. -/
def AddCall.literal (c : AddCall) : Option TermKey :=
  c.triple.object.key.filter (·.isLiteral)

/-- The different literals of the calls. -/
def literals (calls : List AddCall) : Finset TermKey := (calls.filterMap AddCall.literal).toFinset

variable {g g' : RdfGraph} {keys keys' : List TermKey} {s s' : PropertyStore} {n : Nat} {c : AddCall} {fuzzy : Bool}

/-- A new relationship has no payload to speak of. -/
theorem addRelationship_payload {src dst rel : Int} {type : UInt32} (h : s.Holds n keys)
    (hsrc : (s.graph.nodes src).inUse) (hdst : (s.graph.nodes dst).inUse)
    (hrun : s.addRelationship src dst type = some (rel, s')) : s'.setRelPayload rel graphNone = s' := by
  obtain ⟨⟨_, _⟩, hadd, he⟩ := map_eq_some_iff.1 hrun
  cases he
  obtain ⟨graph, hgraph, rfl⟩ := PropertyGraph.addRelationship_eq_some.1 hadd
  obtain ⟨L, hwf⟩ := h.wf
  obtain ⟨⟨q, -, hshape⟩, -⟩ := hwf.addRelationship hsrc hdst hgraph
  have hpay : (graph.rels rel).payload = graphNone := by
    rw [hshape.relPayload]
    simp [Graph.withFresh, Graph.freshRel]
  have hsame : graph.setRelPayload rel graphNone = graph := by
    simp only [Graph.setRelPayload, Graph.setRel]
    rw [← hpay, Function.update_eq_self]
  simp only [PropertyStore.setRelPayload, PropertyGraph.setChainHead, hsame]

/-- **One call**, whichever overload: the three terms are resolved, and the
relationship between them gets the call's payload. -/
theorem AddCall.run_eq_some (h : g.Interned keys) (hrun : c.run g = some g') :
    c.triple.WellPlaced ∧ ∃ all g1, ∃ ids : TripleIds, ∃ rel s, g.resolveSlots c.triple c.order = some (all, g1) ∧
      (∀ slot, all.lookup slot = some (ids.id slot)) ∧
      g1.store.addRelationship ids.subject ids.object (UInt32.ofNat ids.predicate) = some (rel, s) ∧
      g' = g1.setStore (s.setRelPayload rel (c.payload g.fuzzy)) := by
  unfold AddCall.run at hrun
  unfold AddCall.payload
  cases hover : c.overload with
  | terms =>
    rw [hover] at hrun
    obtain ⟨⟨rel, g''⟩, hcall, rfl⟩ := map_eq_some_iff.1 hrun
    obtain ⟨hplaced, hbody⟩ := (ofPlaced_eq_some _ _ _).1 hcall
    simp only [bind_eq_bind, bind_eq_some_iff] at hbody
    obtain ⟨⟨all, g1⟩, hslots, subject, hs, object, ho, predicate, hp, ⟨rel', s⟩, hrel, rfl, rfl⟩ := hbody
    obtain ⟨keys', hg, hterms⟩ := h.resolveSlots hslots
    have hlt : ∀ {slot id}, all.lookup slot = some id → id < keys'.length := fun hid => by
      obtain ⟨k, -, hk⟩ := hterms _ (Assoc.mem_of_lookup hid)
      exact (List.getElem?_eq_some_iff.1 hk).1
    have hstore := hg.interned.store
    have hsame := addRelationship_payload hstore (hstore.inUse (hlt hs)) (hstore.inUse (hlt ho)) hrel
    exact ⟨hplaced, all, g1, ⟨subject, predicate, object⟩, rel', s, hslots, fun slot => by cases slot <;> assumption,
      hrel, by rw [hsame]⟩
  | nodes =>
    rw [hover] at hrun
    obtain ⟨⟨ids, g''⟩, hcall, rfl⟩ := map_eq_some_iff.1 hrun
    obtain ⟨hplaced, all, g1, rel, s, hslots, hids, hrel, rfl⟩ := addTriple_eq_some.1 hcall
    obtain ⟨keys', hg, -⟩ := h.resolveSlots hslots
    have hdegree : g1.degree c.triple = g.degree c.triple := degree_of_frame hg.frame c.triple
    exact ⟨hplaced, all, g1, ids, rel, s, hslots, hids, hrel,
      congrArg (fun d => g1.setStore (s.setRelPayload rel d)) hdegree⟩

/-! ## Property records -/

/-- The property records in use are those below `n`. -/
structure Fills (s : PropertyStore) (n : Nat) : Prop where
  mark : s.propPool.mark = n
  inUse : ∀ p, (s.props p).inUse = true ↔ 0 ≤ p ∧ p < n

theorem Fills.congr (h : Fills s n) (hpool : s'.propPool = s.propPool) (hprops : s'.props = s.props) : Fills s' n :=
  ⟨by rw [hpool, h.mark], by rw [hprops]; exact h.inUse⟩

theorem Fills.ensureNode (h : Fills g.store n) (hrun : g.ensureNode = some g') : Fills g'.store n := by
  unfold RdfGraph.ensureNode at hrun
  split at hrun
  · obtain ⟨s, hs, rfl⟩ := map_eq_some_iff.1 hrun
    obtain ⟨_, _, -, rfl⟩ := PropertyStore.addNode_eq_some hs
    exact h.congr rfl rfl
  · cases hrun
    exact h

theorem Fills.resolveResource {nid : NodeId} {id : Nat} (h : Fills g.store n)
    (hrun : g.resolveResource nid = some (id, g')) : Fills g'.store n := by
  obtain ⟨g1, hnode, he⟩ := map_eq_some_iff.1 hrun
  cases he
  exact Fills.ensureNode (g := { g with nodes := (g.nodes.getOrInsert nid).2 }) h hnode

/-- A literal that is not there yet takes the next record. -/
theorem Fills.insertLiteral {datatype : Bytes} {dt id : Nat} {enc : EncodedValue} (h : Fills g.store n)
    (hi : g.Interned keys) (hrun : g.insertLiteral datatype dt enc = some (id, g')) : Fills g'.store (n + 1) := by
  obtain ⟨s, value, d, s', hs, -, hprop, -, rfl⟩ := hi.insertLiteral_eq_some.1 hrun
  have hstore := (hi.store.addNode hs).1
  have hs1 : Fills s n := by
    obtain ⟨_, _, -, rfl⟩ := PropertyStore.addNode_eq_some hs
    exact h.congr rfl rfl
  obtain ⟨p, q, hq, rfl⟩ := PropertyStore.addNodeProperty_eq_some (s := { s with propData := d })
    (hstore.fresh _ (Nat.le_refl _) (Nat.lt_succ_self _)) hprop
  obtain ⟨rfl, rfl, -⟩ := Pool.alloc_of_free_nil hstore.propFree hq
  have hmark := hs1.mark
  refine ⟨?_, fun p => ?_⟩
  · rw [hmark]
    rfl
  · show ((update s.props s.propPool.mark _) p).inUse ↔ _
    by_cases hp : p = s.propPool.mark
    · subst hp
      rw [update_self]
      simp only [true_iff]
      omega
    · rw [update_of_ne hp, hs1.inUse]
      omega

/-- A term takes a record only if it is a literal that is not there yet. -/
theorem Fills.resolve {t : Term} {id : Nat} (h : Fills g.store n) (hi : g.Interned keys)
    (hrun : g.resolve t = some (id, g')) :
    Fills g'.store n ∨ Fills g'.store (n + 1) ∧ ∃ k, t.key = some k ∧ k.isLiteral ∧ k ∉ keys := by
  cases t with
  | iri a | bnode label => exact .inl (h.resolveResource hrun)
  | literal l =>
    by_cases hold : ∃ k ∈ keys, (Term.literal l).key = some k
    · obtain ⟨k, hk, hkey⟩ := hold
      obtain ⟨i, hget⟩ := mem_iff_getElem?.1 hk
      cases hrun.symm.trans (hi.resolve_of_getElem? hkey hget)
      exact .inl h
    · obtain ⟨enc, henc, hrun⟩ := bind_eq_some_iff.1 hrun
      obtain ⟨⟨dt, g1⟩, hiri, hrun⟩ := bind_eq_some_iff.1 hrun
      obtain ⟨keys1, hg1, -, -⟩ := hi.resolveResource (k := .iri l.datatype) rfl trivial hiri
      have h1 := h.resolveResource hiri
      simp only at hrun
      split at hrun
      · cases hrun
        exact .inl h1
      · have hkey : (Term.literal l).key = some (.literal l.datatype enc.bytes) := by
          rw [Term.key, henc]
          rfl
        exact .inr ⟨h1.insertLiteral hg1.interned hrun, _, hkey, rfl, fun hmem => hold ⟨_, hmem, hkey⟩⟩

/-- The records a triple may take, given the terms that are there. -/
def need (keys : List TermKey) (t : Triple) : Nat :=
  if ∃ k ∈ t.object.key, k.isLiteral = true ∧ k ∉ keys then 1 else 0

theorem need_of_isPrefix {t : Triple} (h : keys <+: keys') : need keys' t ≤ need keys t := by
  unfold need
  split
  · next hnew =>
    obtain ⟨k, hk, hlit, hmem⟩ := hnew
    rw [if_pos ⟨k, hk, hlit, fun hm => hmem (h.mem hm)⟩]
  · exact Nat.zero_le _

theorem Fills.resolveSlots {t : Triple} {order : List Slot} {ids : List (Slot × Nat)} (h : Fills g.store n)
    (hi : g.Interned keys) (hplaced : t.WellPlaced) (hrun : g.resolveSlots t order = some (ids, g')) :
    ∃ m, Fills g'.store m ∧ m ≤ n + need keys t := by
  induction order generalizing g keys ids n with
  | nil =>
    cases hrun
    exact ⟨n, h, Nat.le_add_right _ _⟩
  | cons slot order ih =>
    obtain ⟨⟨id, g1⟩, hterm, hrun⟩ := bind_eq_some_iff.1 hrun
    obtain ⟨⟨ids', g2⟩, hrest, hrun⟩ := bind_eq_some_iff.1 hrun
    cases hrun
    obtain ⟨k, keys1, hk, hg1, hid, -⟩ := hi.resolve hterm
    have hle := need_of_isPrefix (t := t) hg1.old
    obtain h1 | ⟨h1, k', hk', hlit, hnew⟩ := h.resolve hi hterm
    · obtain ⟨m, hm, hmle⟩ := ih h1 hg1.interned hrest
      exact ⟨m, hm, by omega⟩
    · cases hk.symm.trans hk'
      -- Only the object can be a literal, and now it is there.
      have hobject : t.object.key = some k := by
        obtain ⟨⟨a, ha⟩, hsub⟩ := hplaced
        cases slot with
        | subject =>
          cases hs : t.subject with
          | literal l => exact absurd hs (hsub l)
          | _ =>
            rw [Triple.term, hs] at hk
            cases hk
            cases hlit
        | predicate =>
          rw [Triple.term, ha] at hk
          cases hk
          cases hlit
        | object => exact hk
      have hneed : need keys t = 1 := if_pos ⟨k, hobject, hlit, hnew⟩
      have hnone : need keys1 t = 0 := by
        refine if_neg ?_
        rintro ⟨k', hk', -, hmem⟩
        refine hmem ?_
        cases hobject.symm.trans hk'
        exact mem_of_getElem? hid
      obtain ⟨m, hm, hmle⟩ := ih h1 hg1.interned hrest
      exact ⟨m, hm, by omega⟩

/-! ## Runs -/

theorem AddCall.literal_eq_some {k : TermKey} : c.literal = some k ↔ c.triple.object.key = some k ∧ k.isLiteral := by
  simp [AddCall.literal]

theorem literals_append (calls : List AddCall) (c : AddCall) :
    literals (calls ++ [c]) = literals calls ∪ c.literal.toFinset := by
  unfold literals
  cases hc : c.literal <;> simp [hc]

/-- A graph after some calls: the relationships are the calls' in order, and
as many property records are in use as there are literals at most. -/
structure Built (g : RdfGraph) (fuzzy : Bool) (calls : List AddCall) (keys : List TermKey)
    (rows : List (TripleIds × Int)) (n : Nat) : Prop where
  interned : g.Interned keys
  links : g.Links rows
  fills : Fills g.store n
  flag : g.fuzzy = fuzzy
  payloads : rows.map (·.2) = calls.map (·.payload fuzzy)
  known : ∀ k ∈ literals calls, k ∈ keys
  count : n ≤ (literals calls).card

theorem AddCall.payload_isInt32 (fuzzy : Bool) (c : AddCall) : IsInt32 (c.payload fuzzy) := by
  unfold AddCall.payload
  split
  · exact .none
  · exact .toInt _

variable {calls : List AddCall}

/-- The literals are as many more as records may be taken. -/
theorem card_literals_append (h : ∀ k ∈ literals calls, k ∈ keys) :
    (literals calls).card + need keys c.triple ≤ (literals (calls ++ [c])).card := by
  rw [literals_append, need]
  split
  · next hnew =>
    obtain ⟨k, hk, hlit, hmem⟩ := hnew
    have hc : c.literal = some k := AddCall.literal_eq_some.2 ⟨hk, hlit⟩
    rw [hc, toFinset_some, Finset.card_union_of_disjoint, Finset.card_singleton]
    rw [Finset.disjoint_singleton_right]
    exact fun hold => hmem (h k hold)
  · rw [Nat.add_zero]
    exact Finset.card_le_card Finset.subset_union_left

variable {rows : List (TripleIds × Int)}

/-- **One more call.** -/
theorem Built.run {fuzzy : Bool} {n : Nat} {c : AddCall}
    (h : g.Built fuzzy calls keys rows n) (hrun : c.run g = some g') :
    ∃ keys' rows' n', g'.Built fuzzy (calls ++ [c]) keys' rows' n' := by
  obtain ⟨hplaced, all, g1, ids, rel, s, hslots, hids, hrel, rfl⟩ := AddCall.run_eq_some h.interned hrun
  obtain ⟨keys', hg, hterms⟩ := h.interned.resolveSlots hslots
  have hhas : HasTerms keys' c.triple ids := fun slot => hterms (slot, ids.id slot) (Assoc.mem_of_lookup (hids slot))
  obtain ⟨hint, hlinks⟩ := hg.interned.link (h.links.grown hg) hhas.lt (c.payload_isInt32 g.fuzzy) hrel
  obtain ⟨m, hm, hmle⟩ := h.fills.resolveSlots h.interned hplaced hslots
  refine ⟨keys', rows ++ [(ids, c.payload g.fuzzy)], m, hint, hlinks, ?_, ?_, ?_, ?_, ?_⟩
  · obtain ⟨⟨_, _⟩, hadd, he⟩ := map_eq_some_iff.1 hrel
    cases he
    obtain ⟨graph, -, rfl⟩ := PropertyGraph.addRelationship_eq_some.1 hadd
    exact hm.congr rfl rfl
  · exact (congrArg RdfGraph.fuzzy hg.frame).trans h.flag
  · rw [map_append, map_append, h.payloads, h.flag]
    rfl
  · intro k hk
    rw [literals_append, Finset.mem_union] at hk
    obtain hk | hk := hk
    · exact hg.old.mem (h.known k hk)
    · obtain ⟨k', hkey, hid⟩ := hhas .object
      have hck := (AddCall.literal_eq_some.1 (mem_toFinset.1 hk)).1
      cases hck.symm.trans hkey
      exact mem_of_getElem? hid
  · have := card_literals_append (c := c) h.known
    have := h.count
    omega

/-- **Any calls.** -/
theorem Built.addCalls {done : List AddCall} (h : g.Built fuzzy done keys rows n)
    (hrun : g.addCalls calls = some g') : ∃ keys' rows' n', g'.Built fuzzy (done ++ calls) keys' rows' n' := by
  induction calls generalizing g done keys rows n with
  | nil =>
    cases hrun
    exact ⟨keys, rows, n, by simpa using h⟩
  | cons c calls ih =>
    obtain ⟨g1, hc, hrest⟩ := bind_eq_some_iff.1 hrun
    obtain ⟨keys1, rows1, n1, h1⟩ := h.run hc
    obtain ⟨keys2, rows2, n2, h2⟩ := ih h1 hrest
    exact ⟨keys2, rows2, n2, by simpa using h2⟩

/-! ## Every literal has a record of its own -/

/-- Literals with one record are one literal. -/
theorem Interned.literal_of_payload {i j : Nat} {d d' b b' : Bytes} (h : g.Interned keys)
    (hi : keys[i]? = some (.literal d b)) (hj : keys[j]? = some (.literal d' b'))
    (hpay : (g.store.graph.nodes i).payload = (g.store.graph.nodes j).payload) :
    TermKey.literal d b = .literal d' b' := by
  obtain ⟨dt, hdt, hkey⟩ := h.literalKeyFor hi
  obtain ⟨dt', hdt', hkey'⟩ := h.literalKeyFor hj
  have hsame : g.literalKeyFor i = g.literalKeyFor j := by rw [literalKeyFor, literalKeyFor, hpay]
  cases (hkey.symm.trans hsame).trans hkey'
  cases hdt.symm.trans hdt'
  rfl

theorem Built.card_le (h : g.Built fuzzy calls keys rows n) : (literals calls).card ≤ n := by
  let record k : Int := (g.store.graph.nodes (keys.idxOf k)).payload
  have hget : ∀ k ∈ literals calls, keys[keys.idxOf k]? = some k := fun k hk =>
    List.getElem?_eq_some_iff.2 ⟨idxOf_lt_length_iff.2 (h.known k hk), getElem_idxOf _⟩
  have hlit : ∀ k ∈ literals calls, ∃ d b, k = .literal d b := fun k hk => by
    obtain ⟨c, -, hc⟩ := mem_filterMap.1 (mem_toFinset.1 hk)
    have hlit := (AddCall.literal_eq_some.1 hc).2
    cases k with
    | literal d b => exact ⟨d, b, rfl⟩
    | _ => cases hlit
  have hmaps : ∀ k ∈ literals calls, record k ∈ Finset.Ico (0 : Int) n := fun k hk => by
    obtain ⟨d, b, rfl⟩ := hlit k hk
    obtain ⟨dt, p, hst⟩ := h.interned.store.literal _ _ _ (hget _ hk)
    rw [Finset.mem_Ico, ← h.fills.mark, show record _ = p from hst.payload]
    exact ⟨hst.nonneg, hst.lt⟩
  have hinj : Set.InjOn record (literals calls) := fun k hk k' hk' he => by
    obtain ⟨d, b, rfl⟩ := hlit k hk
    obtain ⟨d', b', rfl⟩ := hlit k' hk'
    exact h.interned.literal_of_payload (hget _ hk) (hget _ hk') he
  have hcard := Finset.card_le_card_of_injOn record hmaps hinj
  simpa using hcard

/-! ## The payloads -/

/-- Any capacities, fuzzy or not. -/
theorem built_create {fileName sourceFileName : String} {iri : Bytes} {nodeCapacity relCapacity propCapacity : Int}
    (fuzzy : Bool) (hn : IsCapacity nodeCapacity) (hr : IsCapacity relCapacity) (hp : IsCapacity propCapacity) :
    ((create fileName iri sourceFileName nodeCapacity relCapacity propCapacity).setFuzzy fuzzy).Built fuzzy [] [] [] 0
    where
  interned :=
    have h : (create fileName iri sourceFileName nodeCapacity relCapacity propCapacity).Interned [] :=
      interned_create hn hr hp
    { h with }
  links := ⟨rfl, rfl, by simp⟩
  fills := ⟨rfl, fun p => by
    show false ↔ _
    simp⟩
  flag := rfl
  payloads := rfl
  known := by simp [literals]
  count := Nat.le_refl 0

/-- The `i`-th relationship holds the `i`-th call's payload, and no other is
in use. -/
theorem Built.rel (h : g.Built fuzzy calls keys rows n) (P : Int → Prop) :
    (∀ r, (g.store.graph.rels r).inUse → P (g.store.graph.rels r).payload) ↔ ∀ c ∈ calls, P (c.payload fuzzy) := by
  obtain ⟨L, hwf⟩ := h.interned.store.wf
  have huse : ∀ r, (g.store.graph.rels r).inUse ↔ 0 ≤ r ∧ r < rows.length := fun r => by
    rw [← h.links.mark, hwf.relPool.slot r, h.links.free]
    simp
  have hrow : ∀ (i : Nat) e, rows[i]? = some e → (g.store.graph.rels i).payload = e.2 := fun i e hi =>
    congrArg (·.2.2.2) (h.links.row i e hi)
  have hmap : (∀ e ∈ rows, P e.2) ↔ ∀ c ∈ calls, P (c.payload fuzzy) := by
    have hrows : (∀ p ∈ rows.map (·.2), P p) ↔ ∀ e ∈ rows, P e.2 := forall_mem_map
    rw [← hrows, h.payloads, List.forall_mem_map]
  rw [← hmap]
  constructor
  · intro hrels e he
    obtain ⟨i, hi⟩ := mem_iff_getElem?.1 he
    have hlt := (List.getElem?_eq_some_iff.1 hi).1
    rw [← hrow i e hi]
    exact hrels i ((huse i).2 ⟨by omega, by omega⟩)
  · intro hrows r hr
    obtain ⟨h0, hlt⟩ := (huse r).1 hr
    obtain ⟨i, rfl⟩ := Int.eq_ofNat_of_zero_le h0
    have hi : rows[i]? = some (rows.get ⟨i, by omega⟩) := getElem?_eq_getElem _
    rw [hrow i _ hi]
    exact hrows _ (mem_of_getElem? hi)

/-- **When payloads are sound.** After any calls of any overloads on a new
graph, the payload of every relationship in use is the `none` marker or a
property record in use exactly when the degree each call of the overload for
nodes sets is so by accident: its bits are those of -1, or of a number below
the number of different literals. -/
theorem payloads_sound_iff {fileName sourceFileName : String} {iri : Bytes}
    {nodeCapacity relCapacity propCapacity : Int} {fuzzy : Bool} {calls : List AddCall} {g : RdfGraph}
    (hn : IsCapacity nodeCapacity) (hr : IsCapacity relCapacity) (hp : IsCapacity propCapacity)
    (hrun : ((create fileName iri sourceFileName nodeCapacity relCapacity propCapacity).setFuzzy fuzzy).addCalls calls =
      some g) : g.PayloadsSound ↔ ∀ c ∈ calls, c.overload = .nodes →
      ((if fuzzy then c.triple.truth else one32).toInt = graphNone ∨
        0 ≤ (if fuzzy then c.triple.truth else one32).toInt ∧
          (if fuzzy then c.triple.truth else one32).toInt < (literals calls).card) := by
  obtain ⟨keys, rows, n, h⟩ := (built_create fuzzy hn hr hp).addCalls hrun
  have hn : n = (literals calls).card := Nat.le_antisymm h.count h.card_le
  rw [PayloadsSound, h.rel fun p => p = graphNone ∨ (g.store.props p).inUse]
  refine forall₂_congr fun c _ => ?_
  rw [h.fills.inUse, hn, AddCall.payload]
  cases c.overload <;> simp

/-- A literal added without a degree, and in a fuzzy graph again with the
degree 0, whose bits are the id of the literal's record. -/
theorem payloads_sound_literal : ∃ g, ((create "g" (ascii "g") "" 8 8 8).setFuzzy true).addCalls
      [⟨.terms, [.subject, .object, .predicate], literalTriple⟩,
        ⟨.nodes, [.subject, .object, .predicate], { literalTriple with truth := 0 }⟩] = some g ∧ g.PayloadsSound := by
  obtain ⟨g, hrun⟩ := isSome_iff_exists.1 (show (((create "g" (ascii "g") "" 8 8 8).setFuzzy true).addCalls
    [⟨.terms, [.subject, .object, .predicate], literalTriple⟩,
      ⟨.nodes, [.subject, .object, .predicate], { literalTriple with truth := 0 }⟩]).isSome by decide +kernel)
  exact ⟨g, hrun, (payloads_sound_iff (by decide) (by decide) (by decide) hrun).2 (by decide +kernel)⟩

/-- One triple of resources, through the overload for nodes. -/
def resourceCall : AddCall where
  overload := .nodes
  order := [.subject, .object, .predicate]
  triple := ⟨.iri (ascii "s"), .iri (ascii "p"), .iri (ascii "o"), one32⟩

/-- **The degree of a graph that is not fuzzy.** After one triple the payload
of its relationship is the bits of 1, and no property record has that id. -/
theorem payload_is_degree : ∃ g, (create "g" (ascii "g") "" 8 8 8).addCalls [resourceCall] = some g ∧
    (g.store.graph.rels 0).payload = 1065353216 ∧ ¬ g.PayloadsSound := by
  have hfacts : (((create "g" (ascii "g") "" 8 8 8).addCalls [resourceCall]).map fun g =>
      ((g.store.graph.rels 0).inUse, (g.store.graph.rels 0).payload,
        (g.store.props (g.store.graph.rels 0).payload).inUse)) = some (true, 1065353216, false) := by
    decide +kernel
  obtain ⟨g, hrun, hg⟩ := map_eq_some_iff.1 hfacts
  simp only [Prod.mk.injEq] at hg
  obtain ⟨huse, hpay, hfree⟩ := hg
  refine ⟨g, hrun, hpay, fun hsound => ?_⟩
  obtain hnone | hprop := hsound 0 huse
  · rw [hpay] at hnone
    cases hnone
  · rw [hfree] at hprop
    cases hprop

end RdfGraph
end GengoDB
