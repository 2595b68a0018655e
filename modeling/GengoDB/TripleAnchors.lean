/-
The ways to lower a triple pattern: from the subject, from the object, from
all edges. `Yields` says that one of them gives the reading of the pattern,
and under `Agrees` all of them do (`lower_agrees`). An anchored slot is
settled before the others, and settles nothing else, so the slots that are
left are matched as in the scan (`fits_settled_subject`,
`fits_settled_object`).
-/
import GengoDB.TripleEmitterFacts

namespace GengoDB.TripleEmitter

open GraphEmitter List Option

open EdgeScan (Mode)
open Sparql (Column)

variable {Lit V B : Type} [DecidableEq V] [DecidableEq B] {E : TripleEmitter Lit V B}
  {graphs : Nat → Option RdfGraph} {e : RelEntry Int} {row : LocalTerms V B} {slot : Slot} {c : Column V B}
  {v : TypedVariant} {mode : Mode} {rest : List Slot}

/-! ## Settled slots -/

/-- The slot is an identifier or has a value. -/
def Settled (E : TripleEmitter Lit V B) (row : LocalTerms V B) (slot : Slot) : Prop :=
  ∀ c, E.column slot = some c → (row.lookup c).isSome = true

theorem Settled.bindSlot (h : E.Settled row slot) : E.bindSlot e row slot = row := by
  unfold TripleEmitter.bindSlot
  cases hc : E.column slot with
  | none => rfl
  | some c => exact if_pos (h c hc)

theorem Settled.after (h : E.Settled row slot) (slot' : Slot) : E.Settled (E.bindSlot e row slot') slot := by
  intro c hc
  obtain ⟨v, hv⟩ := isSome_iff_exists.1 (h c hc)
  exact isSome_of_eq_some (lookup_bindSlot.2 (.inl hv))

theorem fits_settled_subject (hrt : Runtime graphs E.heap) (hg : graphs E.address = some E.graph)
    (hedge : E.Valid graphs e) (h : E.Settled row .subject) :
    E.Fits graphs e row allSlots ↔ E.Fits graphs e row [.subject] ∧ E.Fits graphs e row [.predicate, .object] := by
  rw [allSlots, fits_cons hrt hg hedge fun _ _ => by decide, h.bindSlot]

theorem fits_settled_object (h : E.Settled row .object) :
    E.Fits graphs e row allSlots ↔ E.Fits graphs e row [.object] ∧ E.Fits graphs e row [.subject, .predicate] := by
  refine ⟨fun h => ⟨h.of_subset (by simp [allSlots]), h.of_subset (by simp [allSlots])⟩, fun ⟨ho, hsp⟩ => ?_⟩
  -- A variable the object shares with another slot has a value, which is the term of both.
  refine hsp.append ho fun slot hslot slot' hslot' c hc hc' => ?_
  cases mem_singleton.1 hslot'
  obtain ⟨v, hv⟩ := isSome_iff_exists.1 (h c hc')
  exact is_unique (hsp.bound slot hslot c v hc hv) (ho.bound .object hslot' c v hc' hv)

theorem bindSlots_settled_subject (h : E.Settled row .subject) :
    E.bindSlots e allSlots row = E.bindSlots e [.predicate, .object] row := by
  rw [allSlots, bindSlots, foldl_cons, h.bindSlot]
  rfl

theorem bindSlots_settled_object (h : E.Settled row .object) :
    E.bindSlots e allSlots row = E.bindSlots e [.subject, .predicate] row :=
  ((h.after .subject).after .predicate).bindSlot

/-! ## Anchors -/

theorem anchorAttr_value (hc : E.column slot = some c) (hv : row.lookup c = some v) :
    anchorAttr (E.triple.term slot) row = .ok (.value v) := by
  unfold column at hc
  cases hterm : E.triple.term slot with
  | iri iri => rw [hterm] at hc; cases hc
  | var _ | blankNode _ =>
    rw [hterm] at hc
    cases hc
    simp only [anchorAttr, Sparql.Term.column, bind_some, hv]

/-! ## Lowering -/

/-- With enough rounds for its scans, a run ends with the rows, in some
order. -/
def Gives (run : Nat → Except LowerError (List (Emitted V B))) (rows : List (Emitted V B)) : Prop :=
  ∃ fuel₀, ∀ fuel, fuel₀ ≤ fuel → ∃ out, run fuel = .ok out ∧ out.Perm rows

/-- Lowering from this anchor gives the reading. -/
def Yields (E : TripleEmitter Lit V B) (graphs : Nat → Option RdfGraph) (row : LocalTerms V B)
    (anchor : Option Slot) : Prop :=
  Gives (fun fuel => E.lower fuel anchor row) (E.reading graphs row)

/-- `lower` from a slot. -/
def lowerFrom (E : TripleEmitter Lit V B) (slot : Slot) (mode : Mode) (rest : List Slot) (row : LocalTerms V B)
    (fuel : Nat) : Except LowerError (List (Emitted V B)) := do
  let edges ← E.emitNodeToEdge fuel (← anchorAttr (E.triple.term slot) row) mode
  E.emitEdges rest row edges

/-- Without an anchor it is the subject or all edges. -/
theorem lower_none (E : TripleEmitter Lit V B) (fuel : Nat) (row : LocalTerms V B) : E.lower fuel none row =
      E.lower fuel (some (if E.triple.s.isIdentifier then .subject else .predicate)) row := by
  unfold lower
  cases E.triple.s.isIdentifier <;> rfl

/-- The rows of the edges that match. -/
theorem reading_eq : E.reading graphs row =
    E.graph.edgesInUse.filterMap fun e => (E.matched graphs e allSlots row).map (E.emitTruthDegree e) := by
  rw [reading, ← filterMap_eq_map, filterMap_filter]
  refine filterMap_congr fun e _ => ?_
  by_cases hfits : E.Fits graphs e row allSlots <;> simp [matched, hfits]

theorem reading_nil (h : ∀ e ∈ E.graph.edgesInUse, ¬ E.Fits graphs e row allSlots) : E.reading graphs row = [] := by
  unfold reading
  rw [filter_eq_nil_iff.2 fun e he => by simpa using h e he]
  rfl

/-! ## Agreement -/

/-- The slot lowering may be anchored at: one that is settled. -/
def Anchorable (E : TripleEmitter Lit V B) (row : LocalTerms V B) : Option Slot → Prop
  | some .subject => E.Settled row .subject
  | some .object => E.Settled row .object
  | _ => True

/-- **What makes the ways agree.** A bound subject or object can be looked for
in the graph, or matches nothing there; and the value bound to the object
equals, as a value, just the objects that are its term. -/
structure Agrees (E : TripleEmitter Lit V B) (graphs : Nat → Option RdfGraph) (row : LocalTerms V B) : Prop where
  anchors : ∀ slot, slot ≠ .predicate → ∀ c v, E.column slot = some c → row.lookup c = some v →
    ¬ E.Refused v ∧ (E.Known v ∨ ∀ e ∈ E.graph.edgesInUse, ¬ E.Fits graphs e row allSlots)
  object : ∀ c v, E.column .object = some c → row.lookup c = some v → ∀ e ∈ E.graph.edgesInUse,
    E.Fits graphs e row [.subject, .predicate] → E.Compares graphs v (e.slotId .object).toNat

section
variable (hrt : Runtime graphs E.heap) (hrow : E.Values graphs row)
include hrt hrow

/-- An anchor that cannot be looked for gives no rows. -/
theorem lowerFrom_unknown {fuel : Nat} (hc : E.column slot = some c) (hv : row.lookup c = some v)
    (hun : ¬ E.Known v) : E.lowerFrom slot mode rest row fuel = .ok [] := by
  have hresolve : E.resolveAnchor (.value v) = .ok none := by
    rw [resolveAnchor, resolveNode_unknown hrt (hrow c v hv) hun]
    rfl
  simp only [lowerFrom, anchorAttr_value hc hv, bind, Except.bind, emitNodeToEdge, hresolve]
  rfl

/-- Looking for an anchor, or not. -/
theorem Agrees.lowerFrom (h : E.Agrees graphs row) (hslot : slot ≠ .predicate)
    (hknown : (∀ c v, E.column slot = some c → row.lookup c = some v → ¬ E.Refused v ∧ E.Known v) →
      Gives (E.lowerFrom slot mode rest row) (E.reading graphs row)) :
    Gives (E.lowerFrom slot mode rest row) (E.reading graphs row) := by
  by_cases hall : ∀ c v, E.column slot = some c → row.lookup c = some v → E.Known v
  · exact hknown fun c v hc hv => ⟨(h.anchors slot hslot c v hc hv).1, hall c v hc hv⟩
  · push Not at hall
    obtain ⟨c, v, hc, hv, hun⟩ := hall
    have hnone := (h.anchors slot hslot c v hc hv).2.resolve_left hun
    refine ⟨0, fun fuel _ => ⟨[], lowerFrom_unknown hrt hrow hc hv hun, ?_⟩⟩
    rw [reading_nil hnone]

variable (hg : graphs E.address = some E.graph)
include hg

/-- **An anchor that is looked for** has the edges that match its slot. -/
theorem resolveAnchor_fits (hset : E.Settled row slot)
    (hok : ∀ c v, E.column slot = some c → row.lookup c = some v → ¬ E.Refused v ∧ E.Known v) :
    ∃ anchor q, anchorAttr (E.triple.term slot) row = .ok anchor ∧ E.resolveAnchor anchor = .ok q ∧
      (∀ n, q = some n → (meaningOf graphs ⟨E.address, n⟩).isSome) ∧
      ∀ e, E.Valid graphs e → (q.map Int.ofNat = some (e.slotId slot) ↔ E.Fits graphs e row [slot]) := by
  cases hc : E.column slot with
  | none =>
    obtain ⟨iri, hterm⟩ : ∃ iri, E.triple.term slot = .iri iri := by
      unfold column at hc
      cases hterm : E.triple.term slot with
      | iri iri => exact ⟨iri, rfl⟩
      | _ => rw [hterm] at hc; cases hc
    obtain ⟨q, hq, hiff⟩ := E.resolveAnchor_ident iri
    refine ⟨.ident iri, q, by rw [hterm]; rfl, hq, fun n hn => ?_, fun e he => ?_⟩
    · have hid : E.createIdentifier iri = n := (hiff n (Int.natCast_nonneg n)).1 (by rw [hn]; rfl)
      exact isSome_of_eq_some ((createIdentifier_iff hrt hg (Int.natCast_nonneg n)).1 hid)
    · rw [hiff _ (he.nonneg slot), createIdentifier_iff hrt hg (he.nonneg slot), fits_iri hterm]
      rfl
  | some c =>
    obtain ⟨v, hv⟩ := isSome_iff_exists.1 (hset c hc)
    obtain ⟨href, hknown⟩ := hok c v hc hv
    obtain ⟨q, hq, hiff⟩ := resolveNode_known hrt hg (hrow c v hv) href hknown
    have hresolve : E.resolveAnchor (.value v) = .ok q := by
      rw [resolveAnchor, hq]
      rfl
    refine ⟨.value v, q, anchorAttr_value hc hv, hresolve, fun n hn => ?_, fun e he => ?_⟩
    · exact isSome_of_is hrt (hrow c v hv) ((hiff n).1 hn)
    · have hfits : E.Fits graphs e row [slot] ↔ v.Is graphs (E.node e slot) := by simp [fits_column hc, hv]
      rw [hfits, node, ← hiff]
      have hnat : ((e.slotId slot).toNat) = e.slotId slot := Int.toNat_of_nonneg (he.nonneg slot)
      cases q with
      | none => simp
      | some n =>
        simp only [map_some, some.injEq]
        show (n : Int) = _ ↔ _
        omega

variable (hplaced : E.graph.Placed)
include hplaced

open scoped Classical in
/-- **From an anchor** that is looked for, when the other slots are compared
right. -/
theorem lowerFrom_known (hmode : ∀ e, mode.endpoint e = e.slotId slot) (hset : E.Settled row slot)
    (hok : ∀ c v, E.column slot = some c → row.lookup c = some v → ¬ E.Refused v ∧ E.Known v)
    (hfits : ∀ e, E.Valid graphs e →
      (E.Fits graphs e row allSlots ↔ E.Fits graphs e row [slot] ∧ E.Fits graphs e row rest))
    (hbind : ∀ e, E.bindSlots e allSlots row = E.bindSlots e rest row)
    (hslots : ∀ e ∈ E.graph.edgesInUse, E.Fits graphs e row [slot] →
      E.emitSlots e rest row = .ok (E.matched graphs e rest row)) :
    Gives (E.lowerFrom slot mode rest row) (E.reading graphs row) := by
  obtain ⟨anchor, q, hanchor, hq, hnode, hiff⟩ := resolveAnchor_fits hrt hrow hg hset hok
  obtain ⟨edges, fuel₀, hedges, hmem, hperm⟩ := emitNodeToEdge_eq hrt hg hq hnode mode
  have hvalid (e : RelEntry Int) (he : e ∈ E.graph.edgesInUse) : E.Valid graphs e := valid_of_mem hrt hg hplaced he
  have hmatch (e : RelEntry Int) (he : e ∈ E.graph.edgesInUse) :
      decide (q.map Int.ofNat = some (mode.endpoint e)) ↔ E.Fits graphs e row [slot] := by
    rw [decide_eq_true_iff, hmode]
    exact hiff e (hvalid e he)
  have hrun : E.emitEdges rest row edges = _ := emitEdges_ok fun ptr hptr => hslots _ (hmem ptr hptr) <| by
    have hin := hperm.subset (mem_map_of_mem hptr)
    exact (hmatch _ (hmem ptr hptr)).1 (mem_filter.1 hin).2
  have hlower (fuel : Nat) (hf : fuel₀ ≤ fuel) : E.lowerFrom slot mode rest row fuel = E.emitEdges rest row edges := by
    simp only [lowerFrom, hanchor, bind, Except.bind, hedges fuel hf]
  refine ⟨fuel₀, fun fuel hf => ⟨_, (hlower fuel hf).trans hrun, (hperm.filterMap _).trans (.of_eq ?_)⟩⟩
  rw [filterMap_filter, reading_eq]
  refine filterMap_congr fun e he => ?_
  rw [matched, matched, hbind]
  by_cases hanchored : E.Fits graphs e row [slot]
  · rw [if_pos ((hmatch e he).2 hanchored)]
    rw [hfits e (hvalid e he), and_iff_right hanchored]
  · rw [if_neg (mt (hmatch e he).1 hanchored), if_neg fun h => hanchored ((hfits e (hvalid e he)).1 h).1]
    rfl

/-- The object after the slots before it. -/
theorem Agrees.emitSlots {pre : List Slot} (h : E.Agrees graphs row) (he : e ∈ E.graph.edgesInUse)
    (hlast : (pre ++ [Slot.object]).Pairwise fun s _ => s ≠ .object)
    (hfits : E.Fits graphs e row pre → E.Fits graphs e row [.subject, .predicate]) :
    E.emitSlots e (pre ++ [.object]) row = .ok (E.matched graphs e (pre ++ [.object]) row) := by
  refine emitSlots_ok hrt hg (valid_of_mem hrt hg hplaced he) hrow hlast ?_
  intro pre' hpre' hfits' c v hc hv
  rw [← (append_inj_left' hpre' rfl)] at hfits'
  exact h.object c v hc hv e he (hfits hfits')

variable (h : E.Agrees graphs row)
include h

theorem Agrees.yields_subject (hset : E.Settled row .subject) : E.Yields graphs row (some .subject) := by
  have hrest e (he : e ∈ E.graph.edgesInUse) (hs : E.Fits graphs e row [.subject])
      (hp : E.Fits graphs e row [.predicate]) : E.Fits graphs e row [.subject, .predicate] := by
    refine (fits_cons hrt hg (valid_of_mem hrt hg hplaced he) fun _ _ => by decide).2 ⟨hs, ?_⟩
    rwa [hset.bindSlot]
  have hne : Slot.subject ≠ .predicate := by decide
  refine h.lowerFrom hrt hrow hne fun hok => ?_
  exact lowerFrom_known hrt hrow hg hplaced (fun e => rfl) hset hok
    (fun e he => fits_settled_subject hrt hg he hset) (fun e => bindSlots_settled_subject hset)
    fun e he hs => h.emitSlots hrt hrow hg hplaced he (by decide) (hrest e he hs)

theorem Agrees.yields_object (hset : E.Settled row .object) : E.Yields graphs row (some .object) := by
  have hne : Slot.object ≠ .predicate := by decide
  refine h.lowerFrom hrt hrow hne fun hok => ?_
  refine lowerFrom_known hrt hrow hg hplaced (fun e => rfl) hset hok (fun e _ => fits_settled_object hset)
    (fun e => bindSlots_settled_object hset) fun e he _ => ?_
  refine emitSlots_ok hrt hg (valid_of_mem hrt hg hplaced he) hrow (by decide) fun pre hpre => ?_
  have hlast := congrArg getLast? hpre
  rw [getLast?_concat] at hlast
  cases hlast

theorem Agrees.yields_scan : E.Yields graphs row (some .predicate) := by
  have hmem (ptr : Int) (hptr : ptr ∈ EdgeScan.scanAll E.layout E.graph.store.graph) :
      E.edge ptr ∈ E.graph.edgesInUse := by
    rw [← map_edge_scanAll]
    exact mem_map_of_mem hptr
  have hrun : E.emitEdges allSlots row (EdgeScan.scanAll E.layout E.graph.store.graph) = _ :=
    emitEdges_ok fun ptr hptr => h.emitSlots hrt hrow hg hplaced (hmem ptr hptr) (by decide) id
  refine ⟨0, fun fuel _ => ⟨_, hrun, .of_eq ?_⟩⟩
  rw [map_edge_scanAll, reading_eq]

end

/-- **The ways agree**: from every anchor lowering ends, with one row for each
edge in use that matches the pattern. -/
theorem lower_agrees (hrt : Runtime graphs E.heap) (hg : graphs E.address = some E.graph) (hplaced : E.graph.Placed)
    (hrow : E.Values graphs row) (hagree : E.Agrees graphs row) (anchor : Option Slot)
    (hanchor : E.Anchorable row anchor) : E.Yields graphs row anchor := by
  have hsubject := hagree.yields_subject hrt hrow hg hplaced
  have hscan := hagree.yields_scan hrt hrow hg hplaced
  match anchor with
  | some .subject => exact hsubject hanchor
  | some .predicate => exact hscan
  | some .object => exact hagree.yields_object hrt hrow hg hplaced hanchor
  | none =>
    unfold Yields
    simp only [lower_none]
    cases hident : E.triple.s.isIdentifier with
    | false => exact hscan
    | true =>
      refine hsubject fun c hc => ?_
      have hnone : E.triple.s.column = some c := hc
      cases hterm : E.triple.s with
      | iri iri => rw [hterm] at hnone; cases hnone
      | _ => rw [hterm] at hident; cases hident

end GengoDB.TripleEmitter

/-! ## A graph in memory -/

namespace GengoDB.RdfGraph

variable {g g' : RdfGraph} {ids : List TripleIds}

theorem wellPlaced_of_addTriples {calls : List (List Slot × Triple)} (hrun : g.addTriples calls = some (ids, g')) :
    ∀ call ∈ calls, call.2.WellPlaced := by
  induction calls generalizing g ids with
  | nil => simp
  | cons call calls ih =>
    obtain ⟨⟨id, g₁⟩, hcall, hrun⟩ := Option.bind_eq_some_iff.1 hrun
    obtain ⟨⟨all, g₂⟩, hrest, hrun⟩ := Option.bind_eq_some_iff.1 hrun
    cases hrun
    exact List.forall_mem_cons.2 ⟨(addTriple_eq_some.1 hcall).1, ih hrest⟩

/-- What was added goes out from resources, by way of IRIs. -/
theorem placed_addTriples {fileName sourceFileName : String} {iri : Bytes} {nodeCapacity relCapacity propCapacity : Int}
    {calls : List (List Slot × Triple)} (hn : IsCapacity nodeCapacity) (hr : IsCapacity relCapacity)
    (hp : IsCapacity propCapacity)
    (hrun : (create fileName iri sourceFileName nodeCapacity relCapacity propCapacity).addTriples calls =
      some (ids, g)) : g.Placed := by
  obtain ⟨keys, h, hl, hall, -⟩ := interned_addTriples hn hr hp hrun
  have hc := h.consistent hl hall
  intro e he
  obtain ⟨i, -, rfl, huse⟩ := GraphEmitter.mem_edgesInUse.1 he
  have hi : i < calls.length := by
    have := ((hc.inUse i).1 huse).2
    omega
  have hcall : calls[i]? = some calls[i] := List.getElem?_eq_getElem hi
  obtain ⟨t, hids⟩ : ∃ t, ids[i]? = some t := ⟨_, List.getElem?_eq_getElem (hc.length.symm ▸ hi)⟩
  have hlink := hc.link i _ _ hcall hids
  simp only [RelEntry.link, Prod.mk.injEq] at hlink
  obtain ⟨hfirst, htype, -, -⟩ := hlink
  obtain ⟨⟨a, hpred⟩, hsub⟩ := wellPlaced_of_addTriples hrun _ (List.getElem_mem hi)
  rw [hfirst, htype]
  refine ⟨Int.natCast_nonneg _, ?_, a, ?_⟩
  · obtain ⟨hsome, hmean⟩ := hc.meaning i _ _ .subject hcall hids
    obtain ⟨k, hk⟩ := Option.isSome_iff_exists.1 hsome
    refine ⟨k, hmean.trans hk, ?_⟩
    cases hterm : (calls[i]).2.subject with
    | literal l => exact absurd hterm (hsub l)
    | _ =>
      rw [Triple.term, hterm] at hk
      cases hk
      rfl
  · refine (hc.meaning i _ _ .predicate hcall hids).2.trans ?_
    rw [Triple.term, hpred]
    rfl

theorem BoolsStored.view (h : g.BoolsStored) {id : Nat} (hid : id < g.nodes.size) :
    (g.viewOf id).uid = id ∧ (g.viewOf id).nodeName = g.nodeName id ∧
      (g.viewOf id).nodeType = ((g.nodes.get id).map (·.type)).getD .iri := by
  unfold viewOf
  rw [dif_pos (h.byte_le hid)]
  exact ⟨rfl, rfl, rfl⟩

/-- One graph in memory. -/
theorem runtime_heapOf (hopened : g.Opened) (hbools : g.BoolsStored) :
    Runtime (fun a => if a = 0 then some g else none) (heapOf fun _ => g) := by
  have hone {a : Nat} {g' : RdfGraph} (h : (if a = 0 then some g else none) = some g') : a = 0 ∧ g = g' := by
    simpa using h
  obtain ⟨keys, hdesc, -⟩ := id hopened
  have hat {r : NodeRef} {k : TermKey} (h : meaningOf (fun a => if a = 0 then some g else none) r = some k) :
      r.graph = 0 ∧ keys[r.id]? = some k ∧ (g.viewOf r.id).uid = r.id := by
    obtain ⟨g', hg', hk⟩ := Runtime.meaningOf_eq_some.1 h
    obtain ⟨ha, rfl⟩ := hone hg'
    rw [hdesc.meaning] at hk
    exact ⟨ha, hk, (hbools.view (hdesc.size ▸ (getElem?_eq_some_iff.1 hk).1)).1⟩
  refine ⟨fun a g' h => ?_, fun a g' h => ?_, fun a g' id node h hnode => ?_, fun r r' k k' hk hk' _ _ => ?_⟩
  · obtain ⟨-, rfl⟩ := hone h
    exact hopened
  · obtain ⟨-, rfl⟩ := hone h
    exact shows_heapOf (fun _ => g) hbools
  · obtain ⟨-, rfl⟩ := hone h
    obtain ⟨-, hname, htype⟩ := hbools.view (getElem?_eq_some_iff.1 hnode).1
    rw [hnode] at htype
    exact ⟨htype, hname⟩
  · obtain ⟨ha, hr, hu⟩ := hat hk
    obtain ⟨ha', hr', hu'⟩ := hat hk'
    show (g.viewOf r.id).uid = (g.viewOf r'.id).uid ↔ _
    rw [hu, hu']
    constructor
    · intro hid
      obtain ⟨a, id⟩ := r
      obtain ⟨a', id'⟩ := r'
      cases ha
      cases ha'
      exact .inl (congrArg _ (by exact_mod_cast hid))
    · rintro (rfl | ⟨k₀, h₁, h₂, -⟩)
      · rfl
      · cases h₁
        cases h₂
        rw [Assoc.nodup_getElem?_inj hdesc.nodup hr hr']

end GengoDB.RdfGraph

namespace GengoDB.TripleEmitter

open RdfGraph

/-- `?s <p> ?o` over one graph in memory. -/
def patternSPO (g : RdfGraph) : TripleEmitter ExactLiteral String String where
  lib := exactLits
  heap := heapOf fun _ => g
  graph := g
  address := 0
  layout := .property 1000 2000
  scratch := 0
  triple := ⟨.var "s", .iri (ascii "p"), .var "o"⟩
  truthDegr := false

/-- `?o` is the node `id`. -/
def objectBound (g : RdfGraph) (id : Nat) : LocalTerms String String :=
  [(.var "o", (patternSPO g).wrapNode id)]

/-- `<a> <p> "1"^^xsd:int ; <q> "1"^^xsd:long`, and `?o` is the long: a scan
finds the int, and the long has no edge `<p>`. -/
theorem lower_long_disagrees : ((create "g" (ascii "g") "" 8 8 8).addTriples
      [([.subject, .predicate, .object], xsdTriple "int"),
        ([.subject, .predicate, .object], { xsdTriple "long" with predicate := .iri (ascii "q") })]).map (fun r =>
      let rows := fun anchor => ((patternSPO r.2).lower 9 anchor (objectBound r.2 6)).toOption.map List.length
      (r.2.meaning 6, rows (some .predicate), rows (some .object))) =
    some (some (.literal (XsdType.xsdIri "long") (Codec.putLE 8 1)), some 1, some 0) := by
  decide +kernel

/-- With an int the ways agree. -/
theorem lower_int_agrees : ∃ ids g, addXsdTriple "int" = some (ids, g) ∧
    ∀ anchor, (patternSPO g).Anchorable [(.var "o", ⟨.int, .inline 1⟩)] anchor →
      (patternSPO g).Yields (fun a => if a = 0 then some g else none) [(.var "o", ⟨.int, .inline 1⟩)] anchor := by
  obtain ⟨⟨ids, g⟩, hrun⟩ := Option.isSome_iff_exists.1 (show (addXsdTriple "int").isSome by decide +kernel)
  refine ⟨ids, g, hrun, ?_⟩
  have hfacts : (addXsdTriple "int").map (fun r => (r.2.nodes.size, decide (r.2.literalNodes = []),
      (List.range 4).all (fun id => decide (XsdType.ofInt32 (r.2.propOf id).type.toNat ≠ some .boolean)),
      r.2.edgesInUse.map (·.secondNodeId))) = some (4, false, true, [3]) := by
    decide +kernel
  have hobject : (addXsdTriple "int").map (fun r =>
      ((TypedVariant.cmp exactLits (patternSPO r.2).heap .eq ((patternSPO r.2).wrapNode 3)
        ⟨.int, .inline 1⟩).toOption, r.2.meaning 3)) =
      some (some (some true), some (.literal (XsdType.xsdIri "int") (Codec.putLE 4 1))) := by
    decide +kernel
  rw [hrun] at hfacts hobject
  simp only [Option.map_some, Option.some.injEq, Prod.mk.injEq, decide_eq_false_iff_not, List.all_eq_true,
    List.mem_range, decide_eq_true_eq] at hfacts
  obtain ⟨hsize, hcache, hbool, hedges⟩ := hfacts
  simp only [Option.map_some, Option.some.injEq, Prod.mk.injEq] at hobject
  obtain ⟨hcmp, hmeaning⟩ := hobject
  have hrt := runtime_heapOf (opened_addTriples (by decide) (by decide) (by decide) hrun)
    fun id hid ht => absurd ht (hbool id (hsize ▸ hid))
  have hlookup {c : Sparql.Column String String} {v : TypedVariant}
      (hv : List.lookup c [(.var "o", ⟨.int, .inline 1⟩)] = some v) : v = ⟨.int, .inline 1⟩ := by
    have hmem := Assoc.mem_of_lookup hv
    simp only [List.mem_singleton, Prod.mk.injEq] at hmem
    exact hmem.2
  have hcompares : (patternSPO g).Compares (fun a => if a = 0 then some g else none) ⟨.int, .inline 1⟩ 3 := by
    refine ⟨some true, ?_, iff_of_true rfl ⟨_, rfl, hmeaning⟩⟩
    show TypedVariant.cmp exactLits (patternSPO g).heap .eq ((patternSPO g).wrapNode 3) ⟨.int, .inline 1⟩ = _
    cases hc : TypedVariant.cmp exactLits (patternSPO g).heap .eq ((patternSPO g).wrapNode 3) ⟨.int, .inline 1⟩ with
    | error e => rw [hc] at hcmp; cases hcmp
    | ok c => rw [hc] at hcmp; cases hcmp; rfl
  have hagree : (patternSPO g).Agrees (fun a => if a = 0 then some g else none)
      [(.var "o", ⟨.int, .inline 1⟩)] := by
    refine ⟨fun slot _ c v _ hv => ?_, fun c v _ hv e he _ => ?_⟩
    · cases hlookup hv
      refine ⟨nofun, .inl ⟨nofun, fun k _ _ => hcache⟩⟩
    · cases hlookup hv
      have hmem : e.secondNodeId ∈ g.edgesInUse.map (·.secondNodeId) := List.mem_map_of_mem he
      rw [hedges, List.mem_singleton] at hmem
      show (patternSPO g).Compares _ _ e.secondNodeId.toNat
      rw [hmem]
      exact hcompares
  refine lower_agrees hrt rfl (placed_addTriples (by decide) (by decide) (by decide) hrun) (fun c v hv => ?_) hagree
  cases hlookup hv
  exact .scalar nofun (by decide)

end GengoDB.TripleEmitter
