/-
The adjacency invariant of the graph store (`GengoDB.Graph`).

`view g n` reads the relationship list of the node `n` as an abstract doubly
linked list, and `linkRelToNode` / `unlinkRelFromNode` are shown to be
`Dll.pushFront` / `Dll.unlink` on the view of their own node and to leave the
lists of every other node alone (`OnlyList`). The second half is where the
two sides of a record matter: a record on the lists of two nodes keeps them
apart because each reads its own pair of links.

`WellFormed g L` is the invariant: `L n` are the relationships of `n`, in
list order — exactly the in-use ones incident to it. Every operation keeps
it, `removeNode`'s loop by induction over the list it empties.
-/
import GengoDB.Graph

namespace GengoDB.Graph

open Option RelEntry

open Function (update update_self update_of_ne)

variable {ν ρ : Type} {g g' g'' : Graph ν ρ} {n m r x v : Int} {l : List Int} {e : RelEntry ρ} {fuel fuel' : Nat}

/-- The relationship list of `n`: its header and the links of `n`'s side. -/
def view (g : Graph ν ρ) (n : Int) : Dll Int where
  head := (g.nodes n).firstRelId
  next := g.nextOf n
  prev := g.prevOf n

/-- `n` is the first or the second endpoint of `r`. -/
def Incident (g : Graph ν ρ) (r n : Int) : Prop :=
  (g.rels r).firstNodeId = n ∨ (g.rels r).secondNodeId = n

/-- `g'` is `g` but for the link fields and list headers. -/
structure SameShape (g g' : Graph ν ρ) : Prop where
  first : ∀ r, (g'.rels r).firstNodeId = (g.rels r).firstNodeId
  second : ∀ r, (g'.rels r).secondNodeId = (g.rels r).secondNodeId
  type : ∀ r, (g'.rels r).typeId = (g.rels r).typeId
  relUse : ∀ r, (g'.rels r).inUse = (g.rels r).inUse
  relPayload : ∀ r, (g'.rels r).payload = (g.rels r).payload
  nodeUse : ∀ n, (g'.nodes n).inUse = (g.nodes n).inUse
  nodePayload : ∀ n, (g'.nodes n).payload = (g.nodes n).payload
  relPool : g'.relPool = g.relPool
  nodePool : g'.nodePool = g.nodePool

/-- `g'` is `g` but for the links that make up the list of `n`. -/
structure OnlyList (n : Int) (g g' : Graph ν ρ) : Prop extends SameShape g g' where
  head : ∀ m, m ≠ n → (g'.nodes m).firstRelId = (g.nodes m).firstRelId
  links : ∀ m x, m ≠ n → g.Incident x m → g'.nextOf m x = g.nextOf m x ∧ g'.prevOf m x = g.prevOf m x

theorem SameShape.incident (h : SameShape g g') : g'.Incident r n ↔ g.Incident r n := by
  simp only [Incident, h.first, h.second]

theorem SameShape.trans (h : SameShape g g') (h' : SameShape g' g'') : SameShape g g'' where
  first r := (h'.first r).trans (h.first r)
  second r := (h'.second r).trans (h.second r)
  type r := (h'.type r).trans (h.type r)
  relUse r := (h'.relUse r).trans (h.relUse r)
  relPayload r := (h'.relPayload r).trans (h.relPayload r)
  nodeUse n := (h'.nodeUse n).trans (h.nodeUse n)
  nodePayload n := (h'.nodePayload n).trans (h.nodePayload n)
  relPool := h'.relPool.trans h.relPool
  nodePool := h'.nodePool.trans h.nodePool

theorem OnlyList.trans (h : OnlyList n g g') (h' : OnlyList n g' g'') : OnlyList n g g'' where
  toSameShape := h.toSameShape.trans h'.toSameShape
  head m hm := (h'.head m hm).trans (h.head m hm)
  links m x hm hx := by
    obtain ⟨hn, hp⟩ := h.links m x hm hx
    obtain ⟨hn', hp'⟩ := h'.links m x hm (h.incident.2 hx)
    exact ⟨hn'.trans hn, hp'.trans hp⟩

/-- The list of another node threads the same relationships. -/
theorem OnlyList.chain (h : OnlyList n g g') (hm : m ≠ n) (hl : Dll.Chain graphNone (g.view m) l)
    (hi : ∀ x ∈ l, g.Incident x m) : Dll.Chain graphNone (g'.view m) l :=
  hl.congr (h.head m hm) fun x hx => h.links m x hm (hi x hx)

/-! ## Record writes -/

/-- `e'` is `e` but for the links on the side of `n`. -/
structure OnlySide (n : Int) (e e' : RelEntry ρ) : Prop where
  first : e'.firstNodeId = e.firstNodeId
  second : e'.secondNodeId = e.secondNodeId
  type : e'.typeId = e.typeId
  inUse : e'.inUse = e.inUse
  payload : e'.payload = e.payload
  next : ∀ m, (e.firstNodeId = n ↔ e.firstNodeId ≠ m) → e'.nextOn m = e.nextOn m
  prev : ∀ m, (e.firstNodeId = n ↔ e.firstNodeId ≠ m) → e'.prevOn m = e.prevOn m

section

variable (e : RelEntry ρ) (n v : Int)

theorem onlySide_setNextOn : OnlySide n e (e.setNextOn n v) := by
  constructor <;> simp only [setNextOn, nextOn, prevOn] <;> intros <;>
    split <;> simp_all

theorem onlySide_setPrevOn : OnlySide n e (e.setPrevOn n v) := by
  constructor <;> simp only [setPrevOn, nextOn, prevOn] <;> intros <;>
    split <;> simp_all

theorem nextOn_setNextOn : (e.setNextOn n v).nextOn n = v := by
  unfold setNextOn nextOn; split <;> simp_all

theorem prevOn_setNextOn : (e.setNextOn n v).prevOn n = e.prevOn n := by
  unfold setNextOn prevOn; split <;> simp_all

theorem nextOn_setPrevOn : (e.setPrevOn n v).nextOn n = e.nextOn n := by
  unfold setPrevOn nextOn; split <;> simp_all

theorem prevOn_setPrevOn : (e.setPrevOn n v).prevOn n = v := by
  unfold setPrevOn prevOn; split <;> simp_all

end

theorem view_setRel : (g.setRel r e).view n =
    { g.view n with next := update (g.view n).next r (e.nextOn n)
                    prev := update (g.view n).prev r (e.prevOn n) } := by
  ext x
  · rfl
  all_goals by_cases hx : x = r <;> simp [view, nextOf, prevOf, setRel, hx]

theorem view_setNext : (g.setNext n r v).view n = { g.view n with next := update (g.view n).next r v } := by
  have hp : update (g.view n).prev r ((g.rels r).prevOn n) = (g.view n).prev := Function.update_eq_self r _
  rw [setNext, view_setRel, nextOn_setNextOn, prevOn_setNextOn, hp]

theorem view_setPrev : (g.setPrev n r v).view n = { g.view n with prev := update (g.view n).prev r v } := by
  have hn : update (g.view n).next r ((g.rels r).nextOn n) = (g.view n).next := Function.update_eq_self r _
  rw [setPrev, view_setRel, nextOn_setPrevOn, prevOn_setPrevOn, hn]

theorem view_setFirstRel : (g.setFirstRel n v).view n = { g.view n with head := v } := by
  ext x
  · simp [view, setFirstRel, setNode]
  all_goals rfl

/-- A write to the links of one side of an incident record. -/
theorem onlyList_setRel (hr : g.Incident r n) (he : OnlySide n (g.rels r) e) : OnlyList n g (g.setRel r e) := by
  have hfield : ∀ {β : Type} (f : RelEntry ρ → β), f e = f (g.rels r) →
      ∀ x, f ((g.setRel r e).rels x) = f (g.rels x) := by
    intro β f hf x
    by_cases hx : x = r
    · subst hx; simpa [setRel] using hf
    · simp [setRel, hx]
  refine ⟨⟨hfield _ he.first, hfield _ he.second, hfield _ he.type, hfield _ he.inUse,
    hfield _ he.payload, fun _ => rfl, fun _ => rfl, rfl, rfl⟩, fun _ _ => rfl, ?_⟩
  intro m x hm hx
  by_cases hxr : x = r
  · subst hxr
    -- `m` and `n` are the two endpoints of the record, on opposite sides.
    have hside : (g.rels x).firstNodeId = n ↔ (g.rels x).firstNodeId ≠ m := by
      rcases hr with hr | hr <;> rcases hx with hx | hx <;> constructor <;> intro h <;> omega
    simpa [nextOf, prevOf, setRel] using And.intro (he.next m hside) (he.prev m hside)
  · simp [nextOf, prevOf, setRel, hxr]

theorem onlyList_setFirstRel (v : Int) : OnlyList n g (g.setFirstRel n v) := by
  have hfield : ∀ {β : Type} (f : NodeEntry ν → β), f { g.nodes n with firstRelId := v } = f (g.nodes n) →
      ∀ x, f ((g.setFirstRel n v).nodes x) = f (g.nodes x) := by
    intro β f hf x
    by_cases hx : x = n
    · subst hx; simpa [setFirstRel, setNode] using hf
    · simp [setFirstRel, setNode, hx]
  refine ⟨⟨fun _ => rfl, fun _ => rfl, fun _ => rfl, fun _ => rfl, fun _ => rfl,
    hfield _ rfl, hfield _ rfl, rfl, rfl⟩, fun m hm => ?_, fun _ _ _ _ => ⟨rfl, rfl⟩⟩
  simp [setFirstRel, setNode, hm]

/-! ## Linking and unlinking -/

theorem onlySide_linkEntry (e : RelEntry ρ) (oldHead : Int) :
    OnlySide n e (linkEntry e oldHead (decide (e.firstNodeId = n))) := by
  constructor <;> simp only [linkEntry, nextOn, prevOn] <;> intros <;>
    split <;> simp_all

theorem nextOn_linkEntry (e : RelEntry ρ) (oldHead : Int) :
    (linkEntry e oldHead (decide (e.firstNodeId = n))).nextOn n = oldHead := by
  unfold linkEntry nextOn; split <;> simp_all

theorem prevOn_linkEntry (e : RelEntry ρ) (oldHead : Int) :
    (linkEntry e oldHead (decide (e.firstNodeId = n))).prevOn n = graphNone := by
  unfold linkEntry prevOn; split <;> simp_all

/-- Linking pushes the relationship in front of the node's list. -/
theorem view_linkRelToNode : (g.linkRelToNode r n (decide ((g.rels r).firstNodeId = n))).view n =
    (g.view n).pushFront graphNone r := by
  unfold linkRelToNode
  have hh : (g.nodes n).firstRelId = (g.view n).head := rfl
  by_cases h : (g.view n).head = graphNone
  · simp [hh, h, view_setFirstRel, view_setRel, nextOn_linkEntry, prevOn_linkEntry, Dll.pushFront]
  · simp [hh, h, view_setFirstRel, view_setPrev, view_setRel, nextOn_linkEntry, prevOn_linkEntry, Dll.pushFront]

theorem onlyList_linkRelToNode (hr : g.Incident r n)
    (hh : (g.nodes n).firstRelId ≠ graphNone → g.Incident (g.nodes n).firstRelId n) :
    OnlyList n g (g.linkRelToNode r n (decide ((g.rels r).firstNodeId = n))) := by
  have h1 := onlyList_setRel hr (onlySide_linkEntry (g.rels r) (g.nodes n).firstRelId)
  refine OnlyList.trans ?_ (onlyList_setFirstRel r)
  split
  · next h => exact h1.trans (onlyList_setRel (h1.incident.2 (hh h)) (onlySide_setPrevOn _ _ _))
  · exact h1

/-- Unlinking takes the relationship out of the node's list. -/
theorem view_unlinkRelFromNode : (g.unlinkRelFromNode r n).view n = (g.view n).unlink graphNone r := by
  unfold unlinkRelFromNode
  have hp : g.prevOf n r = (g.view n).prev r := rfl
  have hn : g.nextOf n r = (g.view n).next r := rfl
  by_cases h : (g.view n).prev r = graphNone <;> by_cases h' : (g.view n).next r = graphNone <;>
    simp [hp, hn, h, h', view_setFirstRel, view_setNext, view_setPrev, Dll.unlink]

theorem onlyList_unlinkRelFromNode (hp : g.prevOf n r ≠ graphNone → g.Incident (g.prevOf n r) n)
    (hn : g.nextOf n r ≠ graphNone → g.Incident (g.nextOf n r) n) : OnlyList n g (g.unlinkRelFromNode r n) := by
  unfold unlinkRelFromNode
  have h1 : OnlyList n g (if g.prevOf n r ≠ graphNone then g.setNext n (g.prevOf n r) (g.nextOf n r)
      else g.setFirstRel n (g.nextOf n r)) := by
    split
    · next h => exact onlyList_setRel (hp h) (onlySide_setNextOn _ _ _)
    · exact onlyList_setFirstRel _
  simp only
  split
  · next h => exact h1.trans (onlyList_setRel (h1.incident.2 (hn h)) (onlySide_setPrevOn _ _ _))
  · exact h1

/-! ## The lists of all nodes at once -/

/-- For every node in use, `L n` is what its list threads. -/
structure Lists (g : Graph ν ρ) (L : Int → List Int) : Prop where
  chain : ∀ n, (g.nodes n).inUse = true → Dll.Chain graphNone (g.view n) (L n)
  nodup : ∀ n, (g.nodes n).inUse = true → (L n).Nodup
  incident : ∀ n, (g.nodes n).inUse = true → ∀ r ∈ L n, g.Incident r n

variable {L : Int → List Int}

/-- One node's list was replaced; the others are framed. -/
theorem Lists.replace (h : g.Lists L) (hg : OnlyList n g g') (hl : Dll.Chain graphNone (g'.view n) l) (hnd : l.Nodup)
    (hi : ∀ r ∈ l, g.Incident r n) : g'.Lists (update L n l) := by
  refine ⟨?_, ?_, ?_⟩ <;> intro m hm <;> rw [hg.nodeUse] at hm <;> by_cases hmn : m = n
  · subst hmn; simpa using hl
  · simpa [hmn] using hg.chain hmn (h.chain m hm) (h.incident m hm)
  · subst hmn; simpa using hnd
  · simpa [hmn] using h.nodup m hm
  · subst hmn; simpa [hg.incident] using hi
  · simpa [hmn, hg.incident] using h.incident m hm

theorem Lists.head_incident (h : g.Lists L) (hn : (g.nodes n).inUse)
    (hh : (g.nodes n).firstRelId ≠ graphNone) : g.Incident (g.nodes n).firstRelId n :=
  h.incident n hn _ ((h.chain n hn).head_mem hh)

theorem Lists.link (h : g.Lists L) (hn : (g.nodes n).inUse) (hr : g.Incident r n)
    (hr0 : r ≠ graphNone) (hrl : r ∉ L n) : OnlyList n g (g.linkRelToNode r n (decide ((g.rels r).firstNodeId = n))) ∧
      (g.linkRelToNode r n (decide ((g.rels r).firstNodeId = n))).Lists (update L n (r :: L n)) := by
  have ho := onlyList_linkRelToNode hr (h.head_incident hn)
  refine ⟨ho, h.replace ho ?_ (List.nodup_cons.2 ⟨hrl, h.nodup n hn⟩) ?_⟩
  · rw [view_linkRelToNode]
    exact (h.chain n hn).pushFront (h.nodup n hn) hr0 hrl
  · exact List.forall_mem_cons.2 ⟨hr, h.incident n hn⟩

theorem Lists.unlink (h : g.Lists L) (hn : (g.nodes n).inUse) (hrl : r ∈ L n) : OnlyList n g (g.unlinkRelFromNode r n) ∧
      (g.unlinkRelFromNode r n).Lists (update L n ((L n).erase r)) := by
  have hc := h.chain n hn
  have hnd := h.nodup n hn
  have ho : OnlyList n g (g.unlinkRelFromNode r n) := onlyList_unlinkRelFromNode
    (fun hp => h.incident n hn _ (hc.prev_mem hrl hp)) (fun hx => h.incident n hn _ (hc.next_mem hrl hx))
  refine ⟨ho, h.replace ho ?_ (hnd.erase r) fun x hx => h.incident n hn x (List.mem_of_mem_erase hx)⟩
  obtain ⟨l1, l2, hl⟩ := List.append_of_mem hrl
  rw [hl] at hc hnd ⊢
  have hr1 : r ∉ l1 := fun hm => (List.disjoint_of_nodup_append hnd) hm (by simp)
  rw [view_unlinkRelFromNode, List.erase_append_right _ hr1, List.erase_cons_head]
  exact hc.unlink hnd

/-! ## The invariant -/

/-- **Adjacency invariant.** The pools track the in-use records, in-use
relationships end in in-use nodes, and `L n` are the in-use relationships
incident to `n`, threaded by `n`'s list in that order. -/
structure WellFormed (g : Graph ν ρ) (L : Int → List Int) : Prop extends g.Lists L where
  mem : ∀ n, (g.nodes n).inUse = true → ∀ r, r ∈ L n ↔ (g.rels r).inUse = true ∧ g.Incident r n
  endpoint : ∀ r n, (g.rels r).inUse = true → g.Incident r n → (g.nodes n).inUse = true
  relPool : g.relPool.Tracks fun r => (g.rels r).inUse
  nodePool : g.nodePool.Tracks fun n => (g.nodes n).inUse

theorem Lists.congr {L' : Int → List Int} (h : g.Lists L) (hL : ∀ n, (g.nodes n).inUse → L' n = L n) : g.Lists L' := by
  refine ⟨?_, ?_, ?_⟩ <;> intro n hn <;> rw [hL n hn]
  · exact h.chain n hn
  · exact h.nodup n hn
  · exact h.incident n hn

theorem WellFormed.ne_none (h : g.WellFormed L) (hr : (g.rels r).inUse) : r ≠ graphNone := by
  have := (h.relPool.bounds hr).1
  exact fun he => by simp [he] at this

theorem WellFormed.create [Zero ν] [Zero ρ] {nodeCapacity relCapacity : Int} (hn : 0 ≤ nodeCapacity)
    (hr : 0 ≤ relCapacity) : (create nodeCapacity relCapacity : Graph ν ρ).WellFormed fun _ => [] where
  chain _ h := by simp [Graph.create, NodeEntry.zero] at h
  nodup _ _ := .nil
  incident _ _ _ h := by simp at h
  mem _ h := by simp [Graph.create, NodeEntry.zero] at h
  endpoint _ _ h := by simp [Graph.create, zero] at h
  relPool := .empty hr
  nodePool := .empty hn

variable {id : Int}

/-- A write to a node record no relationship in use touches. -/
theorem WellFormed.setNode {e : NodeEntry ν} {q : Pool} (h : g.WellFormed L)
    (hno : ∀ r, (g.rels r).inUse → ¬ g.Incident r id) (he : e.firstRelId = graphNone)
    (hq : q.Tracks (update (fun n => (g.nodes n).inUse) id e.inUse)) :
    WellFormed { g with nodes := update g.nodes id e, nodePool := q } (update L id []) := by
  have hu : ∀ n, n ≠ id → (update g.nodes id e n).inUse → (g.nodes n).inUse :=
    fun n hn h => by rwa [update_of_ne hn] at h
  refine ⟨⟨fun n hn => ?_, fun n hn => ?_, fun n hn => ?_⟩, fun n hn => ?_, fun r n hr hi => ?_,
    h.relPool, hq.congr fun n => ?_⟩
  · rcases eq_or_ne n id with rfl | hne
    · exact ⟨by simp [view, he], by simp [Dll.Linked]⟩
    · rw [update_of_ne hne]
      exact (h.chain n (hu n hne hn)).congr (by simp [view, hne]) fun _ _ => ⟨rfl, rfl⟩
  · rcases eq_or_ne n id with rfl | hne
    · simp
    · rw [update_of_ne hne]; exact h.nodup n (hu n hne hn)
  · rcases eq_or_ne n id with rfl | hne
    · simp
    · rw [update_of_ne hne]; exact h.incident n (hu n hne hn)
  · rcases eq_or_ne n id with rfl | hne
    · simp [update_self]; exact hno
    · rw [update_of_ne hne]; exact h.mem n (hu n hne hn)
  · have hne : n ≠ id := fun hn => hno r hr (hn ▸ hi)
    simpa [hne] using h.endpoint r n hr hi
  · rcases eq_or_ne n id with rfl | hne
    · simp
    · simp [hne]

/-! ## Adding -/

theorem addNode_eq_some {p : ν} : g.addNode p = some (id, g') ↔ ∃ q, g.nodePool.alloc = some (id, q) ∧
      g' = { g with nodes := update g.nodes id ⟨graphNone, true, p⟩, nodePool := q } := by
  rw [← Pool.alloc_map_eq_some (α := Graph ν ρ) fun i q =>
    { g with nodes := update g.nodes i ⟨graphNone, true, p⟩, nodePool := q }, addNode, allocNode]
  cases g.nodePool.alloc <;> rfl

theorem addNode_isSome (h : g.nodePool.HasRoom) (p : ν) : ∃ id g', g.addNode p = some (id, g') := by
  obtain ⟨⟨id, q⟩, hq⟩ := Pool.alloc_isSome h
  exact ⟨id, _, addNode_eq_some.2 ⟨q, hq, rfl⟩⟩

theorem WellFormed.addNode {p : ν} (h : g.WellFormed L) (ha : g.addNode p = some (id, g')) :
    g'.WellFormed (update L id []) := by
  obtain ⟨q, hq, rfl⟩ := addNode_eq_some.1 ha
  obtain ⟨hfree, -, -, htr⟩ := h.nodePool.alloc hq
  refine h.setNode (fun r hr hi => ?_) rfl htr
  -- Nothing in use points at an unused node.
  simp [h.endpoint r id hr hi] at hfree

/-- The relationship table with the record `addRelationship` starts from. -/
def withFresh (g : Graph ν ρ) (id : Int) (q : Pool) (e : RelEntry ρ) : Graph ν ρ :=
  { g with rels := update g.rels id e, relPool := q }

/-- What `addRelationship` links: the fresh record, on the lists of both ends. -/
def linkEnds (g : Graph ν ρ) (id src dst : Int) : Graph ν ρ :=
  let g := g.linkRelToNode id src true
  if src ≠ dst then g.linkRelToNode id dst false else g

theorem addRelationship_eq_some {src dst : Int} {type : UInt32} {p : ρ} :
    g.addRelationship src dst type p = some (id, g') ↔ ∃ q, g.relPool.alloc = some (id, q) ∧
        g' = (g.withFresh id q (freshRel src dst type p)).linkEnds id src dst := by
  rw [← Pool.alloc_map_eq_some fun i q => (g.withFresh i q (freshRel src dst type p)).linkEnds i src dst,
    addRelationship, allocRel]
  cases g.relPool.alloc <;> rfl

theorem addRelationship_isSome (h : g.relPool.HasRoom) (src dst : Int) (type : UInt32) (p : ρ) :
    ∃ id g', g.addRelationship src dst type p = some (id, g') := by
  obtain ⟨⟨id, q⟩, hq⟩ := Pool.alloc_isSome h
  exact ⟨id, _, addRelationship_eq_some.2 ⟨q, hq, rfl⟩⟩

/-- Linking an unlisted record to both its ends puts it in front of each list,
once for a self-loop. -/
theorem Lists.linkEnds {src dst : Int} (h : g.Lists L) (hid : id ≠ graphNone)
    (h1 : (g.rels id).firstNodeId = src) (h2 : (g.rels id).secondNodeId = dst)
    (hs : (g.nodes src).inUse) (hd : (g.nodes dst).inUse) (hnew : ∀ n, (g.nodes n).inUse → id ∉ L n) :
    SameShape g (g.linkEnds id src dst) ∧
      (g.linkEnds id src dst).Lists fun n => if n = src ∨ n = dst then id :: L n else L n := by
  obtain ⟨ho, hl⟩ := h.link hs (.inl h1) hid (hnew src hs)
  simp only [h1, decide_true] at ho hl
  unfold Graph.linkEnds
  by_cases hsd : src = dst
  · subst hsd
    simp only [ne_eq]
    refine ⟨ho.toSameShape, hl.congr fun n _ => ?_⟩
    by_cases hn : n = src <;> simp [hn]
  · simp only [ne_eq, hsd]
    have hf : decide (((g.linkRelToNode id src true).rels id).firstNodeId = dst) = false := by
      rw [ho.first, h1]; simpa using hsd
    obtain ⟨ho', hl'⟩ := hl.link (by rw [ho.nodeUse]; exact hd)
      (ho.incident.2 (.inr h2)) hid (by rw [update_of_ne (Ne.symm hsd)]; exact hnew dst hd)
    rw [hf] at ho' hl'
    refine ⟨ho.toSameShape.trans ho'.toSameShape, hl'.congr fun n _ => ?_⟩
    by_cases hn : n = dst
    · subst hn; simp [Ne.symm hsd]
    · by_cases hn' : n = src
      · subst hn'; simp [hn]
      · simp [hn, hn']

/-- A record no list threads may be rewritten. -/
theorem Lists.setRel {q : Pool} (h : g.Lists L) (hnew : ∀ n, (g.nodes n).inUse → id ∉ L n) :
    (g.withFresh id q e).Lists L := by
  have hne : ∀ n, (g.nodes n).inUse → ∀ x ∈ L n, x ≠ id :=
    fun n hn x hx he => hnew n hn (he ▸ hx)
  refine ⟨fun n hn => (h.chain n hn).congr rfl fun x hx => ?_, h.nodup, fun n hn x hx => ?_⟩
  · simp [view, nextOf, prevOf, withFresh, hne n hn x hx]
  · simpa [Incident, withFresh, hne n hn x hx] using h.incident n hn x hx

theorem WellFormed.addRelationship {src dst : Int} {type : UInt32} {p : ρ} (h : g.WellFormed L)
    (hs : (g.nodes src).inUse) (hd : (g.nodes dst).inUse) (ha : g.addRelationship src dst type p = some (id, g')) :
    (∃ q, g.relPool.alloc = some (id, q) ∧ SameShape (g.withFresh id q (freshRel src dst type p)) g') ∧
      g'.WellFormed fun n => if n = src ∨ n = dst then id :: L n else L n := by
  obtain ⟨q, hq, rfl⟩ := addRelationship_eq_some.1 ha
  obtain ⟨hfree, hid0, -, htr⟩ := h.relPool.alloc hq
  have hid : id ≠ graphNone := fun he => by simp [he] at hid0
  have hnew : ∀ n, (g.nodes n).inUse → id ∉ L n := fun n hn hm => by
    simp [((h.mem n hn id).1 hm).1] at hfree
  set g0 := g.withFresh id q (freshRel src dst type p) with hg0
  have hrec : g0.rels id = freshRel src dst type p := by simp [g0, withFresh]
  have hrels : ∀ x, x ≠ id → g0.rels x = g.rels x := fun x hx => by simp [g0, withFresh, hx]
  obtain ⟨hshape, hl⟩ := Lists.linkEnds (h.toLists.setRel hnew) hid (by rw [hrec]; rfl)
    (by rw [hrec]; rfl) hs hd hnew
  rw [← hg0] at hshape hl
  have hinc : ∀ n, g0.Incident id n ↔ n = src ∨ n = dst := fun n => by
    simp only [Incident, hrec, freshRel]; constructor <;> rintro (rfl | rfl) <;> simp
  refine ⟨⟨q, hq, hshape⟩, hl, fun n hn r => ?_, fun r n hr hi => ?_, ?_, ?_⟩
  · rw [hshape.nodeUse] at hn
    rw [hshape.relUse, hshape.incident]
    have hm := h.mem n hn r
    rcases eq_or_ne r id with rfl | hr
    · split <;> simp_all [freshRel]
    · have hi : g0.Incident r n ↔ g.Incident r n := by simp only [Incident, hrels r hr]
      rw [hrels r hr, hi, ← hm]
      split <;> simp [hr]
  · rw [hshape.relUse] at hr
    rw [hshape.incident] at hi
    rw [hshape.nodeUse]
    rcases eq_or_ne r id with rfl | hne
    · rcases (hinc n).1 hi with rfl | rfl
      · exact hs
      · exact hd
    · rw [hrels r hne] at hr
      exact h.endpoint r n hr (by simpa only [Incident, hrels r hne] using hi)
  · rw [hshape.relPool]
    refine htr.congr fun r => ?_
    rw [hshape.relUse]
    rcases eq_or_ne r id with rfl | hne
    · rw [hrec]; simp [freshRel]
    · rw [hrels r hne]; simp [hne]
  · rw [hshape.nodePool]
    exact h.nodePool.congr fun n => hshape.nodeUse n

/-! ## Removing -/

/-- Both unlinks of `removeRelationship` together take the record off every list. -/
theorem WellFormed.unlinkRel (h : g.WellFormed L) (hid : (g.rels id).inUse) :
    SameShape g (g.unlinkRel id) ∧ (g.unlinkRel id).Lists fun n => (L n).erase id := by
  have hm : ∀ n, g.Incident id n → (g.nodes n).inUse ∧ id ∈ L n := fun n hi =>
    ⟨h.endpoint id n hid hi, (h.mem n (h.endpoint id n hid hi) id).2 ⟨hid, hi⟩⟩
  have hoff : ∀ n, (g.nodes n).inUse → ¬ g.Incident id n → (L n).erase id = L n := fun n hn hi =>
    List.erase_of_not_mem fun hx => hi ((h.mem n hn id).1 hx).2
  obtain ⟨hu1, hm1⟩ := hm (g.rels id).firstNodeId (.inl rfl)
  obtain ⟨hu2, hm2⟩ := hm (g.rels id).secondNodeId (.inr rfl)
  obtain ⟨ho, hl⟩ := h.toLists.unlink hu1 hm1
  unfold Graph.unlinkRel
  by_cases hsd : (g.rels id).firstNodeId = (g.rels id).secondNodeId
  · simp only [hsd, ne_eq] at ho hl ⊢
    refine ⟨ho.toSameShape, hl.congr fun n hn => ?_⟩
    rw [ho.nodeUse] at hn
    rcases eq_or_ne n (g.rels id).secondNodeId with rfl | hne
    · simp
    · rw [update_of_ne hne, hoff n hn]
      rintro (hi | hi) <;> [exact hne (hi.symm.trans hsd); exact hne hi.symm]
  · simp only [ne_eq, hsd]
    obtain ⟨ho', hl'⟩ := hl.unlink (by rw [ho.nodeUse]; exact hu2)
      (by rw [update_of_ne (Ne.symm hsd)]; exact hm2)
    refine ⟨ho.toSameShape.trans ho'.toSameShape, hl'.congr fun n hn => ?_⟩
    rw [ho'.nodeUse, ho.nodeUse] at hn
    rcases eq_or_ne n (g.rels id).secondNodeId with rfl | hne2
    · simp [Ne.symm hsd]
    · rcases eq_or_ne n (g.rels id).firstNodeId with rfl | hne1
      · simp [hne2]
      · rw [update_of_ne hne2, update_of_ne hne1, hoff n hn]
        rintro (hi | hi) <;> [exact hne1 hi.symm; exact hne2 hi.symm]

theorem view_releaseRel : (g.releaseRel id).view n = g.view n := by
  ext x
  · rfl
  all_goals
    rcases eq_or_ne x id with rfl | hx
    · simp [view, nextOf, prevOf, releaseRel, setRel, nextOn, prevOn]
    · simp [view, nextOf, prevOf, releaseRel, setRel, hx]

theorem removeRelationship_eq_some : g.removeRelationship id = some g' ↔
    (g.rels id).inUse ∧ g' = (g.unlinkRel id).releaseRel id := by
  unfold removeRelationship
  split
  · next h => simp [h, eq_comm]
  · next h => simp [h]

/-- What `removeRelationship` leaves of the records: `id` is free, the rest
keep everything but their links. -/
structure Removed (id : Int) (g g' : Graph ν ρ) : Prop where
  first : ∀ r, (g'.rels r).firstNodeId = (g.rels r).firstNodeId
  second : ∀ r, (g'.rels r).secondNodeId = (g.rels r).secondNodeId
  relUse : ∀ r, (g'.rels r).inUse = (if r = id then false else (g.rels r).inUse)
  relPayload : ∀ r, (g'.rels r).payload = (g.rels r).payload
  nodeUse : ∀ n, (g'.nodes n).inUse = (g.nodes n).inUse
  nodePayload : ∀ n, (g'.nodes n).payload = (g.nodes n).payload
  relPool : g'.relPool = g.relPool.release id
  nodePool : g'.nodePool = g.nodePool

theorem SameShape.removed (h : SameShape g g') (id : Int) : Removed id g (g'.releaseRel id) := by
  have hfield : ∀ {β : Type} (f : RelEntry ρ → β), (∀ e : RelEntry ρ, f { e with inUse := false } = f e) →
      ∀ r, f ((g'.releaseRel id).rels r) = f (g'.rels r) := by
    intro β f hf r
    rcases eq_or_ne r id with rfl | hr
    · simpa [releaseRel, setRel] using hf (g'.rels r)
    · simp [releaseRel, setRel, hr]
  refine ⟨fun r => (hfield _ (fun _ => rfl) r).trans (h.first r),
    fun r => (hfield _ (fun _ => rfl) r).trans (h.second r), fun r => ?_,
    fun r => (hfield _ (fun _ => rfl) r).trans (h.relPayload r), h.nodeUse, h.nodePayload,
    congrArg (Pool.release · id) h.relPool, h.nodePool⟩
  split
  · next he => subst he; simp [releaseRel, setRel]
  · next he => simpa [releaseRel, setRel, he] using h.relUse r

theorem WellFormed.removeRelationship (h : g.WellFormed L) (hr : g.removeRelationship id = some g') :
    Removed id g g' ∧ g'.WellFormed fun n => (L n).erase id := by
  obtain ⟨hid, rfl⟩ := removeRelationship_eq_some.1 hr
  obtain ⟨hshape, hl⟩ := h.unlinkRel hid
  have hrem := hshape.removed id
  set g1 := (g.unlinkRel id).releaseRel id with hg1
  have hinc : ∀ r n, g1.Incident r n ↔ g.Incident r n := fun r n => by
    simp only [Incident, hrem.first, hrem.second]
  refine ⟨hrem, ⟨fun n hn => ?_, fun n hn => ?_, fun n hn r hr => ?_⟩, fun n hn r => ?_, fun r n hr hi => ?_,
    ?_, ?_⟩
  · rw [view_releaseRel]
    exact hl.chain n (by rw [hshape.nodeUse, ← hrem.nodeUse]; exact hn)
  · rw [hrem.nodeUse] at hn
    exact (h.nodup n hn).erase id
  · rw [hrem.nodeUse] at hn
    exact (hinc r n).2 (h.incident n hn r (List.mem_of_mem_erase hr))
  · rw [hrem.nodeUse] at hn
    rw [(h.nodup n hn).mem_erase_iff, h.mem n hn r, hinc, hrem.relUse]
    by_cases hr : r = id <;> simp [hr]
  · rw [hrem.relUse] at hr
    rw [hinc] at hi
    rw [hrem.nodeUse]
    split at hr
    · cases hr
    · exact h.endpoint r n hr hi
  · rw [hrem.relPool]
    refine (h.relPool.release hid).congr fun r => ?_
    rw [hrem.relUse]
    by_cases hr : r = id <;> simp [hr]
  · rw [hrem.nodePool]
    exact h.nodePool.congr hrem.nodeUse

/-- What removing the relationships `l` leaves of the records. -/
structure Cleared (l : List Int) (g g' : Graph ν ρ) : Prop where
  relUse : ∀ r, (g'.rels r).inUse = true ↔ (g.rels r).inUse = true ∧ r ∉ l
  relPayload : ∀ r, (g'.rels r).payload = (g.rels r).payload
  nodeUse : ∀ n, (g'.nodes n).inUse = (g.nodes n).inUse
  nodePayload : ∀ n, (g'.nodes n).payload = (g.nodes n).payload
  nodePool : g'.nodePool = g.nodePool
  relCap : g'.relPool.cap = g.relPool.cap

theorem Removed.cleared (h : Removed r g g') (h' : Cleared l g' g'') : Cleared (r :: l) g g'' where
  relUse x := by
    rw [h'.relUse, h.relUse]
    by_cases hx : x = r <;> simp [hx]
  relPayload x := (h'.relPayload x).trans (h.relPayload x)
  nodeUse n := (h'.nodeUse n).trans (h.nodeUse n)
  nodePayload n := (h'.nodePayload n).trans (h.nodePayload n)
  nodePool := h'.nodePool.trans h.nodePool
  relCap := h'.relCap.trans (by rw [h.relPool]; rfl)

variable {node : Int}

theorem removeRelsFrom_none : removeRelsFrom node fuel g graphNone = some g := by
  simp [removeRelsFrom, Loop.run_done]

theorem removeRelsFrom_step {cur : Int} (hc : cur ≠ graphNone) (hr : g.removeRelationship cur = some g') :
    removeRelsFrom node (fuel + 1) g cur = removeRelsFrom node fuel g' (g.nextOf node cur) := by
  unfold removeRelsFrom
  rw [Loop.run_step (by simpa using hc), hr]
  rfl

/-- **`removeNode`'s loop** takes the relationships off the list one by one;
it ends after as many rounds as the list is long. -/
theorem WellFormed.removeRelsFrom : ∀ {l : List Int} {fuel : Nat} {g : Graph ν ρ} {L : Int → List Int},
    g.WellFormed L → (g.nodes node).inUse → L node = l → l.length ≤ fuel →
    ∃ g' L', removeRelsFrom node fuel g (Dll.firstOr graphNone l) = some g' ∧ g'.WellFormed L' ∧
      L' node = [] ∧ Cleared l g g'
  | [], 0, g, L, h, _, hl, _ | [], _ + 1, g, L, h, _, hl, _ => by
    exact ⟨g, L, removeRelsFrom_none, h, hl,
      ⟨by simp, fun _ => rfl, fun _ => rfl, fun _ => rfl, rfl, rfl⟩⟩
  | r :: l, fuel + 1, g, L, h, hn, hl, hf => by
    have hc := h.chain node hn
    rw [hl] at hc
    have hr : (g.rels r).inUse := ((h.mem node hn r).1 (by simp [hl])).1
    obtain ⟨g1, hg1⟩ : ∃ g1, g.removeRelationship r = some g1 := ⟨_, removeRelationship_eq_some.2 ⟨hr, rfl⟩⟩
    obtain ⟨hrem, h1⟩ := h.removeRelationship hg1
    -- The successor was read before the record was unlinked.
    have hnext : g.nextOf node r = Dll.firstOr graphNone l := (hc.2.neighbours []).2
    have hf' : l.length ≤ fuel := by simpa using hf
    obtain ⟨g', L', hrun, h', hnil, hclr⟩ := h1.removeRelsFrom
      (by rw [hrem.nodeUse]; exact hn) (by rw [hl, List.erase_cons_head]) hf'
    refine ⟨g', L', ?_, h', hnil, hrem.cleared hclr⟩
    rw [Dll.firstOr_cons, removeRelsFrom_step (h.ne_none hr) hg1, hnext]
    exact hrun

/-- **`removeNode`** ends, and leaves a well-formed graph without the node and
its relationships. -/
theorem WellFormed.removeNode (h : g.WellFormed L) (hid : (g.nodes id).inUse) (hf : (L id).length ≤ fuel) :
    ∃ g1 L1, Cleared (L id) g g1 ∧ g.removeNode fuel id = some (g1.releaseNode id) ∧
      (g1.releaseNode id).WellFormed L1 := by
  obtain ⟨g1, L1, hrun, h1, hnil, hclr⟩ := h.removeRelsFrom hid rfl hf
  have hid1 : (g1.nodes id).inUse := (hclr.nodeUse id).trans hid
  rw [← (h.chain id hid).1] at hrun
  refine ⟨g1, update L1 id [], hclr, ?_, ?_⟩
  · simp only [Graph.removeNode, hid]
    rw [show (g.nodes id).firstRelId = (g.view id).head from rfl, hrun]
    rfl
  · refine h1.setNode (fun r hr hi => ?_) rfl (h1.nodePool.release hid1)
    have := (h1.mem id hid1 r).2 ⟨hr, hi⟩
    simp [hnil] at this

/-! ## Payload writes and fuel -/

/-- `g'` is `g` but for the payloads. -/
structure OnlyPayload (g g' : Graph ν ρ) : Prop where
  node : ∀ n, { g'.nodes n with payload := (g.nodes n).payload } = g.nodes n
  rel : ∀ r, { g'.rels r with payload := (g.rels r).payload } = g.rels r
  relPool : g'.relPool = g.relPool
  nodePool : g'.nodePool = g.nodePool

theorem OnlyPayload.refl (g : Graph ν ρ) : OnlyPayload g g := ⟨fun _ => rfl, fun _ => rfl, rfl, rfl⟩

theorem OnlyPayload.trans (h : OnlyPayload g g') (h' : OnlyPayload g' g'') : OnlyPayload g g'' where
  node n := by rw [← h.node n, ← h'.node n]
  rel r := by rw [← h.rel r, ← h'.rel r]
  relPool := h'.relPool.trans h.relPool
  nodePool := h'.nodePool.trans h.nodePool

theorem OnlyPayload.setNode (g : Graph ν ρ) (id : Int) (p : ν) : OnlyPayload g (g.setNodePayload id p) := by
  refine ⟨fun n => ?_, fun _ => rfl, rfl, rfl⟩
  rcases eq_or_ne n id with rfl | hn
  · simp [setNodePayload, Graph.setNode]
  · simp [setNodePayload, Graph.setNode, hn]

theorem OnlyPayload.setRel (g : Graph ν ρ) (id : Int) (p : ρ) : OnlyPayload g (g.setRelPayload id p) := by
  refine ⟨fun _ => rfl, fun n => ?_, rfl, rfl⟩
  rcases eq_or_ne n id with rfl | hn
  · simp [setRelPayload, Graph.setRel]
  · simp [setRelPayload, Graph.setRel, hn]

section

variable (h : OnlyPayload g g')
include h

theorem OnlyPayload.nodeField {β : Type} (f : NodeEntry ν → β)
    (hf : ∀ e p, f { e with payload := p } = f e) (n : Int) : f (g'.nodes n) = f (g.nodes n) :=
  (hf _ _).symm.trans (congrArg f (h.node n))

theorem OnlyPayload.relField {β : Type} (f : RelEntry ρ → β)
    (hf : ∀ e p, f { e with payload := p } = f e) (r : Int) : f (g'.rels r) = f (g.rels r) :=
  (hf _ _).symm.trans (congrArg f (h.rel r))

theorem OnlyPayload.nodeUse (n : Int) : (g'.nodes n).inUse = (g.nodes n).inUse :=
  h.nodeField NodeEntry.inUse (fun _ _ => rfl) n

theorem OnlyPayload.relUse (r : Int) : (g'.rels r).inUse = (g.rels r).inUse :=
  h.relField inUse (fun _ _ => rfl) r

theorem OnlyPayload.view (n : Int) : g'.view n = g.view n := by
  ext x
  · exact h.nodeField NodeEntry.firstRelId (fun _ _ => rfl) n
  · exact h.relField (nextOn · n) (fun _ _ => rfl) x
  · exact h.relField (prevOn · n) (fun _ _ => rfl) x

end

theorem WellFormed.onlyPayload (h : g.WellFormed L) (hp : OnlyPayload g g') : g'.WellFormed L := by
  have hinc : ∀ r n, g'.Incident r n ↔ g.Incident r n := fun r n => by
    have h1 := hp.relField firstNodeId (fun _ _ => rfl) r
    have h2 := hp.relField secondNodeId (fun _ _ => rfl) r
    simp only [Incident, h1, h2]
  obtain ⟨⟨hc, hnd, hi⟩, hm, he, hrp, hnp⟩ := h
  refine ⟨⟨?_, ?_, ?_⟩, ?_, ?_, ?_, ?_⟩
  · simpa only [hp.nodeUse, hp.view] using hc
  · simpa only [hp.nodeUse] using hnd
  · simpa only [hp.nodeUse, hinc] using hi
  · simpa only [hp.nodeUse, hp.relUse, hinc] using hm
  · simpa only [hp.nodeUse, hp.relUse, hinc] using he
  · rw [hp.relPool]; exact hrp.congr hp.relUse
  · rw [hp.nodePool]; exact hnp.congr hp.nodeUse

theorem removeRelsFrom_mono {cur : Int} (hf : fuel ≤ fuel') (h : removeRelsFrom node fuel g cur = some g') :
    removeRelsFrom node fuel' g cur = some g' := by
  obtain ⟨s, hs, rfl⟩ := map_eq_some_iff.1 h
  exact map_eq_some_iff.2 ⟨s, Loop.run_mono (fun _ _ h => h) hf hs, rfl⟩

theorem removeNode_mono (hf : fuel ≤ fuel') (h : g.removeNode fuel id = some g') : g.removeNode fuel' id = some g' := by
  unfold Graph.removeNode at h ⊢
  split at h
  · next hu =>
    rw [if_pos hu]
    simp only [bind_eq_bind, bind_eq_some_iff] at h ⊢
    obtain ⟨g1, h1, h2⟩ := h
    exact ⟨g1, removeRelsFrom_mono hf h1, h2⟩
  · cases h

/-! ## Runs -/

theorem call_mono {c : Call ν ρ} (hf : fuel ≤ fuel') (h : g.call fuel c = some g') : g.call fuel' c = some g' := by
  cases c with
  | addNode | addRelationship | removeRelationship | setNodePayload | setRelPayload => exact h
  | removeNode id => exact removeNode_mono hf h

/-- An admissible call returns, given enough fuel, and keeps the invariant. -/
theorem WellFormed.call {c : Call ν ρ} (h : g.WellFormed L) (ha : g.Admissible c) :
    ∃ fuel g' L', g.call fuel c = some g' ∧ g'.WellFormed L' ∧
      g'.relPool.cap = g.relPool.cap ∧ g'.nodePool.cap = g.nodePool.cap := by
  cases c with
  | addNode p =>
    obtain ⟨id, g', hg⟩ := addNode_isSome ha p
    obtain ⟨q, hq, rfl⟩ := addNode_eq_some.1 hg
    exact ⟨0, _, _, by rw [Graph.call, hg, map_some], h.addNode hg, rfl, Pool.alloc_cap hq⟩
  | addRelationship src dst type p =>
    obtain ⟨hs, hd, hroom⟩ := ha
    obtain ⟨id, g', hg⟩ := addRelationship_isSome hroom src dst type p
    obtain ⟨⟨q, hq, hshape⟩, hwf⟩ := h.addRelationship hs hd hg
    exact ⟨0, _, _, by rw [Graph.call, hg, map_some], hwf,
      by rw [hshape.relPool]; exact Pool.alloc_cap hq, by rw [hshape.nodePool]; rfl⟩
  | removeRelationship id =>
    obtain ⟨g', hg⟩ : ∃ g', g.removeRelationship id = some g' := ⟨_, removeRelationship_eq_some.2 ⟨ha, rfl⟩⟩
    obtain ⟨hrem, hwf⟩ := h.removeRelationship hg
    exact ⟨0, g', _, hg, hwf, by rw [hrem.relPool]; rfl, by rw [hrem.nodePool]⟩
  | removeNode id =>
    obtain ⟨g1, L1, hclr, hrun, hwf⟩ := h.removeNode ha (Nat.le_refl _)
    exact ⟨_, _, L1, hrun, hwf, hclr.relCap,
      show g1.nodePool.cap = _ by rw [hclr.nodePool]⟩
  | setNodePayload id p => exact ⟨0, _, L, rfl, h.onlyPayload (.setNode g id p), rfl, rfl⟩
  | setRelPayload id p => exact ⟨0, _, L, rfl, h.onlyPayload (.setRel g id p), rfl, rfl⟩

/-- **The adjacency invariant holds in every reachable state**, and the
capacities stay what `create` made them, 32-bit numbers. -/
theorem Reachable.wellFormed [Zero ν] [Zero ρ] (h : Reachable g) :
    (∃ L, g.WellFormed L) ∧ g.relPool.cap < 2 ^ 31 ∧ g.nodePool.cap < 2 ^ 31 := by
  induction h with
  | create nc rc hn hr => exact ⟨⟨_, .create hn hr⟩, rc.toInt_lt, nc.toInt_lt⟩
  | @call g g' c fuel _ ha hrun ih =>
    obtain ⟨⟨L, hwf⟩, hrc, hnc⟩ := ih
    obtain ⟨fuel1, g1, L', hrun1, hwf', hr, hn⟩ := hwf.call ha
    have h1 := call_mono (Nat.le_max_left fuel fuel1) hrun
    rw [call_mono (Nat.le_max_right fuel fuel1) hrun1, some.injEq] at h1
    subst h1
    exact ⟨⟨L', hwf'⟩, hr ▸ hrc, hn ▸ hnc⟩

end GengoDB.Graph
