/-
The edge scans of the query compiler (`ScanEdgeSetLowering`): the code it
generates for the outgoing and incoming edges of a node, and for all edges.

The anchored scans follow the node's relationship list with a `while` loop on
32-bit ids. The next id is picked without branches: each side's `next` link is
masked by the sign-extended comparison of the node with that side's endpoint,
and the two are or-ed; the second side is masked once more by "the endpoints
differ", so that a self-loop contributes its first-side link only. An element
is passed on when it is in use and has the node at the scanned end. The scan
over all edges reads the relationship table up to its high-water mark.

`anchored_scan` says that an anchored scan ends and yields the edges of the
full scan with that endpoint, each once.
-/
import GengoDB.GraphFacts

namespace GengoDB.EdgeScan

variable {ν ρ : Type} {x n ptr : Int} {g : Graph ν ρ} {mode : Mode} {m : Layout} {L : Int → List Int}

/-- Where the tables of a graph lie in memory and how large a record is. -/
structure Layout where
  nodeStorePtr : Int
  relStorePtr : Int
  nodeSize : Int
  relSize : Int
  nodeSize_pos : 0 < nodeSize
  relSize_pos : 0 < relSize

/-- The tables of a property graph (`sizeof(NodeEntry) == 16`, `sizeof(RelEntry) == 36`). -/
def Layout.property (nodeStorePtr relStorePtr : Int) : Layout where
  nodeStorePtr := nodeStorePtr
  relStorePtr := relStorePtr
  nodeSize := 16
  relSize := 36
  nodeSize_pos := by decide
  relSize_pos := by decide

/-- The address of a node record, and the id `GraphStorage::nodeId` finds at one. -/
def Layout.nodeRef (m : Layout) (id : Int) : Int := m.nodeStorePtr + id * m.nodeSize

def Layout.nodeId (m : Layout) (ptr : Int) : Int := (ptr - m.nodeStorePtr) / m.nodeSize

/-- The address of a relationship record, and the id `GraphStorage::relId` finds at one. -/
def Layout.relRef (m : Layout) (id : Int) : Int := m.relStorePtr + id * m.relSize

def Layout.relId (m : Layout) (ptr : Int) : Int := (ptr - m.relStorePtr) / m.relSize

/-! ## The generated code -/

/-- An id as the generated code loads it. -/
abbrev i32 (x : Int) : BitVec 32 := BitVec.ofInt 32 x

/-- `arith.extsi` of a comparison to 32 bits. -/
def extsi (b : Bool) : BitVec 32 := if b then BitVec.allOnes 32 else 0#32

/-- `elem >= 0`, signed. -/
def isValid (elem : BitVec 32) : Bool := (0#32).sle elem

/-- The branch-free choice of the next element. -/
def next (nodeId : BitVec 32) (e : RelEntry ρ) : BitVec 32 :=
  let firstNodeId := i32 e.firstNodeId
  let secondNodeId := i32 e.secondNodeId
  let first := i32 e.firstNextRelId &&& extsi (nodeId == firstNodeId)
  let second := (i32 e.secondNextRelId &&& extsi (firstNodeId != secondNodeId)) &&& extsi (nodeId == secondNodeId)
  first ||| second

/-- Which end of an edge the scan anchors. -/
inductive Mode where
  | outgoing
  | incoming
  deriving DecidableEq

def Mode.endpoint : Mode → RelEntry ρ → Int
  | .outgoing, e => e.firstNodeId
  | .incoming, e => e.secondNodeId

/-- The condition under which an element is passed on. -/
def passes (mode : Mode) (nodeId : BitVec 32) (e : RelEntry ρ) : Bool :=
  e.inUse && nodeId == i32 (mode.endpoint e)

/-- One round of the loop, on the current element and the edges passed on so far. -/
def round (m : Layout) (g : Graph ν ρ) (mode : Mode) (nodeId : BitVec 32) (s : BitVec 32 × List Int) :
    BitVec 32 × List Int :=
  let e := g.rels s.1.toInt
  (next nodeId e, if passes mode nodeId e then s.2 ++ [m.relRef s.1.toInt] else s.2)

/-- The scan anchored at the node record at `node`; `none` when it takes more
than `fuel` rounds. -/
def scanAnchored (fuel : Nat) (m : Layout) (g : Graph ν ρ) (mode : Mode) (node : Int) : Option (List Int) :=
  let firstRelId := (g.nodes (m.nodeId node)).firstRelId
  if isValid (i32 firstRelId) then
    let llistHead := m.relRef firstRelId
    let nodeId := i32 (m.nodeId node)
    let startEdgeId := i32 (m.relId llistHead)
    (Loop.run (fun s : BitVec 32 × List Int => isValid s.1) (fun s => some (round m g mode nodeId s)) fuel
      (startEdgeId, [])).map (·.2)
  else some []

/-- The scan of the whole table, restricted to the edges in use. -/
def scanAll (m : Layout) (g : Graph ν ρ) : List Int :=
  ((List.range g.relPool.mark.toNat).filter fun i : Nat => (g.rels (i : Int)).inUse).map fun i : Nat => m.relRef i

/-! ## 32-bit ids -/

theorem toInt_i32 (h0 : 0 ≤ x) (h : x < 2 ^ 31) : (i32 x).toInt = x := by
  rw [BitVec.toInt_ofInt, Int.bmod_def]
  split <;> omega

theorem i32_inj {y : Int} (hx0 : 0 ≤ x) (hx : x < 2 ^ 31) (hy0 : 0 ≤ y) (hy : y < 2 ^ 31) : i32 x = i32 y ↔ x = y := by
  refine ⟨fun h => ?_, fun h => h ▸ rfl⟩
  rw [← toInt_i32 hx0 hx, h, toInt_i32 hy0 hy]

theorem isValid_i32 (h0 : 0 ≤ x) (h : x < 2 ^ 31) : isValid (i32 x) := by
  simp [isValid, BitVec.sle, toInt_i32 h0 h, h0]

theorem isValid_none : isValid (i32 graphNone) = false := by decide

theorem and_extsi (x : BitVec 32) (b : Bool) : x &&& extsi b = if b then x else 0#32 := by
  cases b with
  | false => simp [extsi]
  | true => exact BitVec.and_allOnes

/-- The masks pick the link of the node's own side. -/
theorem next_eq {e : RelEntry ρ} (hn : 0 ≤ n ∧ n < 2 ^ 31) (h1 : 0 ≤ e.firstNodeId ∧ e.firstNodeId < 2 ^ 31)
    (h2 : 0 ≤ e.secondNodeId ∧ e.secondNodeId < 2 ^ 31) (hi : e.firstNodeId = n ∨ e.secondNodeId = n) :
    next (i32 n) e = i32 (e.nextOn n) := by
  have e1 : (i32 n == i32 e.firstNodeId) = decide (e.firstNodeId = n) := by
    rw [Bool.beq_eq_decide_eq, decide_eq_decide, i32_inj hn.1 hn.2 h1.1 h1.2, eq_comm]
  have e2 : (i32 n == i32 e.secondNodeId) = decide (e.secondNodeId = n) := by
    rw [Bool.beq_eq_decide_eq, decide_eq_decide, i32_inj hn.1 hn.2 h2.1 h2.2, eq_comm]
  have e3 : (i32 e.firstNodeId != i32 e.secondNodeId) = !decide (e.firstNodeId = e.secondNodeId) := by
    rw [bne, Bool.beq_eq_decide_eq, Bool.not_inj_iff, decide_eq_decide, i32_inj h1.1 h1.2 h2.1 h2.2]
  simp only [next, e1, e2, e3, and_extsi, RelEntry.nextOn]
  by_cases hf : e.firstNodeId = n
  · by_cases hs : e.secondNodeId = n <;> simp [hf, hs]
  · have hs := hi.resolve_left hf
    simp [hf, hs]

/-! ## The loop -/

theorem Layout.nodeId_nodeRef (m : Layout) (id : Int) : m.nodeId (m.nodeRef id) = id := by
  rw [nodeId, nodeRef, show m.nodeStorePtr + id * m.nodeSize - m.nodeStorePtr = id * m.nodeSize by omega,
    Int.mul_ediv_cancel _ (Int.ne_of_gt m.nodeSize_pos)]

theorem Layout.relId_relRef (m : Layout) (id : Int) : m.relId (m.relRef id) = id := by
  rw [relId, relRef, show m.relStorePtr + id * m.relSize - m.relStorePtr = id * m.relSize by omega,
    Int.mul_ediv_cancel _ (Int.ne_of_gt m.relSize_pos)]

theorem Layout.relRef_injective (m : Layout) : Function.Injective m.relRef := fun x y h => by
  rw [← m.relId_relRef x, h, m.relId_relRef]

/-- What the loop needs to know of a relationship on the list of `n`. -/
structure OnList (g : Graph ν ρ) (n r : Int) : Prop where
  id : 0 ≤ r ∧ r < 2 ^ 31
  first : 0 ≤ (g.rels r).firstNodeId ∧ (g.rels r).firstNodeId < 2 ^ 31
  second : 0 ≤ (g.rels r).secondNodeId ∧ (g.rels r).secondNodeId < 2 ^ 31
  incident : g.Incident r n
  inUse : (g.rels r).inUse = true

/-- The edges of a list that the scan passes on. -/
def anchored (m : Layout) (g : Graph ν ρ) (mode : Mode) (n : Int) (l : List Int) : List Int :=
  (l.filter fun r => mode.endpoint (g.rels r) = n).map m.relRef

theorem passes_eq {r : Int} (hn : 0 ≤ n ∧ n < 2 ^ 31) (h : OnList g n r) :
    passes mode (i32 n) (g.rels r) = decide (mode.endpoint (g.rels r) = n) := by
  have hend : 0 ≤ mode.endpoint (g.rels r) ∧ mode.endpoint (g.rels r) < 2 ^ 31 := by
    cases mode with
    | outgoing => exact h.first
    | incoming => exact h.second
  rw [passes, h.inUse, Bool.true_and, Bool.beq_eq_decide_eq, decide_eq_decide,
    i32_inj hn.1 hn.2 hend.1 hend.2, eq_comm]

/-- **The loop** visits the list it is started on and passes on the edges
anchored at the node, in list order. -/
theorem run_linked (m : Layout) (mode : Mode) (hn : 0 ≤ n ∧ n < 2 ^ 31) :
    ∀ {l : List Int} {q : Int} {fuel : Nat} (out : List Int), Dll.Linked graphNone (g.view n) q l →
      (∀ r ∈ l, OnList g n r) → l.length ≤ fuel →
      (Loop.run (fun s : BitVec 32 × List Int => isValid s.1) (fun s => some (round m g mode (i32 n) s)) fuel
        (i32 (Dll.firstOr graphNone l), out)).map (·.2) = some (out ++ anchored m g mode n l)
  | [], _, _, out, _, _, _ => by
    rw [Loop.run_done (by exact isValid_none)]
    simp [anchored]
  | r :: l, _, fuel + 1, out, ⟨_, _, hnext, hl⟩, hon, hf => by
    have hr := hon r (by simp)
    have hf : l.length ≤ fuel := by simpa using hf
    have hnext : (g.rels r).nextOn n = Dll.firstOr graphNone l := hnext
    rw [Dll.firstOr_cons, Loop.run_step (by exact isValid_i32 hr.id.1 hr.id.2), Option.bind_some, round]
    simp only [toInt_i32 hr.id.1 hr.id.2, next_eq hn hr.first hr.second hr.incident, hnext, passes_eq hn hr]
    rw [run_linked m mode hn _ hl (fun x hx => hon x (by simp [hx])) hf]
    by_cases he : mode.endpoint (g.rels r) = n <;> simp [anchored, he]

/-! ## The scans -/

theorem scanAll_nodup (m : Layout) (g : Graph ν ρ) : (scanAll m g).Nodup :=
  (List.nodup_range.filter _).map fun _ _ h => Int.ofNat_inj.1 (m.relRef_injective h)

theorem mem_scanAll (h : g.WellFormed L) : ptr ∈ scanAll m g ↔ ∃ r, ptr = m.relRef r ∧ (g.rels r).inUse := by
  simp only [scanAll, List.mem_map, List.mem_filter, List.mem_range]
  constructor
  · rintro ⟨i, ⟨-, hi⟩, rfl⟩
    exact ⟨i, rfl, hi⟩
  · rintro ⟨r, rfl, hr⟩
    obtain ⟨h0, hlt⟩ := h.relPool.bounds hr
    have hr' : (r.toNat : Int) = r := Int.toNat_of_nonneg h0
    exact ⟨r.toNat, ⟨by omega, by rw [hr']; exact hr⟩, by rw [hr']⟩

theorem mem_anchored {l : List Int} :
    ptr ∈ anchored m g mode n l ↔ ∃ r, ptr = m.relRef r ∧ r ∈ l ∧ mode.endpoint (g.rels r) = n := by
  simp only [anchored, List.mem_map, List.mem_filter, decide_eq_true_eq]
  constructor
  · rintro ⟨r, hr, rfl⟩; exact ⟨r, rfl, hr⟩
  · rintro ⟨r, rfl, hr⟩; exact ⟨r, hr, rfl⟩

theorem endpoint_incident {r : Int} (h : mode.endpoint (g.rels r) = n) : g.Incident r n := by
  cases mode with
  | outgoing => exact .inl h
  | incoming => exact .inr h

/-- The generated code on a well-formed store with 32-bit capacities. -/
theorem scanAnchored_eq {fuel : Nat} (h : g.WellFormed L) (hrc : g.relPool.cap < 2 ^ 31) (hnc : g.nodePool.cap < 2 ^ 31)
    (hn : (g.nodes n).inUse) (hf : (L n).length ≤ fuel) :
    scanAnchored fuel m g mode (m.nodeRef n) = some (anchored m g mode n (L n)) := by
  have hnode : ∀ k, (g.nodes k).inUse → 0 ≤ k ∧ k < 2 ^ 31 := fun k hk => by
    have := h.nodePool.bounds hk
    have := h.nodePool.mark_le
    omega
  have hon : ∀ r ∈ L n, OnList g n r := fun r hr => by
    obtain ⟨hu, hi⟩ := (h.mem n hn r).1 hr
    have := h.relPool.bounds hu
    have := h.relPool.mark_le
    exact ⟨by omega, hnode _ (h.endpoint r _ hu (.inl rfl)), hnode _ (h.endpoint r _ hu (.inr rfl)), hi, hu⟩
  obtain ⟨hhead, hlinked⟩ := h.chain n hn
  have hhead : (g.nodes n).firstRelId = Dll.firstOr graphNone (L n) := hhead
  have hrun := run_linked m mode (hnode n hn) [] hlinked hon hf
  simp only [scanAnchored, m.nodeId_nodeRef, m.relId_relRef, hhead, hrun]
  split
  · rfl
  · next hv =>
    -- An invalid first id: the list is empty.
    cases hl : L n with
    | nil => rfl
    | cons r l =>
      have hr := hon r (by simp [hl])
      rw [hl, Dll.firstOr_cons, isValid_i32 hr.id.1 hr.id.2] at hv
      exact absurd rfl hv

/-- The anchored scan of a well-formed store: enough rounds give the edges of
the node, in the order of its list. -/
theorem scan_of_wellFormed (hwf : g.WellFormed L) (hrc : g.relPool.cap < 2 ^ 31) (hnc : g.nodePool.cap < 2 ^ 31)
    (m : Layout) (mode : Mode) (hn : (g.nodes n).inUse) :
    ∃ l : List Int, (∃ fuel₀, ∀ fuel, fuel₀ ≤ fuel → scanAnchored fuel m g mode (m.nodeRef n) = some l) ∧ l.Nodup ∧
      (∀ ptr, ptr ∈ l ↔ ∃ r, ptr = m.relRef r ∧ (g.rels r).inUse ∧ mode.endpoint (g.rels r) = n) ∧
      l.Perm ((scanAll m g).filter fun ptr => mode.endpoint (g.rels (m.relId ptr)) = n) := by
  have hnd : (anchored m g mode n (L n)).Nodup := ((hwf.nodup n hn).filter _).map m.relRef_injective
  have hmem : ∀ ptr, ptr ∈ anchored m g mode n (L n) ↔
      ∃ r, ptr = m.relRef r ∧ (g.rels r).inUse ∧ mode.endpoint (g.rels r) = n := fun ptr => by
    rw [mem_anchored]
    refine exists_congr fun r => and_congr_right fun _ => and_congr_left fun he => ?_
    rw [hwf.mem n hn r]
    exact and_iff_left (endpoint_incident he)
  refine ⟨anchored m g mode n (L n), ⟨(L n).length, fun fuel hf => scanAnchored_eq hwf hrc hnc hn hf⟩, hnd, hmem,
    (List.perm_ext_iff_of_nodup hnd ((scanAll_nodup m g).filter _)).2 fun ptr => ?_⟩
  rw [hmem, List.mem_filter, mem_scanAll hwf, decide_eq_true_eq]
  constructor
  · rintro ⟨r, rfl, hr, he⟩
    exact ⟨⟨r, rfl, hr⟩, by rw [m.relId_relRef]; exact he⟩
  · rintro ⟨⟨r, rfl, hr⟩, he⟩
    exact ⟨r, rfl, hr, by rwa [m.relId_relRef] at he⟩

variable [Zero ν] [Zero ρ]

/-- **Anchored scans.** In every reachable state, for every node in use, the
generated scan of its outgoing (incoming) edges ends and yields, each once,
precisely the relationships in use whose first (second) endpoint it is: the
scan of all edges, filtered by that endpoint. -/
theorem anchored_scan {g : Graph ν ρ} (h : Graph.Reachable g) (m : Layout) (mode : Mode) {n : Int}
    (hn : (g.nodes n).inUse = true) :
    ∃ l : List Int, (∃ fuel₀, ∀ fuel, fuel₀ ≤ fuel → scanAnchored fuel m g mode (m.nodeRef n) = some l) ∧ l.Nodup ∧
      (∀ ptr, ptr ∈ l ↔ ∃ r, ptr = m.relRef r ∧ (g.rels r).inUse = true ∧ mode.endpoint (g.rels r) = n) ∧
      l.Perm ((scanAll m g).filter fun ptr => mode.endpoint (g.rels (m.relId ptr)) = n) := by
  obtain ⟨⟨L, hwf⟩, hrc, hnc⟩ := h.wellFormed
  exact scan_of_wellFormed hwf hrc hnc m mode hn

/-- A node with an outgoing edge, an incoming one and a self-loop: the loop is
yielded once by either scan. -/
theorem anchored_scan_selfLoop : ∃ g : Graph Int Int,
    scanAnchored 3 (.property 1000 2000) g .outgoing 1016 = some [2072, 2000] ∧
    scanAnchored 3 (.property 1000 2000) g .incoming 1016 = some [2072, 2036] ∧ ∃ l : List Int, l.Nodup ∧
      l.Perm ((scanAll (.property 1000 2000) g).filter fun ptr =>
        Mode.outgoing.endpoint (g.rels ((Layout.property 1000 2000).relId ptr)) = 1) := by
  have h₀ := Graph.Reachable.create (ν := Int) (ρ := Int) 2 3 (by decide) (by decide)
  have h₁ := h₀.call (c := .addNode 0) (show Pool.HasRoom _ by decide) (show Graph.call 0 _ _ = some _ from rfl)
  have h₂ := h₁.call (c := .addNode 0) (show Pool.HasRoom _ by decide) (show Graph.call 0 _ _ = some _ from rfl)
  have h₃ := h₂.call (c := .addRelationship 1 0 7 0) ⟨rfl, rfl, by decide⟩ (show Graph.call 0 _ _ = some _ from rfl)
  have h₄ := h₃.call (c := .addRelationship 0 1 7 0) ⟨rfl, rfl, by decide⟩ (show Graph.call 0 _ _ = some _ from rfl)
  have h₅ := h₄.call (c := .addRelationship 1 1 7 0) ⟨rfl, rfl, by decide⟩ (show Graph.call 0 _ _ = some _ from rfl)
  obtain ⟨l, -, hnd, -, hperm⟩ := anchored_scan h₅ (.property 1000 2000) .outgoing (n := 1) rfl
  exact ⟨_, by decide, by decide, l, hnd, hperm⟩

end GengoDB.EdgeScan
