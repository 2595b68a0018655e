/-
The node dictionary of an RDF graph (`semantics/Identifiers.h`, `.cpp`): a
list of the nodes by id, and a map back. Resources are in the map under their
identifier; a literal has none, so all literals share one key, under which the
map keeps the first.

An id is a position, cast to `int32_t` (`castInt32`) when it is handed out; the
map keeps the positions.

The catalog stores a dictionary with the IRIs split at the last `/` or `#`
and equal prefixes shared, each under an `int32_t` of its own. A dictionary of
at most 2³¹ prefixes comes back (`deserialize_serialize`); with more, a stored
prefix id is negative and is read outside the table.
-/
import Mathlib.Data.List.Dedup
import GengoDB.Assoc
import GengoDB.Fallible
import GengoDB.Variant

namespace GengoDB

/-- `NodeId`; a null IRI is `none`. -/
structure NodeId where
  type : NodeType
  iri : Option Bytes
  localId : Bytes
  deriving DecidableEq

/-- The `NodeId` of an IRI. -/
def NodeId.ofIri (iri : Bytes) : NodeId := { type := .iri, iri := some iri, localId := [] }

/-- The `NodeId` of a blank node: its label up to the first zero byte, as
`data()` makes a string of it. -/
def NodeId.ofBlank (label : Bytes) : NodeId := { type := .bnode, iri := none, localId := label.takeWhile (· ≠ 0) }

/-- The `NodeId` of every literal. -/
def NodeId.literal : NodeId := { type := .literal, iri := none, localId := [] }

/-- `static_cast<int32_t>` of a size. -/
def castInt32 (n : Nat) : Int := (BitVec.ofNat 32 n).toInt

structure NodeIdDict where
  nodeToId : List (NodeId × Nat)
  idToNode : List NodeId

namespace NodeIdDict

def empty : NodeIdDict := { nodeToId := [], idToNode := [] }

variable (d : NodeIdDict)

def size : Nat := d.idToNode.length

/-- `insert`, with the position whose cast it returns. -/
def insert (nid : NodeId) : Nat × NodeIdDict :=
  (d.size, { nodeToId := Assoc.emplace d.nodeToId nid d.size, idToNode := d.idToNode ++ [nid] })

def getOrInsert (nid : NodeId) : Nat × NodeIdDict :=
  match d.nodeToId.lookup nid with
  | some id => (id, d)
  | none => d.insert nid

/-- The position `get_safe` finds. -/
def getSafe (nid : NodeId) : Option Nat := d.nodeToId.lookup nid

/-- `get_safe`. -/
def getSafe32 (nid : NodeId) : Int := ((d.getSafe nid).map castInt32).getD (-1)

/-- `get` of an id in use; `answer` is what it does with the others. -/
def get (id : Nat) : Option NodeId := d.idToNode[id]?

/-- `get` of an `int32_t`: `some none` is the null `NodeId`, `none` a read behind
the last element. -/
def answer (id : Int) : Option (Option NodeId) :=
  if id < 0 ∨ d.size < id then some none else (d.idToNode[id.toNat]?).map some

/-! ## The stored form -/

structure NodeIdEntry where
  type : NodeType
  prefixId : Int
  suffix : Bytes

structure NodeIdStore where
  prefixes : List Bytes
  entries : List NodeIdEntry

/-- `splitIRI`: up to and with the last `/` or `#`, and the rest. -/
def splitIRI (iri : Bytes) : Bytes × Bytes :=
  let suffix := (iri.reverse.takeWhile fun c => c ≠ 47 ∧ c ≠ 35).reverse
  (iri.take (iri.length - suffix.length), suffix)

/-- One turn of the loop of `buildStore`; `prefixIndex` is where a prefix
stands in `prefixes`. -/
def storeNode (store : NodeIdStore) (prefixIndex : List (Bytes × Int)) (node : NodeId) :
    NodeIdStore × List (Bytes × Int) :=
  match node.type with
  | .iri =>
    let (pre, suffix) := splitIRI (node.iri.getD [])
    match prefixIndex.lookup pre with
    | some id => ({ store with entries := store.entries ++ [⟨.iri, id, suffix⟩] }, prefixIndex)
    | none =>
      let id := castInt32 store.prefixes.length
      ({ prefixes := store.prefixes ++ [pre], entries := store.entries ++ [⟨.iri, id, suffix⟩] },
        Assoc.emplace prefixIndex pre id)
  | .bnode => ({ store with entries := store.entries ++ [⟨.bnode, -1, node.localId⟩] }, prefixIndex)
  | .literal => ({ store with entries := store.entries ++ [⟨.literal, -1, []⟩] }, prefixIndex)

def buildStore (nodes : List NodeId) : NodeIdStore :=
  (nodes.foldl (fun s node => storeNode s.1 s.2 node) ({ prefixes := [], entries := [] }, [])).1

/-- One turn of the loop of `readStore`; `none` is a prefix id outside the
table, as every negative one is. -/
def readEntry (prefixes : List Bytes) (entry : NodeIdEntry) : Option NodeId :=
  match entry.type with
  | .iri =>
    if entry.prefixId < 0 then none
    else (prefixes[entry.prefixId.toNat]?).map fun pre => .ofIri (pre ++ entry.suffix)
  | .bnode => some { type := .bnode, iri := none, localId := entry.suffix }
  | .literal => some .literal

def readStore (store : NodeIdStore) : Option (List NodeId) := store.entries.mapM (readEntry store.prefixes)

def serialize : NodeIdStore := buildStore d.idToNode

/-- A dictionary of these nodes, every node in the map under its first id. -/
def ofNodes (nodes : List NodeId) : NodeIdDict where
  idToNode := nodes
  nodeToId := nodes.zipIdx.foldl (fun m e => Assoc.emplace m e.1 e.2) []

def deserialize (store : NodeIdStore) : Option NodeIdDict := (readStore store).map ofNodes

/-! ## The round trip -/

theorem castInt32_of_lt {n : Nat} (h : n < 2 ^ 31) : castInt32 n = n := by
  rw [castInt32, BitVec.toInt_eq_toNat_cond, BitVec.toNat_ofNat, Nat.mod_eq_of_lt (by omega), if_pos (by omega)]

theorem castInt32_two_pow : castInt32 (2 ^ 31) < 0 := by decide

theorem splitIRI_append (iri : Bytes) : (splitIRI iri).1 ++ (splitIRI iri).2 = iri := by
  have hsuf : (splitIRI iri).2 <:+ iri := by
    rw [← List.reverse_prefix]
    simpa [splitIRI] using List.takeWhile_prefix _
  calc (splitIRI iri).1 ++ (splitIRI iri).2
      = iri.take (iri.length - (splitIRI iri).2.length) ++ iri.drop (iri.length - (splitIRI iri).2.length) :=
        congrArg _ (List.suffix_iff_eq_drop.1 hsuf)
    _ = iri := List.take_append_drop _ _

/-- What every node of a dictionary looks like. -/
def WellShaped (node : NodeId) : Prop :=
  (∃ iri, node = .ofIri iri) ∨ (node.type = .bnode ∧ node.iri = none) ∨ node = .literal

/-- The prefix of an IRI. -/
def prefixOf (node : NodeId) : Option Bytes :=
  if node.type = .iri then some (splitIRI (node.iri.getD [])).1 else none

/-- The different prefixes of a dictionary. -/
def prefixes : List Bytes := (d.idToNode.filterMap prefixOf).dedup

/-- The entry of a node in a store with these prefixes. -/
def entryOf (table : List Bytes) (node : NodeId) : NodeIdEntry :=
  match node.type with
  | .iri => ⟨.iri, castInt32 (table.idxOf (splitIRI (node.iri.getD [])).1), (splitIRI (node.iri.getD [])).2⟩
  | .bnode => ⟨.bnode, -1, node.localId⟩
  | .literal => ⟨.literal, -1, []⟩

/-- What has been stored of `nodes`. -/
structure Stored (nodes : List NodeId) (store : NodeIdStore) (prefixIndex : List (Bytes × Int)) : Prop where
  nodup : store.prefixes.Nodup
  mem : ∀ pre, pre ∈ store.prefixes ↔ pre ∈ nodes.filterMap prefixOf
  lookup : ∀ pre, prefixIndex.lookup pre =
    if pre ∈ store.prefixes then some (castInt32 (store.prefixes.idxOf pre)) else none
  entries : store.entries = nodes.map (entryOf store.prefixes)

section

variable {nodes : List NodeId} {node : NodeId} {store : NodeIdStore} {prefixIndex : List (Bytes × Int)}

/-- A new prefix behind the others does not change the entries. -/
theorem entryOf_append {table : List Bytes} (pre : Bytes) (h : ∀ p, prefixOf node = some p → p ∈ table) :
    entryOf (table ++ [pre]) node = entryOf table node := by
  unfold entryOf
  split
  · next ht => rw [List.idxOf_append_of_mem (h _ (if_pos ht))]
  · rfl
  · rfl

theorem Stored.storeNode (h : Stored nodes store prefixIndex) :
    Stored (nodes ++ [node]) (storeNode store prefixIndex node).1 (storeNode store prefixIndex node).2 := by
  have hmem : ∀ n ∈ nodes, ∀ p, prefixOf n = some p → p ∈ store.prefixes := fun n hn p hp =>
    (h.mem p).2 (List.mem_filterMap.2 ⟨n, hn, hp⟩)
  -- A node without a prefix only adds its entry.
  have hother (hp : prefixOf node = none) : Stored (nodes ++ [node])
      { store with entries := store.entries ++ [entryOf store.prefixes node] } prefixIndex := by
    refine ⟨h.nodup, fun pre => ?_, h.lookup, ?_⟩
    · rw [h.mem, List.filterMap_append]
      simp [hp]
    · rw [List.map_append, h.entries]
      rfl
  cases htype : node.type with
  | bnode =>
    have hstored := hother (if_neg (by simp [htype]))
    simpa only [NodeIdDict.storeNode, entryOf, htype] using hstored
  | literal =>
    have hstored := hother (if_neg (by simp [htype]))
    simpa only [NodeIdDict.storeNode, entryOf, htype] using hstored
  | iri =>
    obtain ⟨pre, hpre⟩ : ∃ pre, (splitIRI (node.iri.getD [])).1 = pre := ⟨_, rfl⟩
    have hpreOf : prefixOf node = some pre := by rw [prefixOf, if_pos htype, hpre]
    have hnew : ∀ p, p ∈ (nodes ++ [node]).filterMap prefixOf ↔ p ∈ store.prefixes ∨ p = pre := by
      intro p
      rw [List.filterMap_append, List.mem_append, h.mem]
      simp [hpreOf, eq_comm]
    by_cases hin : pre ∈ store.prefixes
    · have hl := h.lookup pre
      rw [if_pos hin] at hl
      simp only [NodeIdDict.storeNode, htype, hpre, hl]
      refine ⟨h.nodup, fun p => ?_, h.lookup, ?_⟩
      · rw [hnew]
        exact ⟨.inl, fun hp => hp.elim id fun hp => hp ▸ hin⟩
      · simp [h.entries, entryOf, htype, hpre]
    · have hl := h.lookup pre
      rw [if_neg hin] at hl
      simp only [NodeIdDict.storeNode, htype, hpre, hl]
      refine ⟨List.nodup_append.2 ⟨h.nodup, by simp, ?_⟩, fun p => ?_, fun p => ?_, ?_⟩
      · rintro a ha b hb rfl
        exact hin (List.mem_singleton.1 hb ▸ ha)
      · rw [hnew, List.mem_append, List.mem_singleton]
      · rw [Assoc.lookup_emplace, h.lookup]
        by_cases hp : p ∈ store.prefixes
        · simp [hp, List.idxOf_append_of_mem hp]
        · by_cases he : p = pre
          · subst he
            simp [hp, List.idxOf_append_of_notMem hp]
          · simp [hp, he]
      · have hold : nodes.map (entryOf (store.prefixes ++ [pre])) = nodes.map (entryOf store.prefixes) :=
          List.map_congr_left fun n hn => entryOf_append pre (hmem n hn)
        rw [List.map_append, hold, ← h.entries]
        simp [entryOf, htype, hpre, List.idxOf_append_of_notMem hin]

end

theorem stored_buildStore (nodes : List NodeId) : ∃ prefixIndex, Stored nodes (buildStore nodes) prefixIndex := by
  have key : ∀ rest done s, Stored done s.1 s.2 →
      Stored (done ++ rest) (rest.foldl (fun s node => storeNode s.1 s.2 node) s).1
        (rest.foldl (fun s node => storeNode s.1 s.2 node) s).2 := by
    intro rest
    induction rest with
    | nil =>
      intro done s hs
      simpa using hs
    | cons node rest ih =>
      intro done s hs
      simpa using ih (done ++ [node]) _ hs.storeNode
  exact ⟨_, key nodes [] ({ prefixes := [], entries := [] }, []) ⟨by simp, by simp, by simp, rfl⟩⟩

theorem length_prefixes_buildStore (d : NodeIdDict) : d.serialize.prefixes.length = d.prefixes.length := by
  obtain ⟨prefixIndex, h⟩ := stored_buildStore d.idToNode
  refine ((List.perm_ext_iff_of_nodup h.nodup (List.nodup_dedup _)).2 fun pre => ?_).length_eq
  rw [h.mem, List.mem_dedup]

/-- A node under a prefix id that is not negative. -/
theorem readEntry_entryOf {table : List Bytes} {node : NodeId} (hshape : WellShaped node)
    (hmem : ∀ p, prefixOf node = some p → p ∈ table ∧ table.idxOf p < 2 ^ 31) :
    readEntry table (entryOf table node) = some node := by
  obtain ⟨iri, rfl⟩ | ⟨htype, hiri⟩ | rfl := hshape
  · obtain ⟨hin, hlt⟩ := hmem _ rfl
    have hget : table[table.idxOf (splitIRI iri).1]? = some (splitIRI iri).1 := List.getElem?_idxOf hin
    have hentry : entryOf table (.ofIri iri) = ⟨.iri, (table.idxOf (splitIRI iri).1 : Nat), (splitIRI iri).2⟩ := by
      have hcast : castInt32 (table.idxOf (splitIRI iri).1) = (table.idxOf (splitIRI iri).1 : Nat) := castInt32_of_lt hlt
      rw [← hcast]
      rfl
    rw [hentry]
    simp [readEntry, hget, splitIRI_append]
  · obtain ⟨type, iri, localId⟩ := node
    cases htype
    cases hiri
    rfl
  · rfl

/-- **The stored form reads back as the nodes** exactly if there is a prefix id
for every prefix. -/
theorem readStore_serialize (h : ∀ node ∈ d.idToNode, WellShaped node) :
    readStore d.serialize = if d.prefixes.length ≤ 2 ^ 31 then some d.idToNode else none := by
  obtain ⟨prefixIndex, hstored⟩ := stored_buildStore d.idToNode
  have hlen := d.length_prefixes_buildStore
  rw [serialize] at hlen
  rw [readStore, serialize, hstored.entries, List.mapM_map]
  split
  · next hle =>
    have hread : d.idToNode.mapM (readEntry (buildStore d.idToNode).prefixes ∘ entryOf (buildStore d.idToNode).prefixes) =
        pure (d.idToNode.map id) := by
      refine Fallible.mapM_eq_map fun node hnode => readEntry_entryOf (h node hnode) fun p hp => ?_
      have hin := (hstored.mem p).2 (List.mem_filterMap.2 ⟨node, hnode, hp⟩)
      have hlt := List.idxOf_lt_length_of_mem hin
      exact ⟨hin, by omega⟩
    simpa using hread
  · next hgt =>
    -- the node with the first prefix whose id is negative
    have hlast : 2 ^ 31 < (buildStore d.idToNode).prefixes.length := by omega
    obtain ⟨node, hnode, hpreOf⟩ := List.mem_filterMap.1 ((hstored.mem _).1 (List.getElem_mem hlast))
    refine Fallible.mapM_eq_none hnode ?_
    have htype : node.type = .iri := by
      by_contra htype
      rw [prefixOf, if_neg htype] at hpreOf
      cases hpreOf
    have hid : (buildStore d.idToNode).prefixes.idxOf (splitIRI (node.iri.getD [])).1 = 2 ^ 31 := by
      rw [prefixOf, if_pos htype, Option.some.injEq] at hpreOf
      rw [hpreOf]
      exact hstored.nodup.idxOf_getElem _ hlast
    simp only [Function.comp_apply, readEntry, entryOf, htype, hid, castInt32_two_pow, if_true]

/-- The map knows the first id of every node. -/
def Canonical : Prop := ∀ nid, d.nodeToId.lookup nid = d.idToNode.idxOf? nid

theorem canonical_empty : empty.Canonical := fun _ => rfl

variable {d : NodeIdDict}

theorem Canonical.insert (h : d.Canonical) (nid : NodeId) : (d.insert nid).2.Canonical := by
  intro n
  simp only [NodeIdDict.insert, Assoc.lookup_emplace, Assoc.idxOf?_append_singleton, h n]
  rfl

theorem Canonical.getOrInsert (h : d.Canonical) (nid : NodeId) : (d.getOrInsert nid).2.Canonical := by
  unfold NodeIdDict.getOrInsert
  split
  · exact h
  · exact h.insert nid

theorem canonical_ofNodes (nodes : List NodeId) : (ofNodes nodes).Canonical := Assoc.lookup_foldl_zipIdx nodes

/-- **A dictionary survives the catalog**, with the same nodes under the same
ids, if its prefixes do. -/
theorem deserialize_serialize (h : ∀ node ∈ d.idToNode, WellShaped node) :
    deserialize d.serialize = if d.prefixes.length ≤ 2 ^ 31 then some (ofNodes d.idToNode) else none := by
  rw [deserialize, d.readStore_serialize h]
  split <;> rfl

theorem Canonical.getSafe_ofNodes (h : d.Canonical) (nid : NodeId) : (ofNodes d.idToNode).getSafe nid = d.getSafe nid := by
  rw [getSafe, getSafe, h nid]
  exact canonical_ofNodes d.idToNode nid

theorem length_prefixes_le (d : NodeIdDict) : d.prefixes.length ≤ d.size :=
  (List.dedup_sublist _).length_le.trans (List.length_filterMap_le _ _)

/-! ## Dictionaries in use -/

/-- What `node_id` looks at of a node. -/
inductive Node where
  | iri (identifier : Bytes)
  | blank (label : Bytes)
  | literal

def Node.nodeId : Node → NodeId
  | iri identifier => .ofIri identifier
  | blank label => .ofBlank label
  | literal => .literal

/-- Dictionaries that calls of `insert` and `get_or_insert` make. -/
inductive Built : NodeIdDict → Prop where
  | empty : Built empty
  | insert {d : NodeIdDict} (h : Built d) (node : Node) : Built (d.insert node.nodeId).2
  | getOrInsert {d : NodeIdDict} (h : Built d) (node : Node) : Built (d.getOrInsert node.nodeId).2

theorem wellShaped_insert (h : ∀ node ∈ d.idToNode, WellShaped node) (node : Node) :
    ∀ n ∈ (d.insert node.nodeId).2.idToNode, WellShaped n := by
  refine List.forall_mem_append.2 ⟨h, List.forall_mem_singleton.2 ?_⟩
  cases node with
  | iri identifier => exact .inl ⟨identifier, rfl⟩
  | blank label => exact .inr (.inl ⟨rfl, rfl⟩)
  | literal => exact .inr (.inr rfl)

theorem Built.sound (h : Built d) : d.Canonical ∧ ∀ node ∈ d.idToNode, WellShaped node := by
  induction h with
  | empty => exact ⟨canonical_empty, fun _ h => nomatch h⟩
  | insert _ node ih => exact ⟨ih.1.insert _, wellShaped_insert ih.2 node⟩
  | getOrInsert _ node ih =>
    refine ⟨ih.1.getOrInsert _, ?_⟩
    unfold NodeIdDict.getOrInsert
    split
    · exact ih.2
    · exact wellShaped_insert ih.2 node

/-- **A dictionary in use survives the catalog** exactly if it has at most 2³¹
prefixes, and an id behind its end is answered with the null `NodeId`, but for
the first. -/
theorem answers_deserialize (h : Built d) :
    (d.prefixes.length ≤ 2 ^ 31 ↔ ∃ d', deserialize d.serialize = some d' ∧ d'.size = d.size ∧
      (∀ i, d'.answer i = d.answer i) ∧ ∀ node : Node, d'.getSafe32 node.nodeId = d.getSafe32 node.nodeId) ∧
    ∀ i : Int, d.size ≤ i → (d.answer i = some none ↔ i ≠ d.size) := by
  have hround := deserialize_serialize h.sound.2
  refine ⟨⟨fun hle => ?_, fun ⟨d', hd', _⟩ => ?_⟩, fun i hi => ?_⟩
  · rw [if_pos hle] at hround
    refine ⟨_, hround, rfl, fun i => rfl, fun node => ?_⟩
    rw [getSafe32, getSafe32, h.sound.1.getSafe_ofNodes]
  · by_contra hgt
    rw [if_neg hgt, hd'] at hround
    cases hround
  · unfold answer
    by_cases hlast : i = d.size
    · simp [hlast]
    · simp only [ne_eq, hlast, not_false_eq_true, iff_true]
      exact if_pos (by omega)

/-- Two IRIs with the prefix `a/`, a blank node, and two literals. -/
def sharedPrefix : NodeIdDict :=
  [Node.iri [97, 47, 98], .iri [97, 47, 99], .blank [100], .literal, .literal].foldl
    (fun d node => (d.insert node.nodeId).2) empty

theorem answers_deserialize_sharedPrefix : sharedPrefix.serialize.prefixes = [[97, 47]] ∧
    ∃ d', deserialize sharedPrefix.serialize = some d' ∧ d'.size = 5 ∧
      d'.answer 1 = some (some (.ofIri [97, 47, 99])) ∧ d'.getSafe32 .literal = 3 := by
  refine ⟨by decide, ?_⟩
  have hbuilt : Built sharedPrefix := .insert (.insert (.insert (.insert (.insert .empty _) _) _) _) _
  obtain ⟨d', hd', hsize, hanswer, hsafe⟩ := (answers_deserialize hbuilt).1.1 (by decide)
  refine ⟨d', hd', hsize, (hanswer 1).trans (by decide), (hsafe .literal).trans (by decide)⟩

/-- Id 1 of a dictionary with one node. -/
theorem answer_behind_last : (empty.insert .literal).2.answer 1 = none := by
  decide

end NodeIdDict
end GengoDB
