/-
What the storage of an RDF graph holds. `Holds s n keys` says that the store
has `n` nodes, the first ones being the terms `keys` in this order: resources
without properties, literals with one that leads back to their datatype and
bytes. `Holds.addNode` and `Holds.addLiteral` are the two ways it grows; the
relationships are apart from it (`SameRels`).
-/
import GengoDB.RdfGraph
import GengoDB.Ranges

namespace GengoDB

open Codec List PropertyGraph
open Assoc (getElem?_append_singleton_iff getElem?_of_isPrefix)
open Function (update update_self update_of_ne)

/-- What a term is interned by. -/
inductive TermKey where
  | iri (identifier : Bytes)
  | bnode (label : Bytes)
  | literal (datatype data : Bytes)
  deriving DecidableEq

def TermKey.isLiteral : TermKey → Bool
  | .literal _ _ => true
  | _ => false

def TermKey.nodeId : TermKey → NodeId
  | .iri identifier => .ofIri identifier
  | .bnode label => .ofBlank label
  | .literal _ _ => .literal

/-- The key of a term; a literal that cannot be stored has none. -/
def Term.key : Term → Option TermKey
  | .iri identifier => some (.iri identifier)
  | .bnode label => some (.bnode label.bytes)
  | .literal l => l.encode.map fun enc => .literal l.datatype enc.bytes

/-! ## Values -/

/-- The value is of the shape its datatype asks for. -/
def EncodedValue.Fits (datatype : Bytes) : EncodedValue → Prop
  | .inlined _ => (RdfDatatype.inlineWidth datatype).isSome
  | .fixed kind _ => RdfDatatype.inlineWidth datatype = none ∧ RdfDatatype.kindOf datatype = some kind
  | .blob _ => RdfDatatype.inlineWidth datatype = none ∧ RdfDatatype.kindOf datatype = none

variable {enc : EncodedValue}

theorem Literal.encode_fits {l : Literal} (h : l.encode = some enc) : enc.Fits l.datatype := by
  unfold Literal.encode at h
  split at h
  · next hw =>
    split at h
    · cases h
      simp [EncodedValue.Fits, hw]
    · cases h
  · next hw =>
    split at h
    · next hk =>
      obtain ⟨v, -, rfl⟩ := Option.map_eq_some_iff.1 h
      exact ⟨hw, hk⟩
    · next hk =>
      split at h
      · cases h
        exact ⟨hw, hk⟩
      · cases h

variable {value : UInt32}

namespace PropertyData

variable {d d' : PropertyData}

/-- Every value of `d` is in `d'`, under the same index. -/
def Extends (d d' : PropertyData) : Prop :=
  ∀ datatype value data, d.valueBytes datatype value = some data → d'.valueBytes datatype value = some data

theorem extends_of {d d' : PropertyData} (hcol : ∀ kind, d.column kind <+: d'.column kind)
    (hblob : ∀ idx data, d.getBlob .string idx = some data → d'.getBlob .string idx = some data) : Extends d d' := by
  intro datatype value data h
  unfold valueBytes at h ⊢
  split
  · next hw => rwa [if_pos hw] at h
  · next hw =>
    rw [if_neg hw] at h
    split
    · next kind hk =>
      simp only [hk] at h
      obtain ⟨v, hv, rfl⟩ := Option.map_eq_some_iff.1 h
      rw [getElem?_of_isPrefix (hcol kind) hv]
      rfl
    · next hk =>
      simp only [hk] at h
      exact hblob _ _ h

theorem column_addFixed (d : PropertyData) (kind kind' : RdfDatatype.Kind) (v : BitVec 64) :
    d.column kind' <+: (d.addFixed kind v).2.column kind' ∧
      ((d.addFixed kind v).2.column kind').length ≤ (d.column kind').length + 1 := by
  cases kind <;> cases kind' <;> simp [addFixed, addI64, addUi64, addDouble, column]

theorem addFixed_get (d : PropertyData) (kind : RdfDatatype.Kind) (v : BitVec 64) :
    (d.addFixed kind v).1 = (d.column kind).length ∧
      ((d.addFixed kind v).2.column kind)[(d.addFixed kind v).1]? = some v := by
  cases kind <;> simp [addFixed, addI64, addUi64, addDouble, column]

theorem addFixed_blobs (d : PropertyData) (kind : RdfDatatype.Kind) (v : BitVec 64) :
    (d.addFixed kind v).2.blobs = d.blobs := by
  cases kind <;> rfl

theorem Valid.tableFor (hd : d.Valid) (type : XsdType) (len : Nat) : (d.tableFor type len).Valid := by
  unfold PropertyData.tableFor
  cases ht : d.blobs.lookup type with
  | none => exact BlobTable.valid_create _
  | some t => exact hd.table _ (Assoc.mem_of_lookup ht)

theorem get_tableFor (d : PropertyData) (type : XsdType) (len idx : Nat) :
    (d.tableFor type len).get idx = d.getBlob type idx := by
  unfold PropertyData.tableFor getBlob
  cases d.blobs.lookup type with
  | none => simp [BlobTable.create, BlobTable.get]
  | some t => rfl

/-- **Adding a blob.** -/
theorem addBlob_spec {type : XsdType} {bytes : Bytes} {idx : Nat} (hd : d.Valid)
    (h : d.addBlob type bytes = some (idx, d')) : d'.Valid ∧ idx < 2 ^ 31 ∧ d'.getBlob type idx = some bytes ∧
      (∀ i data, d.getBlob type i = some data → d'.getBlob type i = some data) ∧
      ∀ kind, d'.column kind = d.column kind := by
  obtain ⟨⟨ptr, i, t⟩, halloc, hrest⟩ := Option.bind_eq_some_iff.1 h
  cases hrest
  have ht := hd.tableFor type bytes.length
  obtain ⟨-, hlt, -, rfl, -⟩ := BlobTable.alloc_eq_some halloc
  have hget : ∀ i, (d.setTable type (t.write ptr bytes)).getBlob type i = (t.write ptr bytes).get i := by
    simp [getBlob, lookup_setTable]
  have hwrite := BlobTable.get_alloc_write ht halloc
  refine ⟨hd.setTable type ((ht.alloc halloc).write ptr bytes), hlt, ?_, fun i data hi => ?_, ?_⟩
  · rw [hget, hwrite, if_pos rfl]
  · rw [hget, hwrite]
    rw [← get_tableFor d type bytes.length] at hi
    split
    · next he =>
      -- The new index is past every blob there was.
      subst he
      simp [BlobTable.get] at hi
    · exact hi
  · intro kind
    cases kind <;> rfl

/-- The pools hold values of the literals among `keys`, the blobs in the
table of strings. -/
structure Bounded (d : PropertyData) (keys : List TermKey) : Prop extends d.Valid where
  column : ∀ kind, (d.column kind).length ≤ keys.length
  strings : ∀ e ∈ d.blobs, e.1 = .string
  count : ∀ e ∈ d.blobs, e.2.blobs.length ≤ keys.length
  sizes : ∀ e ∈ d.blobs, ∀ b ∈ e.2.blobs, ∃ datatype data, .literal datatype data ∈ keys ∧ b.2 = data.length

section

variable {keys keys' : List TermKey} {datatype : Bytes}

theorem bounded_create (propCapacity : Int) : (create propCapacity).Bounded [] where
  toValid := valid_create _
  column kind := by cases kind <;> exact Nat.le_refl 0
  strings := by simp [create]
  count := by simp [create]
  sizes := by simp [create]

theorem Bounded.mono (h : d.Bounded keys) (hk : keys <+: keys') : d.Bounded keys' where
  toValid := h.toValid
  column kind := (h.column kind).trans hk.length_le
  strings := h.strings
  count e he := (h.count e he).trans hk.length_le
  sizes e he b hb := by
    obtain ⟨datatype, data, hmem, hlen⟩ := h.sizes e he b hb
    exact ⟨datatype, data, hk.subset hmem, hlen⟩

theorem Bounded.addFixed (h : d.Bounded keys) (kind : RdfDatatype.Kind) (v : BitVec 64) (k : TermKey) :
    (d.addFixed kind v).2.Bounded (keys ++ [k]) := by
  have hblobs := addFixed_blobs d kind v
  have hmono := h.mono (prefix_append keys [k])
  refine ⟨⟨hblobs ▸ h.nodup, hblobs ▸ h.table⟩, fun kind' => ?_, hblobs ▸ hmono.strings, hblobs ▸ hmono.count,
    hblobs ▸ hmono.sizes⟩
  rw [length_append]
  exact (column_addFixed d kind kind' v).2.trans (Nat.succ_le_succ (h.column kind'))

/-- The table of a type is the one there is, or has no blobs. -/
theorem tableFor_cases (d : PropertyData) (type : XsdType) (len : Nat) :
    (∃ e ∈ d.blobs, e.2 = d.tableFor type len) ∨ (d.tableFor type len).blobs = [] := by
  unfold PropertyData.tableFor
  cases ht : d.blobs.lookup type with
  | none => exact .inr rfl
  | some t => exact .inl ⟨_, Assoc.mem_of_lookup ht, rfl⟩

theorem Bounded.addBlob {idx : Nat} {data : Bytes} (h : d.Bounded keys)
    (hadd : d.addBlob .string data = some (idx, d')) : d'.Bounded (keys ++ [.literal datatype data]) := by
  obtain ⟨hval, -, -, -, hcols⟩ := addBlob_spec h.toValid hadd
  have hmono := h.mono (prefix_append keys [.literal datatype data])
  obtain ⟨⟨ptr, i, t⟩, halloc, hrest⟩ := Option.bind_eq_some_iff.1 hadd
  cases hrest
  obtain ⟨-, -, -, -, rfl⟩ := BlobTable.alloc_eq_some halloc
  have hold := d.tableFor_cases .string data.length
  refine ⟨hval, hmono.column, ?_, fun e he => ?_, fun e he b hb => ?_⟩
  · exact forall_mem_cons.2 ⟨rfl, fun e he => h.strings e (mem_of_mem_filter he)⟩
  · obtain rfl | he := mem_cons.1 he
    · show (_ ++ [_]).length ≤ _
      rw [length_append, length_append]
      refine Nat.succ_le_succ ?_
      obtain ⟨e, he, htable⟩ | hnil := hold
      · rw [← htable]
        exact h.count e he
      · simp [hnil]
    · exact hmono.count e (mem_of_mem_filter he)
  · obtain rfl | he := mem_cons.1 he
    · obtain hb | hb := mem_append.1 (hb)
      · obtain ⟨e, he, htable⟩ | hnil := hold
        · exact hmono.sizes e he b (htable ▸ hb)
        · simp [hnil] at hb
      · rw [mem_singleton.1 hb]
        exact ⟨datatype, data, by simp, rfl⟩
    · exact hmono.sizes e (mem_of_mem_filter he) b hb

/-- **Storing a value** keeps the others, and reads back as its bytes. -/
theorem storeValue_spec (hd : d.Bounded keys) (hn : keys.length < 2 ^ 31)
    (hfits : enc.Fits datatype) (h : d.storeValue enc = some (value, d')) :
    d'.Bounded (keys ++ [.literal datatype enc.bytes]) ∧ Extends d d' ∧
      d'.valueBytes datatype value = some enc.bytes := by
  cases enc with
  | inlined bits =>
    cases h
    refine ⟨hd.mono (prefix_append _ _), fun _ _ _ h => h, ?_⟩
    have hw : (RdfDatatype.inlineWidth datatype).isSome := hfits
    simp [valueBytes, hw, EncodedValue.bytes]
  | fixed kind v =>
    cases h
    obtain ⟨hw, hk⟩ := hfits
    obtain ⟨hidx, hget⟩ := addFixed_get d kind v
    refine ⟨hd.addFixed kind v _, ?_, ?_⟩
    · exact extends_of (fun kind' => (column_addFixed d kind kind' v).1) fun idx data h => by
        rwa [getBlob, addFixed_blobs]
    · have hlt : (d.addFixed kind v).1 < 2 ^ 32 := by
        have := hd.column kind
        omega
      simp [valueBytes, hw, hk, UInt32.toNat_ofNat_of_lt' hlt, hget, EncodedValue.bytes]
  | blob data =>
    obtain ⟨⟨idx, d₁⟩, hadd, h⟩ := Option.map_eq_some_iff.1 h
    cases h
    obtain ⟨hw, hk⟩ := hfits
    obtain ⟨-, hlt, hget, hold, hcols⟩ := addBlob_spec hd.toValid hadd
    refine ⟨hd.addBlob hadd, ?_, ?_⟩
    · exact extends_of (fun kind => hcols kind ▸ prefix_refl _) hold
    · have hlt' : idx < 2 ^ 32 := by omega
      simp [valueBytes, hw, hk, UInt32.toNat_ofNat_of_lt' hlt', hget, EncodedValue.bytes]

end

end PropertyData

/-! ## The store -/

/-- A pool nothing was given back to hands out the slot at its mark. -/
theorem Pool.alloc_of_free_nil {p q : Pool} {id : Int} (hf : p.free = []) (h : p.alloc = some (id, q)) :
    id = p.mark ∧ q = { p with mark := p.mark + 1 } ∧ p.mark < p.cap := by
  unfold Pool.alloc at h
  rw [hf] at h
  simp only at h
  split at h
  · next hlt =>
    cases h
    exact ⟨rfl, by rw [hf], hlt⟩
  · cases h

/-- What a relationship links, its type and its payload. -/
def RelEntry.link (e : RelEntry Int) : Int × Int × Int × Int :=
  (e.firstNodeId, e.typeId.toInt, e.secondNodeId, e.payload)

namespace PropertyStore

/-- Node `id` is the literal with this datatype and these bytes: its property
`p` names the datatype's node `dt`, its type and its value. -/
structure Stored (s : PropertyStore) (keys : List TermKey) (id : Nat) (datatype data : Bytes) (dt : Nat) (p : Int) :
    Prop where
  datatypeNode : keys[dt]? = some (.iri datatype)
  payload : (s.graph.nodes id).payload = p
  nonneg : 0 ≤ p
  lt : p < s.propPool.mark
  key : (s.props p).key = UInt32.ofNat dt
  type : (s.props p).type = UInt32.ofNat (XsdType.fromIri (some datatype)).toInt32
  value : s.propData.valueBytes datatype (s.props p).value = some data

/-- The store has `n` nodes, and the first of them are `keys`. -/
structure Holds (s : PropertyStore) (n : Nat) (keys : List TermKey) : Prop where
  wf : ∃ L, s.graph.WellFormed L
  nodeMark : s.graph.nodePool.mark = n
  nodeFree : s.graph.nodePool.free = []
  range : s.toPropertyGraph.InRange
  propPool : s.propPool.Machine
  propFree : s.propPool.free = []
  data : s.propData.Bounded keys
  len : keys.length ≤ n
  fresh : ∀ id : Nat, keys.length ≤ id → id < n → (s.graph.nodes id).payload = graphNone
  resource : ∀ (id : Nat) k, keys[id]? = some k → k.isLiteral = false → (s.graph.nodes id).payload = graphNone
  literal : ∀ (id : Nat) datatype data, keys[id]? = some (.literal datatype data) →
    ∃ dt p, s.Stored keys id datatype data dt p

/-- The relationships are untouched. -/
structure SameRels (s s' : PropertyStore) : Prop where
  rels : s'.graph.rels = s.graph.rels
  relPool : s'.graph.relPool = s.graph.relPool

theorem SameRels.refl (s : PropertyStore) : SameRels s s := ⟨rfl, rfl⟩

theorem SameRels.trans {s s' s'' : PropertyStore} (h : SameRels s s') (h' : SameRels s' s'') : SameRels s s'' :=
  ⟨h'.rels.trans h.rels, h'.relPool.trans h.relPool⟩

variable {s s' : PropertyStore} {n : Nat} {keys : List TermKey}

theorem holds_create {nodeCapacity relCapacity propCapacity : Int} (hn : IsCapacity nodeCapacity)
    (hr : IsCapacity relCapacity) (hp : IsCapacity propCapacity) :
    (create nodeCapacity relCapacity propCapacity).Holds 0 [] where
  wf := ⟨_, .create hn.1 hr.1⟩
  nodeMark := rfl
  nodeFree := rfl
  range := .create hn.2 hr.2 hp.2
  propPool := ⟨Int.le_refl 0, hp.1, hp.2⟩
  propFree := rfl
  data := PropertyData.bounded_create _
  len := Nat.le_refl 0
  fresh := by simp
  resource := by simp
  literal := by simp

theorem Holds.lt_cap (h : s.Holds n keys) : n < 2 ^ 31 := by
  obtain ⟨L, hwf⟩ := h.wf
  have hle := hwf.nodePool.mark_le
  have hmark := h.nodeMark
  have hcap := h.range.graph.nodeCap
  omega

/-- Every node is in use. -/
theorem Holds.inUse (h : s.Holds n keys) {id : Nat} (hid : id < n) : (s.graph.nodes id).inUse := by
  obtain ⟨L, hwf⟩ := h.wf
  have hslot := (hwf.nodePool.slot id).1 (by have := h.nodeMark; omega)
  simpa [h.nodeFree] using hslot

/-- A literal stays stored when the records and values it rests on stay. -/
theorem Stored.mono {keys' : List TermKey} {id dt : Nat} {datatype data : Bytes} {p : Int}
    (h : s.Stored keys id datatype data dt p) (hkeys : keys <+: keys')
    (hpay : (s'.graph.nodes id).payload = (s.graph.nodes id).payload) (hmark : s.propPool.mark ≤ s'.propPool.mark)
    (hprop : ∀ p, 0 ≤ p → p < s.propPool.mark → s'.props p = s.props p)
    (hdata : PropertyData.Extends s.propData s'.propData) : s'.Stored keys' id datatype data dt p where
  datatypeNode := getElem?_of_isPrefix hkeys h.datatypeNode
  payload := hpay.trans h.payload
  nonneg := h.nonneg
  lt := h.lt.trans_le hmark
  key := by rw [hprop p h.nonneg h.lt, h.key]
  type := by rw [hprop p h.nonneg h.lt, h.type]
  value := by rw [hprop p h.nonneg h.lt]; exact hdata _ _ _ h.value

theorem addNode_eq_some (h : s.addNode = some s') : ∃ id q, s.graph.nodePool.alloc = some (id, q) ∧
    s' = { s with
      graph := { s.graph with nodes := update s.graph.nodes id ⟨graphNone, true, graphNone⟩, nodePool := q } } := by
  obtain ⟨⟨id, g⟩, hadd, rfl⟩ := Option.map_eq_some_iff.1 h
  obtain ⟨graph, hgraph, rfl⟩ := addNode_eq_some.1 hadd
  obtain ⟨q, hq, rfl⟩ := Graph.addNode_eq_some.1 hgraph
  exact ⟨id, q, hq, rfl⟩

/-- **One more node**, not a term yet. -/
theorem Holds.addNode (h : s.Holds n keys) (hrun : s.addNode = some s') : s'.Holds (n + 1) keys ∧ SameRels s s' := by
  obtain ⟨id, q, hq, rfl⟩ := addNode_eq_some hrun
  obtain ⟨rfl, rfl, hlt⟩ := Pool.alloc_of_free_nil h.nodeFree hq
  obtain ⟨L, hwf⟩ := h.wf
  have hmark := h.nodeMark
  have hlen := h.len
  have hpay : ∀ id : Nat, id < n → (update s.graph.nodes s.graph.nodePool.mark ⟨graphNone, true, graphNone⟩ id).payload =
      (s.graph.nodes id).payload := by
    intro id hid
    rw [update_of_ne (by omega)]
  have hgraph := Graph.addNode_eq_some (p := graphNone).2 ⟨_, hq, rfl⟩
  refine ⟨⟨⟨_, hwf.addNode hgraph⟩, ?_, h.nodeFree, { h.range with graph := h.range.graph.addNode hgraph }, h.propPool,
    h.propFree, h.data, ?_, ?_, ?_, ?_⟩, rfl, rfl⟩
  · simp only [hmark]
    rfl
  · omega
  · intro id hid hlt
    rcases Nat.lt_or_ge id n with hn | hn
    · exact (hpay id hn).trans (h.fresh id hid hn)
    · obtain rfl : id = n := by omega
      simp only [hmark, update_self]
  · intro id k hk hres
    have hid : id < n := (List.getElem?_eq_some_iff.1 hk).1.trans_le hlen
    exact (hpay id hid).trans (h.resource id k hk hres)
  · intro id datatype data hk
    have hid : id < n := (List.getElem?_eq_some_iff.1 hk).1.trans_le hlen
    obtain ⟨dt, p, hst⟩ := h.literal id datatype data hk
    exact ⟨dt, p, hst.mono (prefix_refl _) (hpay id hid) (Int.le_refl _) (fun _ _ _ => rfl) fun _ _ _ h => h⟩

/-- The next node becomes a resource. -/
theorem Holds.pushResource {k : TermKey} (h : s.Holds n keys) (hlen : keys.length < n) (hk : k.isLiteral = false) :
    s.Holds n (keys ++ [k]) := by
  refine { h with data := h.data.mono (prefix_append _ _), len := ?_, fresh := ?_, resource := ?_, literal := ?_ }
  · simpa using Nat.succ_le_of_lt hlen
  · intro id hid hn
    exact h.fresh id (by simp at hid; omega) hn
  · intro id k' hk' hres
    obtain hold | ⟨rfl, rfl⟩ := getElem?_append_singleton_iff.1 hk'
    · exact h.resource id k' hold hres
    · exact h.fresh _ (Nat.le_refl _) hlen
  · intro id datatype data hk'
    obtain hold | ⟨rfl, rfl⟩ := getElem?_append_singleton_iff.1 hk'
    · obtain ⟨dt, p, hst⟩ := h.literal id datatype data hold
      exact ⟨dt, p, hst.mono (prefix_append _ _) rfl (Int.le_refl _) (fun _ _ _ => rfl) fun _ _ _ h => h⟩
    · cases hk

/-- `addNodeProperty` on a node without properties. -/
theorem addNodeProperty_eq_some {node : Int} {key type : UInt32}
    (hnode : (s.graph.nodes node).payload = graphNone) (h : s.addNodeProperty node key type value = some s') :
    ∃ id q, s.propPool.alloc = some (id, q) ∧ s' = { s with
      graph := s.graph.setNodePayload node id
      props := update s.props id ⟨graphNone, graphNone, key, type, value, true⟩
      propPool := q } := by
  obtain ⟨⟨id, g⟩, hadd, rfl⟩ := Option.map_eq_some_iff.1 h
  obtain ⟨q, hq, rfl⟩ := addPropertyToChain_eq_some.1 hadd
  refine ⟨id, q, hq, ?_⟩
  have hhead : s.toPropertyGraph.chainHead (.node node) = graphNone := hnode
  simp [pushProp, hhead, setChainHead, setProp]

theorem addNodeProperty_isSome (h : s.propPool.HasRoom) (node : Int) (key type value : UInt32) :
    ∃ s', s.addNodeProperty node key type value = some s' := by
  obtain ⟨⟨id, q⟩, hq⟩ := Pool.alloc_isSome h
  exact ⟨_, Option.map_eq_some_iff.2 ⟨_, addPropertyToChain_eq_some.2 ⟨q, hq, rfl⟩, rfl⟩⟩

/-- **The next node becomes a literal.** -/
theorem Holds.addLiteral {datatype : Bytes} {dt : Nat} {d : PropertyData}
    (h : s.Holds n keys) (hlen : keys.length < n) (hdt : keys[dt]? = some (.iri datatype)) (hfits : enc.Fits datatype)
    (hvalue : s.propData.storeValue enc = some (value, d))
    (hrun : addNodeProperty { s with propData := d } keys.length (UInt32.ofNat dt)
      (UInt32.ofNat (XsdType.fromIri (some datatype)).toInt32) value = some s') :
    s'.Holds n (keys ++ [.literal datatype enc.bytes]) ∧ SameRels s s' := by
  obtain ⟨hd, hext, hbytes⟩ := PropertyData.storeValue_spec h.data (hlen.trans h.lt_cap) hfits hvalue
  have hfresh := h.fresh keys.length (Nat.le_refl _) hlen
  obtain ⟨id, q, hq, rfl⟩ := addNodeProperty_eq_some (s := { s with propData := d }) hfresh hrun
  obtain ⟨rfl, rfl, hroom⟩ := Pool.alloc_of_free_nil h.propFree hq
  obtain ⟨L, hwf⟩ := h.wf
  have hnonneg := h.propPool.mark_nonneg
  have hpropCap := h.propPool.cap_lt
  have hmark : IsInt32 s.propPool.mark := ⟨by omega, by omega⟩
  have hpay : ∀ i : Nat, i ≠ keys.length →
      ((s.graph.setNodePayload keys.length s.propPool.mark).nodes i).payload = (s.graph.nodes i).payload := by
    intro i hi
    simp only [Graph.setNodePayload, Graph.setNode]
    rw [update_of_ne (by omega)]
  have hne : ∀ {i : Nat} {k : TermKey}, keys[i]? = some k → i ≠ keys.length := fun hk =>
    Nat.ne_of_lt (List.getElem?_eq_some_iff.1 hk).1
  refine ⟨⟨⟨L, hwf.onlyPayload (.setNode ..)⟩, h.nodeMark, h.nodeFree, ?_, ?_, h.propFree, ?_, ?_, ?_, ?_, ?_⟩,
    rfl, rfl⟩
  · have hprop := h.range.setProp (i := s.propPool.mark) (e := ⟨graphNone, graphNone, UInt32.ofNat dt, UInt32.ofNat
      (XsdType.fromIri (some datatype)).toInt32, value, true⟩) ⟨.none, .none⟩
    exact { hprop.setChainHead (o := .node keys.length) hmark with propCap := h.range.propCap }
  · exact ⟨Int.le_add_one hnonneg, hroom, h.propPool.cap_lt⟩
  · exact hd
  · simpa using Nat.succ_le_of_lt hlen
  · intro i hi hn
    simp only [length_append, length_singleton] at hi
    exact (hpay i (by omega)).trans (h.fresh i (by omega) hn)
  · intro i k hk hres
    obtain hold | ⟨-, rfl⟩ := getElem?_append_singleton_iff.1 hk
    · exact (hpay i (hne hold)).trans (h.resource i k hold hres)
    · cases hres
  · intro i datatype' data hk
    obtain hold | ⟨rfl, hkey⟩ := getElem?_append_singleton_iff.1 hk
    · obtain ⟨dt', p, hst⟩ := h.literal i datatype' data hold
      refine ⟨dt', p, hst.mono (prefix_append _ _) (hpay i (hne hold)) ?_ (fun p _ hp => ?_) hext⟩
      · exact Int.le_add_one (Int.le_refl _)
      · exact update_of_ne (by omega) _ _
    · cases hkey
      refine ⟨dt, s.propPool.mark, ?_, ?_, hnonneg, Int.lt_add_one_of_le (Int.le_refl _), ?_, ?_, ?_⟩
      · exact (List.getElem?_append_left (List.getElem?_eq_some_iff.1 hdt).1).trans hdt
      · simp [Graph.setNodePayload, Graph.setNode]
      · simp
      · simp
      · simpa using hbytes

/-! ## Relationships -/

/-- **A relationship** between two nodes, and its payload. -/
theorem Holds.addRelationship {src dst rel p : Int} {type : UInt32} (h : s.Holds n keys) (hp : IsInt32 p)
    (hfree : s.graph.relPool.free = []) (hsrc : (s.graph.nodes src).inUse)
    (hdst : (s.graph.nodes dst).inUse) (hrun : s.addRelationship src dst type = some (rel, s')) :
    (s'.setRelPayload rel p).Holds n keys ∧ rel = s.graph.relPool.mark ∧
      (s'.setRelPayload rel p).graph.relPool = { s.graph.relPool with mark := s.graph.relPool.mark + 1 } ∧
      ∀ r, ((s'.setRelPayload rel p).graph.rels r).link =
        if r = rel then (src, type.toInt32.toInt, dst, p) else (s.graph.rels r).link := by
  obtain ⟨⟨_, _⟩, hadd, he⟩ := Option.map_eq_some_iff.1 hrun
  cases he
  obtain ⟨graph, hgraph, rfl⟩ := addRelationship_eq_some.1 hadd
  obtain ⟨L, hwf⟩ := h.wf
  obtain ⟨⟨q, hq, hshape⟩, hwf'⟩ := hwf.addRelationship hsrc hdst hgraph
  obtain ⟨rfl, rfl, -⟩ := Pool.alloc_of_free_nil hfree hq
  have hpay := Graph.OnlyPayload.setRel graph s.graph.relPool.mark p
  have hnodes : ∀ id : Int, (graph.nodes id).payload = (s.graph.nodes id).payload := hshape.nodePayload
  refine ⟨⟨⟨_, hwf'.onlyPayload hpay⟩, ?_, ?_, ?_, h.propPool, h.propFree, h.data, h.len, ?_, ?_, ?_⟩, rfl,
    hshape.relPool, fun r => ?_⟩
  · exact (congrArg Pool.mark hshape.nodePool).trans h.nodeMark
  · exact (congrArg Pool.free hshape.nodePool).trans h.nodeFree
  · have hrange := h.range.graph.addRelationship hwf hsrc hdst hgraph
    exact PropertyGraph.InRange.setChainHead (o := .rel _) { h.range with graph := hrange } hp
  · intro id hid hn
    exact (hnodes id).trans (h.fresh id hid hn)
  · intro id k hk hres
    exact (hnodes id).trans (h.resource id k hk hres)
  · intro id datatype data hk
    obtain ⟨dt, q, hst⟩ := h.literal id datatype data hk
    exact ⟨dt, q, hst.mono (prefix_refl _) (hnodes id) (Int.le_refl _) (fun _ _ _ => rfl) fun _ _ _ h => h⟩
  · show ((graph.setRelPayload s.graph.relPool.mark p).rels r).link = _
    simp only [Graph.setRelPayload, Graph.setRel]
    split
    · next hr => simp [hr, RelEntry.link, hshape.first, hshape.second, hshape.type, Graph.withFresh, Graph.freshRel]
    · next hr =>
      simp [RelEntry.link, hshape.first, hshape.second, hshape.type, hshape.relPayload, Graph.withFresh,
        update_of_ne hr]

theorem addRelationship_isSome (h : s.graph.relPool.HasRoom) (src dst : Int) (type : UInt32) :
    ∃ rel s', s.addRelationship src dst type = some (rel, s') := by
  obtain ⟨rel, graph, hrel⟩ := Graph.addRelationship_isSome h src dst type graphNone
  exact ⟨rel, _, Option.map_eq_some_iff.2 ⟨_, addRelationship_eq_some.2 ⟨graph, hrel, rfl⟩, rfl⟩⟩

end PropertyStore
end GengoDB
