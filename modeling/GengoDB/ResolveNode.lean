/-
From variants back to nodes (`VariantRuntime::resolveNode`). A node of a graph
becomes a variant by `createNodeRef`; resolved in the same or another graph it
should give the node there that denotes the same term, or none.

Literals of the numeric datatypes and strings, integers and decimals are
looked up by their datatype and bytes, which are those the graph interned them
by (`Described.inline_data`, `text_data`). The other payloads are node references, which another
graph refuses, and two datatypes are taken for internal tags:
`xsd:unspecified` resolves to nothing and the reference of an
`xsd:anyLiteralScalar` is read as a string (`resolveNode_iff`).
-/
import GengoDB.RdfReload
import GengoDB.VariantTyping

namespace GengoDB

open TypedVariant

open XsdType hiding node

open Codec (putLE)

/-! ## Datatypes of tags -/

namespace XsdType

/-- `to_string`. -/
def toString (t : XsdType) : String := ((names.find? fun e => e.2 = t).map (·.1)).getD ""

def toDatatypeIri (t : XsdType) : Bytes := xsdIri t.toString

end XsdType

/-! ## `resolveNode` -/

inductive ResolveError where
  | confused (c : Confusion)
  | runtimeError (message : String)
  deriving DecidableEq

def Decoded.orConfused {α : Type} : Decoded α → Except ResolveError α
  | .ok a => .ok a
  | .error c => .error (.confused c)

namespace TypedVariant

/-- The node of a reference into the graph at `address`. -/
def resolveRef (address : Nat) (v : TypedVariant) : Except ResolveError (Option Nat) := do
  let ref ← (v.readNode .lhs).orConfused
  if ref.graph = address then return some ref.id
  else .error (.runtimeError "unsupported: cross graph node resolving from variant")

/-- `hasNodePayload`: the literals whose payload is still the node. -/
def hasNodePayload (t : XsdType) : Bool :=
  match t with
  | .unspecified | .string | .integer | .decimal | .anyLiteralScalar => false
  | _ => t.classifyStorage.1 = .blob

/-- `VariantRuntime::resolveNode` in the graph `g` at `address`; `none` is
-1. -/
def resolveNode (g : RdfGraph) (address : Nat) (v : TypedVariant) : Except ResolveError (Option Nat) :=
  if v.tag = .node then v.resolveRef address
  else if v.tag = .anyIRI then do
    let iri ← (v.readText .lhs).orConfused
    return g.nodeFromIri (iri.getD [])
  else
    match v.tag.fromInt32 with
    | none | some .unspecified => .ok none
    | some t =>
      if hasNodePayload t then v.resolveRef address
      else if t.isByteString then do
        let s ← (v.readText .lhs).orConfused
        return g.nodeFromRdfLiteral t.toDatatypeIri (0 :: s.getD [])
      else if t = .anyLiteralScalar then do
        let raw ← (v.readScalar .lhs).orConfused
        let dtLen := littleEndian (raw.take 4)
        return g.nodeFromRdfLiteral ((raw.drop 4).take dtLen) (0 :: (raw.drop 4).drop dtLen)
      else do
        let payload ← (v.readInline .lhs).orConfused
        if t.classifyStorage.1 = .inline32 then
          return g.nodeFromRdfLiteral t.toDatatypeIri (putLE 4 (lowBytes t.classifyStorage.2 payload).toNat)
        else return g.nodeFromRdfLiteral t.toDatatypeIri (putLE 8 payload.toNat)

end TypedVariant

/-! ## Nodes in memory -/

namespace RdfGraph

/-- The property of a literal. -/
def propOf (g : RdfGraph) (id : Nat) : PropRecord := g.store.props (g.store.graph.nodes id).payload

end RdfGraph

/-- What the runtime finds behind a reference to node `id` of `g`, as far as
`createNodeRef` looks at it. -/
structure NodeView.Of (entry : NodeView) (g : RdfGraph) (id : Nat) : Prop where
  payload : entry.payload = (g.store.graph.nodes id).payload
  propType : ∀ t, XsdType.ofInt32 (g.propOf id).type.toNat = some t → entry.propType = t
  propValue : entry.propValue = (g.propOf id).value.toBitVec
  i64 : ∀ v, g.store.propData.i64[(g.propOf id).value.toNat]? = some v → entry.i64 = v
  ui64 : ∀ v, g.store.propData.ui64[(g.propOf id).value.toNat]? = some v → entry.ui64 = v
  dbl : ∀ v, g.store.propData.double[(g.propOf id).value.toNat]? = some v → entry.dbl = v
  blob : ∀ langLen rest, g.store.propData.getBlob .string (g.propOf id).value.toNat = some (langLen :: rest) →
    entry.lang = rest.take langLen.val ∧ entry.lex = rest.drop langLen.val

/-! ## Datatypes and storage -/

namespace XsdType

theorem toString_of_mem : ∀ e ∈ names, e.2.toString = e.1 := by decide +kernel

variable {t : XsdType}

/-- Every datatype but those of two tags is the IRI of its tag. -/
theorem eq_toDatatypeIri {iri : Bytes} (ht : fromIri (some iri) = t) (hlang : t ≠ langString)
    (hnode : t ≠ anyLiteralNode) : iri = t.toDatatypeIri := by
  subst ht
  unfold fromIri at hlang hnode ⊢
  dsimp only at hlang hnode ⊢
  split at hlang
  · exact absurd rfl hlang
  · next h₁ =>
    rw [if_neg h₁] at hnode ⊢
    split at hnode
    · exact absurd rfl hnode
    · next h₂ =>
      rw [if_neg h₂]
      split at hnode
      · exact absurd rfl hnode
      · next h₃ =>
        rw [if_neg h₃]
        unfold fromString at hnode ⊢
        cases hfind : names.find? fun e => ascii e.1 == iri.drop xsdNamespace.length with
        | none =>
          rw [hfind] at hnode
          exact absurd rfl hnode
        | some e =>
          have hname := List.find?_some hfind
          rw [beq_iff_eq] at hname
          have hpre : xsdNamespace ++ iri.drop xsdNamespace.length = iri := List.prefix_iff_eq_append.1 (not_not.1 h₂)
          show iri = toDatatypeIri e.2
          rw [toDatatypeIri, toString_of_mem e (List.mem_of_find?_eq_some hfind), xsdIri, hname, hpre]

/-- The small values are stored in the width their tag is read with. -/
theorem inlineWidth_toDatatypeIri : ∀ t ∈ names.map (·.2), RdfDatatype.inlineWidth t.toDatatypeIri =
    if t.classifyStorage.1 = .inline32 then some t.classifyStorage.2 else none := by
  decide +kernel

/-- The pool of a 64-bit storage. -/
def kind : XsdType → Option RdfDatatype.Kind
  | long => some .int64
  | unsignedLong => some .uint64
  | double => some .double
  | date => some .date
  | dateTime => some .dateTime
  | _ => none

theorem shape_of_kind {k : RdfDatatype.Kind} (h : t.kind = some k) : t.classifyStorage.1 ≠ .inline32 := by
  revert h
  cases t <;> simp [kind, classifyStorage]

theorem shape_of_isByteString (h : t.isByteString) : t.classifyStorage.1 ≠ .inline32 ∧ t.kind = none := by
  revert h
  cases t <;> decide

theorem kindOf_toDatatypeIri : ∀ t ∈ names.map (·.2), RdfDatatype.kindOf t.toDatatypeIri = t.kind := by
  decide +kernel

end XsdType

theorem putLE_inj {n x y : Nat} (hx : x < 256 ^ n) (hy : y < 256 ^ n) (h : putLE n x = putLE n y) : x = y := by
  have hval := congrArg Codec.valueLE h
  rwa [Codec.valueLE_putLE, Codec.valueLE_putLE, Nat.mod_eq_of_lt hx, Nat.mod_eq_of_lt hy] at hval

theorem toNat_lowBytes {w : Nat} (hw : w ≤ 8) (x : BitVec 64) : (lowBytes w x).toNat = x.toNat % 2 ^ (8 * w) := by
  unfold lowBytes
  have hle : 2 ^ (8 * w) ≤ 2 ^ 64 := Nat.pow_le_pow_right (by decide) (by omega)
  rw [BitVec.toNat_setWidth, BitVec.toNat_setWidth]
  exact Nat.mod_eq_of_lt (Nat.lt_of_lt_of_le (Nat.mod_lt _ (Nat.two_pow_pos _)) hle)

theorem lowBytes_of_writeLow (w : Nat) (value buffer : BitVec 64) :
    lowBytes w (writeLow w value buffer) = lowBytes w value := by
  unfold lowBytes
  rw [lowBytes_writeLow]

theorem writeLow_eight (value buffer : BitVec 64) : writeLow 8 value buffer = value := by
  have h := lowBytes_writeLow 8 value buffer
  rwa [BitVec.setWidth_eq, BitVec.setWidth_eq] at h

namespace RdfGraph

variable {g : RdfGraph} {keys : List TermKey} {id : Nat} {datatype data : Bytes} {entry : NodeView}
  {k : TermKey} {t : XsdType}

section

variable (h : g.Described keys)
include h

/-- A small value has no bits above its width. -/
theorem Described.inline_lt {w : Nat} {value : UInt32}
    (hmem : .literal datatype data ∈ keys) (hw : RdfDatatype.inlineWidth datatype = some w)
    (hdata : data = putLE 4 value.toNat) : value.toNat < 2 ^ (8 * w) := by
  obtain ⟨t, ht⟩ := h.terms _ hmem
  cases t with
  | iri a => cases ht
  | bnode label => cases ht
  | literal l =>
    obtain ⟨enc, henc, hkey⟩ := Option.map_eq_some_iff.1 ht
    cases hkey
    simp only [Literal.encode, hw] at henc
    split at henc
    · next v _ =>
      cases henc
      have heq := putLE_inj (UInt32.toNat_lt _) (UInt32.toNat_lt _) hdata
      rw [← heq]
      show ((v.setWidth (8 * w)).setWidth 32).toNat < _
      rw [BitVec.toNat_setWidth]
      exact Nat.lt_of_le_of_lt (Nat.mod_le _ _) (BitVec.isLt _)
    · cases henc

/-- A node that is a literal has the tag of its datatype. -/
theorem Described.tag_literal (hid : keys[id]? = some (.literal datatype data))
    (hof : entry.Of g id) : entry.tag = .fromIri (some datatype) := by
  obtain ⟨dt, p, hst⟩ := h.store.literal id datatype data hid
  have hpay : entry.payload = p := hof.payload.trans hst.payload
  have htype : (g.propOf id).type = UInt32.ofNat (fromIri (some datatype)).toInt32 := by
    rw [propOf, hst.payload]
    exact hst.type
  have hnat : (UInt32.ofNat (fromIri (some datatype)).toInt32).toNat =
      (fromIri (some datatype)).toInt32 :=
    UInt32.toNat_ofNat_of_lt' ((toInt32_lt _).trans (by decide))
  rw [NodeView.tag, if_neg (by rw [hpay]; exact Int.not_lt.2 hst.nonneg)]
  exact hof.propType _ (by rw [htype, hnat, ofInt32_toInt32])

theorem Described.tag_resource (hid : keys[id]? = some k) (hk : k.isLiteral = false)
    (hof : entry.Of g id) : entry.tag = .node := by
  have hpay : entry.payload = graphNone := hof.payload.trans (h.store.resource id k hid hk)
  rw [NodeView.tag, if_pos (by rw [hpay]; decide)]

/-- The nodes of an opened graph are among those queries are built from. -/
theorem Described.loadable (hid : keys[id]? = some k) (hof : entry.Of g id) : entry.Loadable := by
  intro hnonneg
  have htype : entry.tag = entry.propType := if_neg (Int.not_lt.2 hnonneg)
  cases hk : k.isLiteral with
  | false =>
    have hpay : entry.payload = graphNone := hof.payload.trans (h.store.resource id k hid hk)
    rw [hpay] at hnonneg
    exact absurd hnonneg (by decide)
  | true =>
    cases k with
    | literal datatype data => exact ⟨datatype, htype.symm.trans (h.tag_literal hid hof)⟩
    | _ => cases hk

theorem Described.valueBytes (hid : keys[id]? = some (.literal datatype data)) :
    g.store.propData.valueBytes datatype (g.propOf id).value = some data := by
  obtain ⟨dt, p, hst⟩ := h.store.literal id datatype data hid
  rw [propOf, hst.payload]
  exact hst.value

/-! ### What is looked up is what was interned -/

theorem Described.inline_data (hid : keys[id]? = some (.literal datatype data))
    (hof : entry.Of g id) (ht : .fromIri (some datatype) = t) (hshape : t.classifyStorage.1 = .inline32)
    (scratch : BitVec 64) : t.toDatatypeIri = datatype ∧
      putLE 4 (lowBytes t.classifyStorage.2 (entry.extractNumericLiteral t scratch)).toNat = data := by
  have hmem : t ∈ names.map (·.2) := ht ▸ fromIri_mem datatype
  have hiri := eq_toDatatypeIri ht (by rintro rfl; cases hshape) (by rintro rfl; cases hshape)
  have hw := inlineWidth_toDatatypeIri t hmem
  rw [if_pos hshape, ← hiri] at hw
  have hdata : data = putLE 4 (g.propOf id).value.toNat := by
    have hval := h.valueBytes hid
    rw [PropertyData.valueBytes, hw] at hval
    exact (Option.some.inj hval).symm
  have hlt := h.inline_lt (List.mem_of_getElem? hid) hw hdata
  have hextract : entry.extractNumericLiteral t scratch =
      writeLow t.classifyStorage.2 (entry.propValue.setWidth 64) scratch := by
    have hcs : t.classifyStorage = (.inline32, t.classifyStorage.2) := Prod.ext hshape rfl
    rw [NodeView.extractNumericLiteral, hcs]
    rfl
  have hle : t.classifyStorage.2 ≤ 8 := by cases t <;> decide
  refine ⟨hiri.symm, ?_⟩
  rw [hextract, lowBytes_of_writeLow, toNat_lowBytes hle, BitVec.toNat_setWidth, hof.propValue, hdata]
  congr 1
  have h64 : (g.propOf id).value.toNat < 2 ^ 64 := (g.propOf id).value.toNat_lt.trans (by decide)
  show (g.propOf id).value.toNat % 2 ^ 64 % 2 ^ (8 * t.classifyStorage.2) = _
  rw [Nat.mod_eq_of_lt h64, Nat.mod_eq_of_lt hlt]

end

variable {kind : RdfDatatype.Kind}

theorem stored_of_kind {v : BitVec 64} (hof : entry.Of g id) (hkind : t.kind = some kind)
    (hv : (g.store.propData.column kind)[(g.propOf id).value.toNat]? = some v) (scratch : BitVec 64) :
    entry.extractNumericLiteral t scratch = v := by
  cases t <;> cases hkind
  · exact (writeLow_eight _ _).trans (hof.dbl v hv)
  · exact (writeLow_eight _ _).trans (hof.i64 v hv)
  · exact (writeLow_eight _ _).trans (hof.i64 v hv)
  · exact (writeLow_eight _ _).trans (hof.i64 v hv)
  · exact (writeLow_eight _ _).trans (hof.ui64 v hv)

section
variable (h : g.Described keys) (hid : keys[id]? = some (.literal datatype data)) (hof : entry.Of g id)
    (ht : .fromIri (some datatype) = t)
include h hid hof ht

theorem Described.wide_data (hkind : t.kind = some kind) (scratch : BitVec 64) :
    t.toDatatypeIri = datatype ∧ putLE 8 (entry.extractNumericLiteral t scratch).toNat = data := by
  have hmem : t ∈ names.map (·.2) := ht ▸ fromIri_mem datatype
  have hiri := eq_toDatatypeIri ht (by rintro rfl; cases hkind) (by rintro rfl; cases hkind)
  have hw := inlineWidth_toDatatypeIri t hmem
  have hk := kindOf_toDatatypeIri t hmem
  rw [← hiri] at hw hk
  rw [if_neg (shape_of_kind hkind)] at hw
  have hval := h.valueBytes hid
  simp only [PropertyData.valueBytes, hw, hk, hkind] at hval
  obtain ⟨v, hv, hdata⟩ := Option.map_eq_some_iff.1 hval
  refine ⟨hiri.symm, ?_⟩
  rw [stored_of_kind hof hkind hv, hdata]

/-- The bytes of a string, integer or decimal start with the length of a
language tag, which is zero. -/
theorem Described.text_data (hbytes : t.isByteString)
    (hplain : data.head? = some 0) : t.toDatatypeIri = datatype ∧ 0 :: entry.lex = data := by
  have hmem : t ∈ names.map (·.2) := ht ▸ fromIri_mem datatype
  have hiri := eq_toDatatypeIri ht (by rintro rfl; cases hbytes) (by rintro rfl; cases hbytes)
  have hw := inlineWidth_toDatatypeIri t hmem
  have hk := kindOf_toDatatypeIri t hmem
  rw [← hiri] at hw hk
  obtain ⟨hshape, hnone⟩ := shape_of_isByteString hbytes
  rw [if_neg hshape] at hw
  have hval := h.valueBytes hid
  simp only [PropertyData.valueBytes, hw, hk, hnone] at hval
  cases data with
  | nil => cases hplain
  | cons langLen rest =>
    cases hplain
    have hlex := (hof.blob 0 rest hval).2
    exact ⟨hiri.symm, by rw [hlex]; rfl⟩

end

/-- A literal is found under its datatype and bytes. -/
theorem Interned.nodeFromRdfLiteral_iff (h : g.Interned keys) :
    g.nodeFromRdfLiteral datatype data = some id ↔ keys[id]? = some (.literal datatype data) := by
  have hfound dt : g.nodes.getSafe (.ofIri datatype) = some dt ↔ keys[dt]? = some (.iri datatype) :=
    h.getSafe_iff (k := .iri datatype) rfl trivial
  rw [RdfGraph.nodeFromRdfLiteral, Option.bind_eq_some_iff]
  constructor
  · rintro ⟨dt, hdt, hcache⟩
    obtain ⟨d, hd, hid⟩ := (h.cache data dt id).1 hcache
    cases hd.symm.trans ((hfound dt).1 hdt)
    exact hid
  · intro hid
    obtain ⟨dt, hdt⟩ := List.mem_iff_getElem?.1 (h.datatype_mem hid)
    exact ⟨dt, (hfound dt).2 hdt, (h.cache data dt id).2 ⟨datatype, hdt, hid⟩⟩

end RdfGraph

/-! ## Resolving by kinds of payloads -/

namespace TypedVariant

variable {g : RdfGraph} {address : Nat} {t : XsdType}

theorem resolveNode_ref {payload : Payload} (h : t.payloadKind = .node) :
    resolveNode g address ⟨t, payload⟩ = resolveRef address ⟨t, payload⟩ := by
  cases t <;> first | rfl | exact absurd h (by decide)

theorem resolveNode_nothing {payload : Payload} (h : t.payloadKind = .nothing) :
    resolveNode g address ⟨t, payload⟩ = .ok none := by
  cases t <;> first | rfl | exact absurd h (by decide)

theorem resolveNode_scalar {ref : NodeRef} (h : t.payloadKind = .scalar) :
    resolveNode g address ⟨t, .node ref⟩ = .error (.confused ⟨.lhs⟩) := by
  cases t <;> first | rfl | exact absurd h (by decide)

theorem resolveNode_text {s : Bytes} (h : t.isByteString) :
    resolveNode g address ⟨t, .text (some s)⟩ = .ok (g.nodeFromRdfLiteral t.toDatatypeIri (0 :: s)) := by
  cases t <;> first | rfl | cases h

theorem resolveNode_inline {bits : BitVec 64} (h : t.isNumericFamily) :
    resolveNode g address ⟨t, .inline bits⟩ = .ok (g.nodeFromRdfLiteral t.toDatatypeIri
      (if t.classifyStorage.1 = .inline32 then putLE 4 (lowBytes t.classifyStorage.2 bits).toNat
        else putLE 8 bits.toNat)) := by
  cases t <;> first | rfl | cases h

end TypedVariant

/-! ## The result -/

namespace RdfGraph

/-- The graph as parsing, a reload from its cache or a reload as `BINARY`
leave it. -/
def Opened (g : RdfGraph) : Prop := ∃ keys, g.Described keys ∧ (g.Interned keys ∨ g.literalNodes = [])

/-- Only the literals of `rdf:langString` have a language. -/
def PlainStrings (g : RdfGraph) : Prop := ∀ id datatype data, g.meaning id = some (.literal datatype data) →
  (XsdType.fromIri (some datatype)).isByteString = true → data.head? = some 0

/-- `r` is the node of `g'` with the term of node `id` of `g`, or there is
none. -/
def Denotes (g g' : RdfGraph) (id : Nat) (r : Option Nat) : Prop := ∀ n, r = some n ↔ g'.meaning n = g.meaning id

def Absent (g g' : RdfGraph) (id : Nat) : Prop := ∀ n, g'.meaning n ≠ g.meaning id

theorem denotes_none {g g' : RdfGraph} {id : Nat} : Denotes g g' id none ↔ Absent g g' id :=
  forall_congr' fun n => by simp

end RdfGraph

/-- When a node with the tag `t` is resolved right. -/
def Resolvable (t : XsdType) (g : RdfGraph) (address id : Nat) (g' : RdfGraph) (address' : Nat) : Prop :=
  match t.payloadKind with
  | .inline | .text => g'.literalNodes = [] → g.Absent g' id
  | .node => address' = address
  | .nothing => g.Absent g' id
  | .scalar | .edge => False

def Shows (H : Heap) (address : Nat) (g : RdfGraph) : Prop := ∀ id < g.nodes.size, (H.view ⟨address, id⟩).Of g id

namespace RdfGraph

variable {g g' : RdfGraph} {keys : List TermKey} {id address address' : Nat} {datatype data : Bytes} {H : Heap}
  {t : XsdType}

theorem nodeFromRdfLiteral_of_nil (h : g.literalNodes = []) (datatype data : Bytes) :
    g.nodeFromRdfLiteral datatype data = none := by
  rw [nodeFromRdfLiteral, h]
  cases g.nodes.getSafe (.ofIri datatype) <;> rfl

/-- A literal that is looked up. -/
theorem Opened.denotes_iff (hg : g.meaning id = some (.literal datatype data)) (hg' : g'.Opened) :
    Denotes g g' id (g'.nodeFromRdfLiteral datatype data) ↔ (g'.literalNodes = [] → g.Absent g' id) := by
  constructor
  · intro h hnil
    rw [nodeFromRdfLiteral_of_nil hnil] at h
    exact denotes_none.1 h
  · intro h
    obtain ⟨keys, hdesc, hi | hnil⟩ := hg'
    · intro n
      rw [hi.nodeFromRdfLiteral_iff, hdesc.meaning, hg]
    · rw [nodeFromRdfLiteral_of_nil hnil]
      exact denotes_none.2 (h hnil)

theorem Described.denotes_self (h : g.Described keys) (hid : id < keys.length) : Denotes g g id (some id) := by
  intro n
  rw [h.meaning, h.meaning, Option.some.injEq]
  constructor
  · rintro rfl
    rfl
  · intro he
    rw [List.getElem?_eq_getElem hid] at he
    exact Assoc.nodup_getElem?_inj h.nodup (List.getElem?_eq_getElem hid) he

/-- A reference that is resolved. -/
theorem Described.resolveRef_iff (h : g.Described keys) (hid : id < keys.length) (hsame : address' = address → g' = g) :
    (∃ r, resolveRef address' ⟨t, .node ⟨address, id⟩⟩ = .ok r ∧ Denotes g g' id r) ↔ address' = address := by
  have hrun : resolveRef address' ⟨t, .node ⟨address, id⟩⟩ =
      if address = address' then .ok (some id)
      else .error (.runtimeError "unsupported: cross graph node resolving from variant") := rfl
  rw [hrun]
  constructor
  · rintro ⟨r, hr, -⟩
    by_contra hne
    rw [if_neg fun he => hne he.symm] at hr
    cases hr
  · intro he
    rw [if_pos he.symm, hsame he]
    exact ⟨some id, rfl, h.denotes_self hid⟩

theorem numericKind (hnum : t.isNumericFamily) (hshape : t.classifyStorage.1 ≠ .inline32) :
    ∃ kind, t.kind = some kind := by
  cases t <;> first | exact ⟨_, rfl⟩ | exact absurd rfl hshape | cases hnum

section
variable (h : g.Described keys) (hid : keys[id]? = some (.literal datatype data)) (hof : (H.view ⟨address, id⟩).Of g id)
include h hid hof

/-- A literal with an inline payload is looked up. -/
theorem Described.resolveNode_numeric (hnum : (H.view ⟨address, id⟩).tag.isNumericFamily) (scratch : BitVec 64) :
    (TypedVariant.createNodeRef H ⟨address, id⟩ scratch).resolveNode g' address' =
      .ok (g'.nodeFromRdfLiteral datatype data) := by
  have ht := (h.tag_literal hid hof).symm
  have hpayload : TypedVariant.createNodeRef H ⟨address, id⟩ scratch = ⟨(H.view ⟨address, id⟩).tag,
      .inline ((H.view ⟨address, id⟩).extractNumericLiteral (H.view ⟨address, id⟩).tag scratch)⟩ := by
    rw [TypedVariant.createNodeRef, if_pos hnum]
  rw [hpayload, resolveNode_inline hnum]
  by_cases hshape : (H.view ⟨address, id⟩).tag.classifyStorage.1 = .inline32
  · obtain ⟨hiri, hdata⟩ := h.inline_data hid hof ht hshape scratch
    rw [if_pos hshape, hiri, hdata]
  · obtain ⟨kind, hkind⟩ := numericKind hnum hshape
    obtain ⟨hiri, hdata⟩ := h.wide_data hid hof ht hkind scratch
    rw [if_neg hshape, hiri, hdata]

/-- So is one with a text. -/
theorem Described.resolveNode_text (hbytes : (H.view ⟨address, id⟩).tag.isByteString)
    (hplain : data.head? = some 0) (scratch : BitVec 64) :
    (TypedVariant.createNodeRef H ⟨address, id⟩ scratch).resolveNode g' address' =
      .ok (g'.nodeFromRdfLiteral datatype data) := by
  have hpayload : TypedVariant.createNodeRef H ⟨address, id⟩ scratch =
      ⟨(H.view ⟨address, id⟩).tag, .text (some (H.view ⟨address, id⟩).lex)⟩ := by
    unfold TypedVariant.createNodeRef
    revert hbytes
    cases (H.view ⟨address, id⟩).tag <;> first | exact fun _ => rfl | exact fun h => nomatch h
  obtain ⟨hiri, hdata⟩ := h.text_data hid hof (h.tag_literal hid hof).symm hbytes hplain
  rw [hpayload, TypedVariant.resolveNode_text hbytes, hiri, hdata]

end

/-- The payload of the other tags is the reference. -/
theorem createNodeRef_ref {ref : NodeRef} (h : (H.view ref).tag.payloadKind ≠ .inline)
    (h' : (H.view ref).tag.payloadKind ≠ .text) (scratch : BitVec 64) :
    TypedVariant.createNodeRef H ref scratch = ⟨(H.view ref).tag, .node ref⟩ := by
  unfold TypedVariant.createNodeRef
  revert h h'
  cases (H.view ref).tag <;> first | exact fun _ _ => rfl | exact fun h _ => absurd rfl h | exact fun _ h => absurd rfl h

/-- The tag of a node with a payload of its own is that of a literal's
datatype. -/
theorem Described.literal_of_kind {k : TermKey} {entry : NodeView} (h : g.Described keys) (hid : keys[id]? = some k)
    (hof : entry.Of g id) (hkind : entry.tag.payloadKind ≠ .node) :
    ∃ datatype data, k = .literal datatype data ∧ entry.tag ≠ .anyIRI ∧ entry.tag ≠ .edge := by
  cases hk : k.isLiteral with
  | false =>
    rw [h.tag_resource hid hk hof] at hkind
    exact absurd rfl hkind
  | true =>
    cases k with
    | literal datatype data =>
      rw [h.tag_literal hid hof]
      exact ⟨datatype, data, rfl, (ne_of_mem_names (fromIri_mem datatype)).2⟩
    | _ => cases hk

theorem kind_tags : (t.payloadKind = .inline → t.isNumericFamily) ∧
    (t.payloadKind = .text → t ≠ .anyIRI → t.isByteString) ∧ (t.payloadKind = .edge → t = .edge) := by
  cases t <;> decide

/-- **Resolving the variant of a node**, in its graph or another, gives the
node with the same term exactly when it is `Resolvable`. -/
theorem resolveNode_iff (hg : g.Opened) (hg' : g'.Opened) (hplain : g.PlainStrings) (hshow : Shows H address g)
    (hsame : address' = address → g' = g) (hid : id < g.nodes.size) (scratch : BitVec 64) :
    (∃ r, (TypedVariant.createNodeRef H ⟨address, id⟩ scratch).resolveNode g' address' = .ok r ∧ Denotes g g' id r) ↔
      Resolvable (H.view ⟨address, id⟩).tag g address id g' address' := by
  obtain ⟨keys, hdesc, -⟩ := hg
  have hof := hshow id hid
  rw [hdesc.size] at hid
  obtain ⟨k, hkey⟩ : ∃ k, keys[id]? = some k := ⟨_, List.getElem?_eq_getElem hid⟩
  have hlookup (datatype data) (hk : k = .literal datatype data)
      (hrun : (TypedVariant.createNodeRef H ⟨address, id⟩ scratch).resolveNode g' address' =
        .ok (g'.nodeFromRdfLiteral datatype data)) :
      (∃ r, (TypedVariant.createNodeRef H ⟨address, id⟩ scratch).resolveNode g' address' = .ok r ∧
        Denotes g g' id r) ↔ (g'.literalNodes = [] → g.Absent g' id) := by
    rw [hrun, ← hg'.denotes_iff (by rw [hdesc.meaning, hkey, hk])]
    exact ⟨fun ⟨r, hr, hd⟩ => by cases hr; exact hd, fun hd => ⟨_, rfl, hd⟩⟩
  unfold Resolvable
  cases hkind : (H.view ⟨address, id⟩).tag.payloadKind with
  | inline =>
    obtain ⟨datatype, data, hk, -⟩ := hdesc.literal_of_kind hkey hof (by rw [hkind]; nofun)
    exact hlookup datatype data hk (hdesc.resolveNode_numeric (hk ▸ hkey) hof (kind_tags.1 hkind) scratch)
  | text =>
    obtain ⟨datatype, data, hk, hiri, -⟩ := hdesc.literal_of_kind hkey hof (by rw [hkind]; nofun)
    have hbytes := kind_tags.2.1 hkind hiri
    have hhead := hplain id datatype data (by rw [hdesc.meaning, hkey, hk])
      (by rwa [← hdesc.tag_literal (hk ▸ hkey) hof])
    exact hlookup datatype data hk (hdesc.resolveNode_text (hk ▸ hkey) hof hbytes hhead scratch)
  | scalar =>
    rw [createNodeRef_ref (by rw [hkind]; nofun) (by rw [hkind]; nofun), resolveNode_scalar hkind]
    exact ⟨fun ⟨r, hr, _⟩ => (nomatch hr), False.elim⟩
  | node =>
    rw [createNodeRef_ref (by rw [hkind]; nofun) (by rw [hkind]; nofun), resolveNode_ref hkind]
    exact hdesc.resolveRef_iff hid hsame
  | edge =>
    obtain ⟨_, _, -, -, hedge⟩ := hdesc.literal_of_kind hkey hof (by rw [hkind]; nofun)
    exact absurd (kind_tags.2.2 hkind) hedge
  | nothing =>
    rw [createNodeRef_ref (by rw [hkind]; nofun) (by rw [hkind]; nofun), resolveNode_nothing hkind]
    exact ⟨fun ⟨r, hr, hd⟩ => by cases hr; exact denotes_none.1 hd, fun hd => ⟨none, rfl, denotes_none.2 hd⟩⟩

/-! ## Opened graphs in memory -/

theorem opened_addTriples {fileName sourceFileName : String} {iri : Bytes}
    {nodeCapacity relCapacity propCapacity : Int} {calls : List (List Slot × Triple)} {ids : List TripleIds}
    (hn : IsCapacity nodeCapacity) (hr : IsCapacity relCapacity) (hp : IsCapacity propCapacity)
    (hrun : (create fileName iri sourceFileName nodeCapacity relCapacity propCapacity).addTriples calls =
      some (ids, g)) : g.Opened := by
  obtain ⟨keys, h, -⟩ := interned_addTriples hn hr hp hrun
  exact ⟨keys, h.toDescribed, .inl h⟩

/-- `get_node_name`; the one of a literal is its own text. -/
def nodeName (g : RdfGraph) (id : Nat) : Bytes :=
  match g.nodes.get id with
  | some node =>
    match node.type with
    | .iri => 60 :: (node.iri.getD [] ++ [62])
    | .bnode => ascii "_:" ++ node.localId
    | .literal => []
  | none => []

/-- A node as the runtime finds it. A stored boolean is a C++ `bool`. -/
def viewOf (g : RdfGraph) (id : Nat) : NodeView :=
  let p := g.propOf id
  let blob := (g.store.propData.getBlob .string p.value.toNat).getD [0]
  let t := (XsdType.ofInt32 p.type.toNat).getD .unspecified
  if h : t = .boolean → (p.value.toBitVec.setWidth 8).toNat ≤ 1 then
    { payload := (g.store.graph.nodes id).payload
      propType := t
      propValue := p.value.toBitVec
      i64 := (g.store.propData.i64[p.value.toNat]?).getD 0
      ui64 := (g.store.propData.ui64[p.value.toNat]?).getD 0
      dbl := (g.store.propData.double[p.value.toNat]?).getD 0
      lang := (blob.drop 1).take ((blob.headD 0).val)
      lex := (blob.drop 1).drop ((blob.headD 0).val)
      datatypeName := g.nodeName p.key.toNat
      uid := id
      nodeName := g.nodeName id
      nodeType := ((g.nodes.get id).map (·.type)).getD .iri
      boolByte := h }
  else ⟨-1, .unspecified, 0, 0, 0, 0, [], [], [], 0, [], .iri, boolByte_unspecified⟩

/-- Graphs at addresses. -/
def heapOf (graphs : Nat → RdfGraph) : Heap where
  view ref := (graphs ref.graph).viewOf ref.id
  edgeText _ := []

/-- The booleans of the graph are C++ ones. -/
def BoolsStored (g : RdfGraph) : Prop := ∀ id < g.nodes.size, XsdType.ofInt32 (g.propOf id).type.toNat = some .boolean →
  ((g.propOf id).value.toBitVec.setWidth 8).toNat ≤ 1

theorem BoolsStored.byte_le (h : g.BoolsStored) (hid : id < g.nodes.size)
    (ht : (ofInt32 (g.propOf id).type.toNat).getD .unspecified = .boolean) :
    ((g.propOf id).value.toBitVec.setWidth 8).toNat ≤ 1 := by
  refine h id hid ?_
  cases ho : ofInt32 (g.propOf id).type.toNat with
  | none =>
    rw [ho] at ht
    cases ht
  | some t =>
    rw [ho] at ht
    exact congrArg some ht

theorem shows_heapOf (graphs : Nat → RdfGraph) (h : (graphs address).BoolsStored) :
    Shows (heapOf graphs) address (graphs address) := by
  intro id hid
  show ((graphs address).viewOf id).Of (graphs address) id
  unfold viewOf
  rw [dif_pos (h.byte_le hid)]
  refine ⟨rfl, ?_, rfl, ?_, ?_, ?_, ?_⟩
  · intro t ht
    simp [ht]
  · intro v hv
    simp [hv]
  · intro v hv
    simp [hv]
  · intro v hv
    simp [hv]
  · intro langLen rest hblob
    simp [hblob]

/-- `<a> <p> "1"` with a datatype of the XSD namespace. -/
def xsdTriple (localName : String) : Triple where
  subject := .iri (ascii "a")
  predicate := .iri (ascii "p")
  object := .literal
    { datatype := XsdType.xsdIri localName, value := .bits 1, languageTag := [], lexicalForm := ascii "1" }
  truth := one32

def addXsdTriple (localName : String) : Option (List TripleIds × RdfGraph) :=
  (create "g" (ascii "g") "" 8 8 8).addTriples [([.subject, .predicate, .object], xsdTriple localName)]

/-- An `xsd:unspecified` is not found in its own graph, and the IRI `<a>` not
in a copy of it. -/
theorem resolveNode_lost : (addXsdTriple "unspecified").map (fun r =>
      let H := heapOf fun _ => r.2
      (r.2.meaning 0, r.2.meaning 3, (TypedVariant.createNodeRef H ⟨0, 3⟩ 0).resolveNode r.2 0,
        (TypedVariant.createNodeRef H ⟨0, 0⟩ 0).resolveNode r.2 1)) =
    some (some (.iri (ascii "a")), some (.literal (XsdType.xsdIri "unspecified") (0 :: ascii "1")), .ok none,
      .error (.runtimeError "unsupported: cross graph node resolving from variant")) := by
  decide +kernel

/-- An `xsd:int` is found in a copy of its graph. -/
theorem resolveNode_int : ∃ ids g, addXsdTriple "int" = some (ids, g) ∧
    ∃ r, (TypedVariant.createNodeRef (heapOf fun _ => g) ⟨0, 3⟩ 0).resolveNode g 1 = .ok r ∧ Denotes g g 3 r := by
  obtain ⟨⟨ids, g⟩, hrun⟩ := Option.isSome_iff_exists.1 (show (addXsdTriple "int").isSome by decide +kernel)
  refine ⟨ids, g, hrun, ?_⟩
  have hopened : g.Opened := opened_addTriples (by decide) (by decide) (by decide) hrun
  have hfacts : (addXsdTriple "int").map (fun r => (r.2.nodes.size, (heapOf fun _ => r.2).view ⟨0, 3⟩ |>.tag,
      decide (r.2.literalNodes = []), (List.range 4).all fun id =>
        decide (ofInt32 (r.2.propOf id).type.toNat ≠ some .boolean) &&
          (r.2.meaning id).all fun k => k.casesOn (fun _ => true) (fun _ => true) fun datatype _ =>
            !(fromIri (some datatype)).isByteString)) = some (4, .int, false, true) := by
    decide +kernel
  rw [hrun] at hfacts
  simp only [Option.map_some, Option.some.injEq, Prod.mk.injEq, decide_eq_false_iff_not, List.all_eq_true,
    List.mem_range, Bool.and_eq_true, decide_eq_true_eq] at hfacts
  obtain ⟨hsize, htag, hcache, hall⟩ := hfacts
  have hbools : g.BoolsStored := fun id hid ht => absurd ht (hall id (hsize ▸ hid)).1
  have hplain : g.PlainStrings := by
    intro id datatype data hid hbytes
    have hlt : id < 4 := by
      by_contra hge
      have hlen : g.nodes.idToNode.length = 4 := hsize
      have hget : g.nodes.get id = none := List.getElem?_eq_none (hlen ▸ Nat.le_of_not_lt hge)
      simp [meaning, hget] at hid
    have hnot := (hall id hlt).2
    rw [hid] at hnot
    simp [hbytes] at hnot
  have hid : 3 < g.nodes.size := by omega
  have hshow : Shows (heapOf fun _ => g) 0 g := shows_heapOf (fun _ => g) hbools
  refine (resolveNode_iff hopened hopened hplain hshow (fun _ => rfl) hid 0).2 ?_
  rw [htag]
  exact fun hnil => absurd hnil hcache

end RdfGraph

end GengoDB
