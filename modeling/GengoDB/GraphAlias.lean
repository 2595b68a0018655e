/-
Names of graphs: `uriAlias` and `namedGraph` of `SparqlMLIRTranslator.h`,
`handleLoad` of `SparqlEngine.cpp`, and `GraphData::getGraph`. A graph goes by
an alias of its IRI, in the catalog and as a column of a query. The alias keeps
the last part of the IRI, and of that only letters and digits, so LOAD takes a
graph for loaded if there is one whose IRI is alike (`Alike`, which is about the
texts alone). The graphs are kept apart exactly if no two are (`separate_iff`);
the number that `namedGraph` adds to an alias is then never needed.

A LOAD that throws leaves what it has done, and the statements after it run.
-/
import Mathlib.Data.List.Forall2
import Mathlib.Data.List.TakeWhile
import GengoDB.Assoc
import GengoDB.Chars
import GengoDB.Fallible
import GengoDB.RdfLoad

namespace GengoDB.Engine

open Chars Fallible List

/-! ## Aliases -/

/-- Up to the last `c`, or all of it. -/
def beforeLast (c : Codec.Byte) (s : Bytes) : Bytes :=
  if c ∈ s then (s.reverse.dropWhile (· != c)).tail.reverse else s

/-- From the last `c` on, or all of it. -/
def afterLast (c : Codec.Byte) (s : Bytes) : Bytes := (s.reverse.takeWhile (· != c)).reverse

/-- What `uriAlias` makes of a character. -/
def aliasChar (c : Codec.Byte) : Codec.Byte := if isAlnum c || c = ch '_' then c else ch '_'

def uriAlias (uri : Bytes) : Bytes :=
  let name := beforeLast (ch '.') (afterLast (ch '/') (beforeLast (ch '#') uri))
  let name := if name.isEmpty then ascii "graph" else name
  let r := name.map aliasChar
  if r.isEmpty || r.head?.any isDigit then ascii "g_" ++ r else r

example : uriAlias (ascii "file://resources/ttl/coffee/coffee.ttl#rdf") = ascii "coffee" := by decide +kernel

/-! ## LOAD -/

/-- `RDFGraphCatalogEntry`. -/
structure GraphEntry where
  name : Bytes
  iri : Bytes
  format : RDFFileFormat
  sourceFileName : Bytes
  nodeCapacity : Nat
  relCapacity : Nat
  propCapacity : Nat
  deriving DecidableEq

/-- An entry of the catalog, a graph or not. -/
inductive CatalogEntry where
  | graph (e : GraphEntry)
  | other
  deriving DecidableEq

structure EngineState where
  dbDir : Bytes
  nodeCapacity : Nat
  relCapacity : Nat
  propCapacity : Nat
  catalog : List (Bytes × CatalogEntry)
  loadedGraphs : List (Bytes × GraphEntry)
  deriving DecidableEq

/-- What LOAD depends on: the files, the IRIs `rdf4cpp` takes, and what comes
of loading a graph. -/
structure World where
  fileExists : Bytes → Bool
  validIri : Bytes → Bool
  ensureFullyLoaded : GraphEntry → Except Bytes Unit

namespace EngineState

/-- `Catalog::getTypedEntry`, for graphs. -/
def getTypedEntry (s : EngineState) (name : Bytes) : Option GraphEntry :=
  match s.catalog.lookup name with
  | some (.graph e) => some e
  | _ => none

def insertEntry (s : EngineState) (e : GraphEntry) : Except Bytes EngineState :=
  if (s.catalog.lookup e.name).isSome then .error (ascii "catalog entry already exists")
  else .ok { s with catalog := Assoc.insert s.catalog e.name (.graph e) }

/-- The format a source has by its ending. -/
def sourceFormat (sourceIri : Bytes) : Except Bytes RDFFileFormat :=
  if (ascii ".ttl").isSuffixOf sourceIri then .ok .turtle
  else if (ascii ".fttl").isSuffixOf sourceIri then .ok .fuzzyTurtle
  else .error (ascii "LOAD: only Turtle (.ttl) and Fuzzy-Turtle (.fttl) sources are supported for now: <" ++ sourceIri ++
    ascii ">")

/-- The checks before the catalog is looked at; the result is the format. -/
def checkSource (w : World) (s : EngineState) (sourceIri : Bytes) : Except Bytes RDFFileFormat := do
  let format ← sourceFormat sourceIri
  if !(ascii "file://").isPrefixOf sourceIri then
    .error (ascii "LOAD: only file:// source IRIs are supported for now: <" ++ sourceIri ++ ascii ">")
  else
    let expectedPath := s.dbDir ++ uriAlias sourceIri ++ ascii format.getRDFFileExtension
    if !w.fileExists expectedPath then
      .error (ascii "LOAD: expected RDF file at '" ++ expectedPath ++ ascii "' (derived from GRAPH <" ++ sourceIri ++
        ascii ">) but it was not found")
    else .ok format

/-- `loadedGraphs.push_back`. -/
def push (s : EngineState) (e : GraphEntry) : EngineState :=
  { s with loadedGraphs := s.loadedGraphs ++ [(e.name, e)] }

/-- The state after a LOAD, and what it threw. -/
def handleLoad (w : World) (s : EngineState) (sourceIri graphIri : Bytes) : EngineState × Option Bytes :=
  match checkSource w s sourceIri with
  | .error message => (s, some message)
  | .ok format =>
    let name := uriAlias graphIri
    match s.getTypedEntry name with
    | some e =>
      match if e.format ≠ .binary then w.ensureFullyLoaded e else .ok () with
      | .error message => (s, some message)
      | .ok () => (s.push e, none)
    | none =>
      if !w.validIri graphIri then (s, some (ascii "invalid IRI"))
      else
        let e : GraphEntry :=
          { name, iri := graphIri, format, sourceFileName := uriAlias sourceIri,
            nodeCapacity := s.nodeCapacity, relCapacity := s.relCapacity, propCapacity := s.propCapacity }
        match s.insertEntry e with
        | .error message => (s, some message)
        | .ok s =>
          -- The entry stays in the catalog, loaded or not.
          match w.ensureFullyLoaded e with
          | .error message => (s, some message)
          | .ok () => (s.push e, none)

end EngineState

/-- A LOAD statement, and the world it finds. -/
structure Load where
  world : World
  sourceIri : Bytes
  graphIri : Bytes

namespace EngineState

def load (s : EngineState) (l : Load) : EngineState × Option Bytes := s.handleLoad l.world l.sourceIri l.graphIri

/-- LOAD statements, one after the other. -/
def loadAll (s : EngineState) (loads : List Load) : EngineState := loads.foldl (fun s l => (s.load l).1) s

/-- The graphs of the LOADs that return. -/
def returned : EngineState → List Load → List Bytes
  | _, [] => []
  | s, l :: loads => (if (s.load l).2 = none then [l.graphIri] else []) ++ returned (s.load l).1 loads

/-- The graphs of the LOADs that return, or that throw with an entry made. -/
def effective : EngineState → List Load → List Bytes
  | _, [] => []
  | s, l :: loads =>
    (if (s.load l).2 = none ∨ (s.load l).1.catalog ≠ s.catalog then [l.graphIri] else []) ++
      effective (s.load l).1 loads

/-- `GraphData::getGraph`. -/
def getGraph (w : World) (s : EngineState) (name iri : Bytes) : Except Bytes GraphEntry :=
  match s.getTypedEntry name with
  | some e => do
    w.ensureFullyLoaded e
    if e.iri ≠ iri then .error (ascii "Found graph record but IRIs do not match!") else .ok e
  | none => .error (ascii "could not find graph")

end EngineState

/-! ## Graphs in a query -/

/-- `GraphReferenceType`. -/
structure GraphReference where
  name : Bytes
  globalId : Bytes
  deriving DecidableEq

/-- The graphs of a query: IRI to alias, and the columns of the scope `graphs`. -/
structure Translator where
  graphInfo : List (Bytes × Bytes) := []
  graphCount : Nat := 0
  columns : List (Bytes × GraphReference) := []
  deriving DecidableEq

namespace Translator

def namedGraph (T : Translator) (uri : Bytes) : Translator :=
  match T.graphInfo.lookup uri with
  | some _ => T
  | none =>
    let name := uriAlias uri
    let name := if T.graphInfo.any (·.2 == name) then name ++ ascii "_" ++ ascii (toString T.graphCount) else name
    { graphInfo := Assoc.insert T.graphInfo uri name
      graphCount := T.graphCount + 1
      columns := Assoc.insert T.columns name ⟨name, uri⟩ }

/-- The graphs a query names, in the order it names them. -/
def namedGraphs (uris : List Bytes) : Translator := uris.foldl namedGraph {}

/-- The graph that `GRAPH <uri>` reads: its column's type is looked up when the
query runs. -/
def readGraph (T : Translator) (w : World) (s : EngineState) (uri : Bytes) : Except Bytes GraphEntry :=
  match T.graphInfo.lookup uri with
  | none => .error (ascii "no such graph in the query")
  | some name =>
    match T.columns.lookup name with
    | none => .error (ascii "no such column")
    | some ref => s.getGraph w ref.name ref.globalId

end Translator

/-! ## IRIs that are alike -/

/-- What stands before the last `c` of a text, or all of it. -/
inductive BeforeLast (c : Codec.Byte) : Bytes → Bytes → Prop
  | all {s : Bytes} : c ∉ s → BeforeLast c s s
  | cut {r t : Bytes} : c ∉ t → BeforeLast c (r ++ c :: t) r

/-- What stands behind the last `c` of a text, or all of it. -/
inductive AfterLast (c : Codec.Byte) : Bytes → Bytes → Prop
  | all {s : Bytes} : c ∉ s → AfterLast c s s
  | cut {r t : Bytes} : c ∉ t → AfterLast c (r ++ c :: t) t

/-- The name of the file that an IRI names, without fragment, directory and
ending. -/
def LocalName (iri name : Bytes) : Prop :=
  ∃ document file, BeforeLast (ch '#') iri document ∧ AfterLast (ch '/') document file ∧ BeforeLast (ch '.') file name

/-- A name is never empty and starts with no digit. -/
def label (name : Bytes) : Bytes :=
  let name := if name = [] then ascii "graph" else name
  if name.head?.any isDigit then ascii "g_" ++ name else name

/-- Characters that are no letters and no digits all count as one. -/
def SameChar (c d : Codec.Byte) : Prop := c = d ∨ (isAlnum c = false ∧ isAlnum d = false)

/-- The IRIs name files of the same name, as far as letters and digits go. -/
def Alike (i j : Bytes) : Prop :=
  ∃ n m, LocalName i n ∧ LocalName j m ∧ Forall₂ SameChar (label n) (label m)

variable {c : Codec.Byte} {r t : Bytes}

theorem exists_last {s : Bytes} (hmem : c ∈ s) : ∃ r t, s = r ++ c :: t ∧ c ∉ t := by
  obtain ⟨t, r, hrev, ht⟩ := eq_append_cons_of_mem (mem_reverse.2 hmem)
  refine ⟨r.reverse, t.reverse, ?_, by simpa using ht⟩
  rw [← reverse_reverse s, hrev]
  simp

theorem beforeLast_append (ht : c ∉ t) : beforeLast c (r ++ c :: t) = r := by
  have hskip : ∀ b ∈ t.reverse, (b != c) = true := fun b hb => bne_iff_ne.2 fun heq => ht (heq ▸ mem_reverse.1 hb)
  simp [beforeLast, dropWhile_append_of_pos hskip]

theorem afterLast_append (ht : c ∉ t) : afterLast c (r ++ c :: t) = t := by
  have hskip : ∀ b ∈ t.reverse, (b != c) = true := fun b hb => bne_iff_ne.2 fun heq => ht (heq ▸ mem_reverse.1 hb)
  simp [afterLast, takeWhile_append_of_pos hskip]

theorem beforeLast_iff {s : Bytes} : BeforeLast c s r ↔ r = beforeLast c s := by
  constructor
  · rintro (hs | ht)
    · exact (if_neg hs).symm
    · exact (beforeLast_append ht).symm
  · rintro rfl
    by_cases hmem : c ∈ s
    · obtain ⟨r, t, rfl, ht⟩ := exists_last hmem
      rw [beforeLast_append ht]
      exact .cut ht
    · rw [beforeLast, if_neg hmem]
      exact .all hmem

theorem afterLast_iff {s : Bytes} : AfterLast c s t ↔ t = afterLast c s := by
  have hall {s : Bytes} (hs : c ∉ s) : afterLast c s = s := by
    have htake : s.reverse.takeWhile (· != c) = s.reverse :=
      takeWhile_eq_self_iff.2 fun b hb => bne_iff_ne.2 fun heq => hs (heq ▸ mem_reverse.1 hb)
    rw [afterLast, htake, reverse_reverse]
  constructor
  · rintro (hs | ht)
    · exact (hall hs).symm
    · exact (afterLast_append ht).symm
  · rintro rfl
    by_cases hmem : c ∈ s
    · obtain ⟨r, t, rfl, ht⟩ := exists_last hmem
      rw [afterLast_append ht]
      exact .cut ht
    · rw [hall hmem]
      exact .all hmem

theorem localName_iff {iri name : Bytes} :
    LocalName iri name ↔ name = beforeLast (ch '.') (afterLast (ch '/') (beforeLast (ch '#') iri)) := by
  simp [LocalName, beforeLast_iff, afterLast_iff]

theorem aliasChar_of_not_alnum (h : isAlnum c = false) : aliasChar c = ch '_' := by
  unfold aliasChar
  split
  · next hc => simpa [h] using hc
  · rfl

theorem aliasChar_of_alnum (h : isAlnum c = true) : aliasChar c = c := by simp [aliasChar, h]

theorem aliasChar_eq_iff {c d : Codec.Byte} : aliasChar c = aliasChar d ↔ SameChar c d := by
  have hline : isAlnum (ch '_') = false := by decide
  cases hc : isAlnum c <;> cases hd : isAlnum d
  · simp [SameChar, hc, hd, aliasChar_of_not_alnum]
  · rw [aliasChar_of_not_alnum hc, aliasChar_of_alnum hd, SameChar]
    refine iff_of_false (fun heq => ?_) (fun heq => ?_)
    · rw [← heq, hline] at hd
      cases hd
    · obtain rfl | ⟨-, hd'⟩ := heq
      · rw [hc] at hd
        cases hd
      · rw [hd] at hd'
        cases hd'
  · rw [aliasChar_of_not_alnum hd, aliasChar_of_alnum hc, SameChar]
    refine iff_of_false (fun heq => ?_) (fun heq => ?_)
    · rw [heq, hline] at hc
      cases hc
    · obtain rfl | ⟨hc', -⟩ := heq
      · rw [hc] at hd
        cases hd
      · rw [hc] at hc'
        cases hc'
  · simp [SameChar, hc, hd, aliasChar_of_alnum]

theorem isDigit_aliasChar (c : Codec.Byte) : isDigit (aliasChar c) = isDigit c := by
  cases hc : isAlnum c with
  | true => rw [aliasChar_of_alnum hc]
  | false =>
    rw [aliasChar_of_not_alnum hc]
    have hdigit : isDigit c = false := by
      rw [isAlnum, Bool.or_eq_false_iff] at hc
      exact hc.1
    rw [hdigit]
    decide

theorem uriAlias_eq {iri name : Bytes} (h : LocalName iri name) : uriAlias iri = (label name).map aliasChar := by
  rw [uriAlias, ← localName_iff.1 h, label]
  simp only [List.isEmpty_iff, Bool.or_eq_true]
  generalize hn : (if name = [] then ascii "graph" else name) = n
  have hne : n ≠ [] := by
    rw [← hn]
    split
    · decide
    · next hname => exact hname
  obtain ⟨c, rest, rfl⟩ := exists_cons_of_ne_nil hne
  have hg : ascii "g_" = (ascii "g_").map aliasChar := by decide
  by_cases hdigit : isDigit c
  · simp [isDigit_aliasChar, hdigit, ← hg]
  · simp [isDigit_aliasChar, hdigit]

/-- Graphs get the same alias exactly if their IRIs are alike. -/
theorem uriAlias_eq_iff {i j : Bytes} : uriAlias i = uriAlias j ↔ Alike i j := by
  have hmap {n m : Bytes} (hn : LocalName i n) (hm : LocalName j m) :
      uriAlias i = uriAlias j ↔ Forall₂ SameChar (label n) (label m) := by
    rw [uriAlias_eq hn, uriAlias_eq hm, ← forall₂_eq_eq_eq, forall₂_map_left_iff, forall₂_map_right_iff]
    simp only [aliasChar_eq_iff]
  constructor
  · intro h
    exact ⟨_, _, localName_iff.2 rfl, localName_iff.2 rfl, (hmap (localName_iff.2 rfl) (localName_iff.2 rfl)).1 h⟩
  · rintro ⟨n, m, hn, hm, h⟩
    exact (hmap hn hm).2 h

/-! ## LOADs one after the other -/

/-- Every graph of the catalog is under the alias of its IRI. -/
def EngineState.WellNamed (s : EngineState) : Prop := ∀ name e, s.getTypedEntry name = some e → name = uriAlias e.iri

/-- The catalog has a graph of this IRI. -/
def EngineState.HasGraph (s : EngineState) (iri : Bytes) : Prop := ∃ name e, s.getTypedEntry name = some e ∧ e.iri = iri

variable {s s' s'' : EngineState} {i : Bytes} {e : GraphEntry} {l : Load} {iris iris' known known' : List Bytes}

theorem EngineState.getTypedEntry_congr (h : s'.catalog = s.catalog) (name : Bytes) :
    s'.getTypedEntry name = s.getTypedEntry name := by
  rw [getTypedEntry, getTypedEntry, h]

/-- A new entry in the catalog, under a name of no graph. -/
structure Created (s : EngineState) (e : GraphEntry) (s' : EngineState) : Prop where
  new : s.getTypedEntry e.name = none
  name : e.name = uriAlias e.iri
  entry : ∀ name, s'.getTypedEntry name = if name = e.name then some e else s.getTypedEntry name
  loadedGraphs : s'.loadedGraphs = s.loadedGraphs

theorem created_insertEntry (hnew : s.getTypedEntry e.name = none) (hname : e.name = uriAlias e.iri)
    (h : s.insertEntry e = .ok s') : Created s e s' := by
  unfold EngineState.insertEntry at h
  split at h
  · cases h
  · cases h
    refine ⟨hnew, hname, fun name => ?_, rfl⟩
    simp only [EngineState.getTypedEntry, Assoc.lookup_insert]
    by_cases hname : name = e.name
    · simp only [if_pos hname]
    · simp only [if_neg hname]

theorem Created.catalog_ne (h : Created s e s') : s'.catalog ≠ s.catalog := by
  intro heq
  have hentry := h.entry e.name
  rw [EngineState.getTypedEntry_congr heq, h.new, if_pos rfl] at hentry
  cases hentry

/-- What a LOAD of a graph can do: nothing, hand out the entry that is there, or
make one, which it hands out if it loads. -/
inductive Loads (s : EngineState) (iri : Bytes) : EngineState × Option Bytes → Prop
  | refused (message : Bytes) : Loads s iri (s, some message)
  | found (e : GraphEntry) : s.getTypedEntry (uriAlias iri) = some e → Loads s iri (s.push e, none)
  | broken (e : GraphEntry) (s' : EngineState) (message : Bytes) :
    Created s e s' → e.iri = iri → Loads s iri (s', some message)
  | created (e : GraphEntry) (s' : EngineState) : Created s e s' → e.iri = iri → Loads s iri (s'.push e, none)

/-- **One LOAD.** -/
theorem EngineState.loads (s : EngineState) (l : Load) : Loads s l.graphIri (s.load l) := by
  rw [load, handleLoad]
  cases checkSource l.world s l.sourceIri with
  | error message => exact .refused message
  | ok format =>
    dsimp only
    cases hentry : s.getTypedEntry (uriAlias l.graphIri) with
    | some e =>
      dsimp only
      split
      · next message _ => exact .refused message
      · exact .found e hentry
    | none =>
      dsimp only
      split
      · exact .refused _
      · split
        · next message _ => exact .refused message
        · next t ht =>
          have hcreated := created_insertEntry hentry rfl ht
          split
          · next message _ => exact .broken _ t message hcreated rfl
          · exact .created _ t hcreated rfl

/-- What LOADs do to a state: graphs stay, new ones are those of LOADs that took
effect, and a LOAD that returns hands out what is under the alias. -/
structure Ran (s s' : EngineState) (iris known : List Bytes) : Prop where
  wellNamed : s.WellNamed → s'.WellNamed
  kept : ∀ name e, s.getTypedEntry name = some e → s'.getTypedEntry name = some e
  new : ∀ name e, s'.getTypedEntry name = some e → s.getTypedEntry name = some e ∨ e.iri ∈ known
  left : ∀ j ∈ known, j ∈ iris ∨ s'.HasGraph j
  returned : iris ⊆ known
  handed : ∃ entries : List GraphEntry, s'.loadedGraphs = s.loadedGraphs ++ entries.map (fun e => (e.name, e)) ∧
    Forall₂ (fun i e => s'.getTypedEntry (uriAlias i) = some e) iris entries

theorem Ran.refl (s : EngineState) : Ran s s [] [] where
  wellNamed h := h
  kept _ _ h := h
  new _ _ h := .inl h
  left := nofun
  returned := nofun
  handed := ⟨[], by simp, .nil⟩

theorem Ran.trans (h : Ran s s' iris known) (h' : Ran s' s'' iris' known') :
    Ran s s'' (iris ++ iris') (known ++ known') where
  wellNamed hs := h'.wellNamed (h.wellNamed hs)
  kept name e he := h'.kept name e (h.kept name e he)
  new name e he := by
    rcases h'.new name e he with he | he
    · exact (h.new name e he).imp_right (mem_append_left _)
    · exact .inr (mem_append_right _ he)
  left j hj := by
    rcases mem_append.1 hj with hj | hj
    · rcases h.left j hj with hj | ⟨name, e, he, hiri⟩
      · exact .inl (mem_append_left _ hj)
      · exact .inr ⟨name, e, h'.kept name e he, hiri⟩
    · exact (h'.left j hj).imp_left (mem_append_right _)
  returned := append_subset.2 ⟨subset_append_of_subset_left _ h.returned, subset_append_of_subset_right _ h'.returned⟩
  handed := by
    obtain ⟨entries, hloaded, hentries⟩ := h.handed
    obtain ⟨entries', hloaded', hentries'⟩ := h'.handed
    refine ⟨entries ++ entries', by simp [hloaded', hloaded], rel_append ?_ hentries'⟩
    exact hentries.imp fun i e he => h'.kept _ _ he

theorem Created.ran (h : Created s e s') : Ran s s' [] [e.iri] where
  wellNamed hs name e' he := by
    rw [h.entry] at he
    split at he
    · next hname =>
      obtain rfl := Option.some.inj he
      rw [hname, h.name]
    · exact hs name e' he
  kept name e' he := by
    have hname : name ≠ e.name := by
      rintro rfl
      rw [h.new] at he
      cases he
    rw [h.entry, if_neg hname, he]
  new name e' he := by
    rw [h.entry] at he
    split at he
    · obtain rfl := Option.some.inj he
      exact .inr (mem_singleton.2 rfl)
    · exact .inl he
  left j hj := by
    obtain rfl := mem_singleton.1 hj
    exact .inr ⟨e.name, e, by rw [h.entry, if_pos rfl], rfl⟩
  returned := nofun
  handed := ⟨[], by simp [h.loadedGraphs], .nil⟩

theorem ran_push (he : s.getTypedEntry (uriAlias i) = some e) : Ran s (s.push e) [i] [i] where
  wellNamed h := h
  kept _ _ h := h
  new _ _ h := .inl h
  left _ hj := .inl hj
  returned := Subset.refl _
  handed := ⟨[e], rfl, .cons he .nil⟩

theorem Loads.ran {r : EngineState × Option Bytes} (h : Loads s i r) :
    ∃ known, Ran s r.1 (if r.2 = none then [i] else []) known ∧
      ∀ j, j ∈ known ↔ j ∈ if r.2 = none ∨ r.1.catalog ≠ s.catalog then [i] else [] := by
  cases h with
  | refused message => exact ⟨[], by simpa using Ran.refl s, by simp⟩
  | found e he => exact ⟨[i], by simpa using ran_push he, by simp⟩
  | broken e s' message hcreated hiri =>
    subst hiri
    exact ⟨[e.iri], by simpa using hcreated.ran, by simp [hcreated.catalog_ne]⟩
  | created e s' hcreated hiri =>
    subst hiri
    have hpush : Ran s' (s'.push e) [e.iri] [e.iri] := ran_push (by rw [hcreated.entry, if_pos hcreated.name.symm])
    exact ⟨[e.iri] ++ [e.iri], by simpa using hcreated.ran.trans hpush, by simp⟩

theorem Ran.congr (h : Ran s s' iris known) (hknown : ∀ j, j ∈ known ↔ j ∈ known') : Ran s s' iris known' where
  wellNamed := h.wellNamed
  kept := h.kept
  new name e he := (h.new name e he).imp_right (hknown _).1
  left j hj := h.left j ((hknown j).2 hj)
  returned j hj := (hknown j).1 (h.returned hj)
  handed := h.handed

/-- **LOADs one after the other.** -/
theorem EngineState.ran_loadAll (loads : List Load) (s : EngineState) :
    Ran s (s.loadAll loads) (s.returned loads) (s.effective loads) := by
  induction loads generalizing s with
  | nil => exact Ran.refl s
  | cons l loads ih =>
    obtain ⟨known, hran, hknown⟩ := (s.loads l).ran
    exact (hran.congr hknown).trans (ih (s.load l).1)

/-! ## Keeping graphs apart -/

/-- Every graph whose LOAD returned has an entry of its own, LOAD gave back that
entry, and in every query over these graphs each has a column of its own and is
what is read from it. -/
structure Separate (s s' : EngineState) (iris : List Bytes) : Prop where
  entry : ∀ i ∈ iris, s'.HasGraph i
  loaded : s'.loadedGraphs.map (·.2.iri) = s.loadedGraphs.map (·.2.iri) ++ iris
  column : ∀ uris, uris ⊆ iris → ∀ u ∈ uris, ∃ name,
    (Translator.namedGraphs uris).graphInfo.lookup u = some name ∧
    (∀ v ∈ uris, (Translator.namedGraphs uris).graphInfo.lookup v = some name → v = u) ∧
    ∃ e, e.iri = u ∧ ∀ w, (Translator.namedGraphs uris).readGraph w s' u = (w.ensureFullyLoaded e).map fun _ => e

/-- No two of the graphs have the same alias. -/
def AliasesDiffer (iris : List Bytes) : Prop := ∀ i ∈ iris, ∀ j ∈ iris, uriAlias i = uriAlias j → i = j

theorem AliasesDiffer.mono {a b : List Bytes} (h : AliasesDiffer b) (hab : a ⊆ b) : AliasesDiffer a :=
  fun i hi j hj => h i (hab hi) j (hab hj)

/-- What a query has after naming these graphs: their plain aliases. -/
structure Translator.Names (T : Translator) (done : List Bytes) : Prop where
  known : ∀ p ∈ T.graphInfo, p.1 ∈ done ∧ p.2 = uriAlias p.1
  name : ∀ u ∈ done, T.graphInfo.lookup u = some (uriAlias u)
  column : ∀ u ∈ done, T.columns.lookup (uriAlias u) = some ⟨uriAlias u, u⟩

theorem Translator.Names.namedGraph {T : Translator} {u : Bytes} {done : List Bytes} (h : T.Names done) (hdiffer : AliasesDiffer (u :: done)) :
    (T.namedGraph u).Names (u :: done) := by
  have hold {v : Bytes} (hv : v ∈ done) (huv : uriAlias v = uriAlias u) : v = u := hdiffer v (by simp [hv]) u (by simp) huv
  unfold Translator.namedGraph
  split
  · next name hname =>
    have hu : u ∈ done := (h.known _ (Assoc.mem_of_lookup hname)).1
    have hcons {P : Bytes → Prop} (hP : ∀ v ∈ done, P v) : ∀ v ∈ u :: done, P v := forall_mem_cons.2 ⟨hP u hu, hP⟩
    exact ⟨fun p hp => ⟨mem_cons_of_mem _ (h.known p hp).1, (h.known p hp).2⟩, hcons h.name, hcons h.column⟩
  · next hname =>
    have hnew : u ∉ done := fun hu => by rw [h.name u hu] at hname; cases hname
    -- The alias is not taken, so no number is added to it.
    have hfree : (T.graphInfo.any fun p => p.2 == uriAlias u) = false := by
      rw [any_eq_false]
      rintro ⟨v, name⟩ hv heq
      obtain ⟨hdone, hname⟩ := h.known _ hv
      have huv : uriAlias v = uriAlias u := hname.symm.trans (by simpa using heq)
      exact hnew (hold hdone huv ▸ hdone)
    simp only [hfree, Bool.false_eq_true, if_false]
    refine ⟨fun p hp => ?_, forall_mem_cons.2 ⟨?_, fun v hv => ?_⟩, forall_mem_cons.2 ⟨?_, fun v hv => ?_⟩⟩
    · rcases mem_cons.1 hp with rfl | hp
      · exact ⟨by simp, rfl⟩
      · obtain ⟨hmem, heq⟩ := h.known p (mem_filter.1 hp).1
        exact ⟨mem_cons_of_mem _ hmem, heq⟩
    · rw [Assoc.lookup_insert, if_pos rfl]
    · have hne : v ≠ u := fun heq => hnew (heq ▸ hv)
      rw [Assoc.lookup_insert, if_neg hne]
      exact h.name v hv
    · rw [Assoc.lookup_insert, if_pos rfl]
    · have hne : uriAlias v ≠ uriAlias u := fun heq => hnew (hold hv heq ▸ hv)
      rw [Assoc.lookup_insert, if_neg hne]
      exact h.column v hv

theorem Translator.names_foldl : ∀ {uris : List Bytes} {T : Translator} {done : List Bytes}, T.Names done →
    AliasesDiffer (uris ++ done) → ∃ all, (uris.foldl Translator.namedGraph T).Names all ∧ ∀ u, u ∈ all ↔ u ∈ uris ++ done
  | [], T, done, h, _ => ⟨done, h, fun _ => Iff.rfl⟩
  | u :: uris, T, done, h, hdiffer => by
    have hsame v : v ∈ uris ++ u :: done ↔ v ∈ u :: uris ++ done := by
      simp only [mem_append, mem_cons]
      tauto
    have hstep := h.namedGraph (hdiffer.mono fun v hv => (hsame v).1 (mem_append_right _ hv))
    obtain ⟨all, hall, hmem⟩ := names_foldl hstep (hdiffer.mono fun v hv => (hsame v).1 hv)
    exact ⟨all, hall, fun v => (hmem v).trans (hsame v)⟩

theorem Ran.handed_iri (h : Ran s s' iris known) (hs : s.WellNamed)
    (happart : ∀ i ∈ iris, ∀ j, s.HasGraph j ∨ j ∈ known → Alike i j → i = j) (hi : i ∈ iris)
    (he : s'.getTypedEntry (uriAlias i) = some e) : e.iri = i := by
  have halike : Alike i e.iri := uriAlias_eq_iff.1 (h.wellNamed hs _ _ he)
  exact (happart i hi _ ((h.new _ _ he).imp_left fun he => ⟨_, _, he, rfl⟩) halike).symm

theorem map_iri_of_forall₂ {R : Bytes → GraphEntry → Prop} {entries : List GraphEntry} (h : Forall₂ R iris entries)
    (hiri : ∀ i ∈ iris, ∀ e, R i e → e.iri = i) : entries.map (·.iri) = iris ∧ ∀ i ∈ iris, ∃ e, R i e := by
  induction h with
  | nil => exact ⟨rfl, nofun⟩
  | @cons i e iris entries he _ ih =>
    obtain ⟨hmap, hall⟩ := ih fun j hj => hiri j (mem_cons_of_mem _ hj)
    exact ⟨by rw [map_cons, hmap, hiri i mem_cons_self e he], forall_mem_cons.2 ⟨⟨e, he⟩, hall⟩⟩

/-- A query over graphs of different aliases reads each from its own column. -/
theorem AliasesDiffer.column (hdiffer : AliasesDiffer iris)
    (hentry : ∀ i ∈ iris, ∃ e, s.getTypedEntry (uriAlias i) = some e ∧ e.iri = i) {uris : List Bytes} (huris : uris ⊆ iris)
    {u : Bytes} (hu : u ∈ uris) : ∃ name,
      (Translator.namedGraphs uris).graphInfo.lookup u = some name ∧
      (∀ v ∈ uris, (Translator.namedGraphs uris).graphInfo.lookup v = some name → v = u) ∧
      ∃ e, e.iri = u ∧ ∀ w, (Translator.namedGraphs uris).readGraph w s u = (w.ensureFullyLoaded e).map fun _ => e := by
  have huris' : AliasesDiffer (uris ++ []) := hdiffer.mono fun v hv => huris (by simpa using hv)
  have hempty : Translator.Names {} [] := ⟨by simp, by simp, by simp⟩
  obtain ⟨all, hall, hmem⟩ := Translator.names_foldl hempty huris'
  have hin {v : Bytes} (hv : v ∈ uris) : v ∈ all := (hmem v).2 (by simpa using hv)
  refine ⟨uriAlias u, hall.name u (hin hu), fun v hv hname => ?_, ?_⟩
  · rw [Translator.namedGraphs, hall.name v (hin hv)] at hname
    exact huris' v (by simpa using hv) u (by simpa using hu) (Option.some.inj hname)
  · obtain ⟨e, he, hiri⟩ := hentry u (huris hu)
    refine ⟨e, hiri, fun w => ?_⟩
    simp only [Translator.readGraph, Translator.namedGraphs, hall.name u (hin hu), hall.column u (hin hu),
      EngineState.getGraph, he, hiri, ne_eq, not_true_eq_false, if_false]
    cases w.ensureFullyLoaded e <;> rfl

/-- **Graphs are kept apart** exactly if the IRI of no LOAD that returned is like
that of another graph, in the catalog or of a LOAD that took effect. -/
theorem separate_iff (hs : s.WellNamed) (loads : List Load) :
    Separate s (s.loadAll loads) (s.returned loads) ↔
      ∀ i ∈ s.returned loads, ∀ j, s.HasGraph j ∨ j ∈ s.effective loads → Alike i j → i = j := by
  have hran := s.ran_loadAll loads
  constructor
  · intro h i hi j hj halike
    have hj' : (s.loadAll loads).HasGraph j := by
      rcases hj with ⟨name, e, he, rfl⟩ | hj
      · exact ⟨name, e, hran.kept _ _ he, rfl⟩
      · exact (hran.left j hj).elim (h.entry j) id
    -- Both are under the one alias.
    obtain ⟨name, e, he, rfl⟩ := h.entry i hi
    obtain ⟨name', e', he', rfl⟩ := hj'
    rw [hran.wellNamed hs _ _ he, uriAlias_eq_iff.2 halike, ← hran.wellNamed hs _ _ he', he'] at he
    rw [Option.some.inj he]
  · intro happart
    obtain ⟨entries, hloaded, hentries⟩ := hran.handed
    obtain ⟨hmap, hsome⟩ := map_iri_of_forall₂ hentries fun i hi e => hran.handed_iri hs happart hi
    have hentry : ∀ i ∈ s.returned loads, ∃ e, (s.loadAll loads).getTypedEntry (uriAlias i) = some e ∧ e.iri = i := by
      intro i hi
      obtain ⟨e, he⟩ := hsome i hi
      exact ⟨e, he, hran.handed_iri hs happart hi he⟩
    have hdiffer : AliasesDiffer (s.returned loads) := fun i hi j hj heq =>
      happart i hi j (.inr (hran.returned hj)) (uriAlias_eq_iff.1 heq)
    refine ⟨fun i hi => ?_, ?_, fun uris huris u hu => hdiffer.column hentry huris hu⟩
    · obtain ⟨e, he, hiri⟩ := hentry i hi
      exact ⟨_, e, he, hiri⟩
    · rw [hloaded, map_append, map_map, ← hmap]
      rfl

/-- Every file is there, and every graph loads. -/
def benign : World := { fileExists := fun _ => true, validIri := fun _ => true, ensureFullyLoaded := fun _ => .ok () }

def empty : EngineState :=
  { dbDir := ascii "db/", nodeCapacity := 16, relCapacity := 16, propCapacity := 16, catalog := [], loadedGraphs := [] }

theorem empty_wellNamed : empty.WellNamed := nofun

/-- LOAD of a file into a graph. -/
def loadX (graphIri : Bytes) : Load := ⟨benign, ascii "file://x.ttl", graphIri⟩

/-- The entry of a graph loaded from a file of the name `x`. -/
def entryOf (name iri : Bytes) : GraphEntry :=
  { name, iri, format := .turtle, sourceFileName := ascii "x", nodeCapacity := 16, relCapacity := 16, propCapacity := 16 }

def graphX : GraphEntry := entryOf (ascii "x") (ascii "http://a.org/x")

/-- A catalog from before, with one graph. -/
def reopened : EngineState := { empty with catalog := [(ascii "x", .graph graphX)] }

theorem reopened_wellNamed : reopened.WellNamed := by
  intro name e he
  have hran := (empty.ran_loadAll [loadX (ascii "http://a.org/x")]).wellNamed empty_wellNamed
  have hcatalog : (empty.loadAll [loadX (ascii "http://a.org/x")]).catalog = reopened.catalog := by decide +kernel
  exact hran name e (by rw [EngineState.getTypedEntry_congr hcatalog, he])

theorem reopened_hasGraph {j : Bytes} (h : reopened.HasGraph j) : j = ascii "http://a.org/x" := by
  obtain ⟨name, e, he, rfl⟩ := h
  rw [EngineState.getTypedEntry] at he
  by_cases hname : name = ascii "x"
  · subst hname
    obtain rfl : graphX = e := Option.some.inj he
    rfl
  · have hnone : reopened.catalog.lookup name = none := Assoc.lookup_cons_of_ne hname
    rw [hnone] at he
    cases he

/-- LOADs of a graph that is there and of a new one. -/
def loadsXY : List Load := [loadX (ascii "http://a.org/x"), loadX (ascii "http://a.org/y")]

theorem separate_two : reopened.returned loadsXY = [ascii "http://a.org/x", ascii "http://a.org/y"] ∧
    Separate reopened (reopened.loadAll loadsXY) (reopened.returned loadsXY) := by
  have hreturned : reopened.returned loadsXY = [ascii "http://a.org/x", ascii "http://a.org/y"] := by decide +kernel
  have heffective : reopened.effective loadsXY = [ascii "http://a.org/x", ascii "http://a.org/y"] := by decide +kernel
  have hdiffer : uriAlias (ascii "http://a.org/x") ≠ uriAlias (ascii "http://a.org/y") := by decide +kernel
  refine ⟨hreturned, (separate_iff reopened_wellNamed loadsXY).2 fun i hi j hj halike => ?_⟩
  have hj' : j ∈ [ascii "http://a.org/x", ascii "http://a.org/y"] := by
    rcases hj with hj | hj
    · rw [reopened_hasGraph hj]
      exact mem_cons_self
    · exact heffective ▸ hj
  have heq := uriAlias_eq_iff.2 halike
  rw [hreturned] at hi
  simp only [mem_cons, not_mem_nil, or_false] at hi hj'
  rcases hi with rfl | rfl <;> rcases hj' with rfl | rfl
  · rfl
  · exact absurd heq hdiffer
  · exact absurd heq.symm hdiffer
  · rfl

/-- The second LOAD gives back the graph of the first, also if it is from an
earlier run or was never loaded; in a query, a number added to one alias makes
it that of another graph. -/
theorem load_gives_other_graph :
    ¬ Separate empty (empty.loadAll [loadX (ascii "http://a.org/x"), loadX (ascii "http://b.org/x")])
      [ascii "http://a.org/x", ascii "http://b.org/x"] ∧
    (empty.loadAll [loadX (ascii "http://a.org/x"), loadX (ascii "http://b.org/x")]).loadedGraphs =
      [(ascii "x", graphX), (ascii "x", graphX)] ∧
    (reopened.loadAll [loadX (ascii "http://b.org/x")]).loadedGraphs = [(ascii "x", graphX)] ∧
    (Translator.namedGraphs [ascii "http://a.org/x", ascii "http://a.org/x_2", ascii "http://b.org/x"]).graphInfo =
      [(ascii "http://b.org/x", ascii "x_2"), (ascii "http://a.org/x_2", ascii "x_2"),
       (ascii "http://a.org/x", ascii "x")] := by
  refine ⟨fun h => ?_, by decide +kernel, by decide +kernel, by decide +kernel⟩
  have hloaded := h.loaded
  revert hloaded
  decide +kernel

end GengoDB.Engine
