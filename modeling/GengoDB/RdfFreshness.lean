/-
What a graph holds after `ensureLoaded`. Of the source and the cache file the
newer one should be taken. Three things get in the way. The timestamp that
`hasFreshCache` looks at is that of the file with the extension of the parse
flags, `.ttl` for fuzzy turtle too, while the triples are in the `.fttl` file.
A source without triples leaves the storage empty, and an empty storage is
filled from the cache. And the parsing loop ends at the first syntax error.
The right triples are there exactly if these do no harm and the catalog's
dictionary fits the cache (`ensureFullyLoaded_right_iff`).
-/
import GengoDB.Fallible
import GengoDB.RdfReload

namespace GengoDB

open Assoc Fallible RDFFileFormat

/-! ## The triples of a graph and of a source -/

namespace RdfGraph

/-- A triple by the keys of its terms, with the bits of its degree. -/
abbrev Row := Option TermKey × Option TermKey × Option TermKey × Int

def Row.ofTriple (t : Triple) : Row := (t.subject.key, t.predicate.key, t.object.key, t.truth.toInt)

variable (g : RdfGraph)

/-- The triple a relationship stands for. -/
def rowAt (e : RelEntry Int) : Row :=
  (g.meaning e.firstNodeId.toNat, g.meaning e.typeId.toInt.toNat, g.meaning e.secondNodeId.toNat, e.payload)

/-- The triples of the relationships in use. -/
def heldTriples : List Row :=
  (List.range g.store.graph.relPool.mark.toNat).filterMap fun (i : Nat) =>
    if (g.store.graph.rels i).inUse then some (g.rowAt (g.store.graph.rels i)) else none

def withStore (s : PropertyStore) : RdfGraph := { g with storage := { g.storage with storage := s } }

/-- The triples of a store under the dictionary of `g`. -/
def triplesOf (s : PropertyStore) : List Row := (g.withStore s).heldTriples

/-- The quads the parser yields, syntax errors skipped. -/
def quads (rs : List (Except ParsingError Quad)) : List Quad :=
  rs.filterMap fun | .ok q => some q | .error _ => none

variable (format : RDFFileFormat)

/-- The file a graph of this format is read from. -/
def sourceFile (disk : Disk) : Option File :=
  if format = .binary then none else disk (g.dbDir ++ g.sourceFileName ++ format.getRDFFileExtension)

/-- The triples of that file. In fuzzy turtle each has its degree, otherwise it
is 1. -/
def sourceTriples (p : Parsers) (disk : Disk) : Option (List Triple) :=
  (g.sourceFile format disk).bind fun f =>
    if format = .fuzzyTurtle then
      (p.fuzzyTTL format.getRDFParseFlags f.content).toOption.map fun fttl =>
        List.zipWith Quad.triple (quads fttl.triples) fttl.degrees
    else some ((quads (p.rdf format.getRDFParseFlags f.content)).map fun q => Quad.triple q one32)

def cacheFile (disk : Disk) : Option File :=
  if g.storage.dbDir = "" ∨ g.storage.fileName = "" then none else disk g.storage.graphPath

/-- The source is newer than the cache. -/
def SourceNewer (disk : Disk) : Prop :=
  ∃ f, g.sourceFile format disk = some f ∧ ∀ c, g.cacheFile disk = some c → c.time < f.time

/-- A store that can be flushed, with its relationships between nodes. -/
structure Flushable (s : PropertyStore) : Prop extends GengoDBGraph.Storable s where
  ends : ∀ i : Nat, i < s.graph.relPool.mark.toNat → (s.graph.rels i).inUse →
    ((s.graph.rels i).firstNodeId.toNat : Int) < s.graph.nodePool.mark ∧
      ((s.graph.rels i).typeId.toInt.toNat : Int) < s.graph.nodePool.mark ∧
      ((s.graph.rels i).secondNodeId.toNat : Int) < s.graph.nodePool.mark

/-- The cache file is an image of the store `s`. Without a file, `s` is
empty. -/
structure Cached (g : RdfGraph) (disk : Disk) (s : PropertyStore) : Prop where
  flushable : Flushable s
  capacities : GraphData.SameCapacities s.toPropertyGraph g.store.toPropertyGraph
  file : ∀ f, g.cacheFile disk = some f →
    ∃ order, order.Perm s.propData.blobs ∧ f.content = GengoDBGraph.image s order
  missing : g.cacheFile disk = none → s.graph.nodePool.mark = 0

/-- What loading should do: the triples of the source if it is newer, those
of the cache otherwise, and a dictionary of all nodes. -/
structure LoadsRight (g : RdfGraph) (format : RDFFileFormat) (p : Parsers) (disk : Disk) (s : PropertyStore)
    (g' : RdfGraph) : Prop where
  source : g.SourceNewer format disk →
    ∃ ts, g.sourceTriples format p disk = some ts ∧ g'.heldTriples.Perm (ts.map Row.ofTriple)
  cached : ¬ g.SourceNewer format disk → g'.heldTriples.Perm (g.triplesOf s)
  size : (g'.nodes.size : Int) = g'.store.graph.nodePool.mark

/-- Whether `ensureLoaded` takes the cache. -/
def takesCache (disk : Disk) : Bool :=
  decide (format = .binary) || g.storage.hasFreshCache disk
    (g.dbDir ++ g.sourceFileName ++ RDFFileFormat.flagExtension format.getRDFParseFlags)

def isTriple : Except ParsingError Quad → Bool
  | .ok _ => true
  | .error _ => false

/-- No triple of the source follows a syntax error. -/
def Complete (p : Parsers) (disk : Disk) : Prop :=
  format ≠ .fuzzyTurtle → ∀ f, g.sourceFile format disk = some f →
    ∀ r ∈ (p.rdf format.getRDFParseFlags f.content).dropWhile isTriple, isTriple r = false

/-- When loading goes right. -/
structure LoadCondition (g : RdfGraph) (format : RDFFileFormat) (p : Parsers) (disk : Disk) (s : PropertyStore) :
    Prop where
  /-- The file whose time is looked at tells whether the source is newer, or
  source and cache have the same triples. -/
  fuzzy : format = .fuzzyTurtle → (g.takesCache format disk = true ↔ ¬ g.SourceNewer format disk) ∨
    ∃ ts, g.sourceTriples format p disk = some ts ∧ (g.triplesOf s).Perm (ts.map Row.ofTriple)
  /-- The catalog's dictionary has as many nodes as the cache. -/
  dictionary : g.takesCache format disk = true → (g.nodes.size : Int) = s.graph.nodePool.mark
  complete : g.takesCache format disk = false → g.Complete format p disk
  /-- The source has a triple, or the cache has no nodes. -/
  nonempty : g.takesCache format disk = false → g.sourceTriples format p disk = some [] →
    s.graph.nodePool.mark = 0

/-- A graph before it is loaded. -/
structure Unloaded (g : RdfGraph) : Prop where
  loaded : g.loaded = false
  literalNodes : g.literalNodes = []
  storage : ∃ n r q, IsCapacity n ∧ IsCapacity r ∧ IsCapacity q ∧
    g.storage = { GengoDBGraph.create g.fileName n r q with dbDir := g.dbDir }

variable {g g' : RdfGraph} {keys : List TermKey} {format : RDFFileFormat} {p : Parsers} {disk : Disk}
  {ids : List TripleIds} {rs : List (Except ParsingError Quad)} {ts : List Triple} {s s' : PropertyStore}

/-! ## What was added is held -/

variable {calls : List (List Slot × Triple)}

theorem Interned.heldTriples (h : g.Interned keys)
    (hl : g.Links (g.rowsOf calls ids)) (hall : List.Forall₂ (fun call => HasTerms keys call.2) calls ids)
    (hdegree : ∀ call ∈ calls, g.degree call.2 = call.2.truth.toInt) :
    g.heldTriples = calls.map fun call => Row.ofTriple call.2 := by
  have hc := h.consistent hl hall
  have hmark : g.store.graph.relPool.mark.toNat = calls.length := by
    rw [hl.mark]
    simp [rowsOf, hc.length]
  have hrow : ∀ (i : Nat) hi, (g.store.graph.rels i).inUse ∧
      g.rowAt (g.store.graph.rels i) = Row.ofTriple (calls[i]).2 := by
    intro i hi
    have hcall : calls[i]? = some calls[i] := List.getElem?_eq_getElem hi
    obtain ⟨t, hids⟩ : ∃ t, ids[i]? = some t := ⟨_, List.getElem?_eq_getElem (hc.length.symm ▸ hi)⟩
    have hlink := hc.link i _ _ hcall hids
    have hmean := fun slot => (hc.meaning i _ _ slot hcall hids).2
    refine ⟨(hc.inUse i).2 ⟨by omega, by omega⟩, ?_⟩
    simp only [RelEntry.link, Prod.mk.injEq] at hlink
    obtain ⟨hfirst, htype, hsecond, hpayload⟩ := hlink
    simp only [rowAt, hfirst, htype, hsecond, hpayload, Row.ofTriple, Prod.mk.injEq]
    exact ⟨hmean .subject, hmean .predicate, hmean .object, hdegree _ (List.getElem_mem hi)⟩
  rw [RdfGraph.heldTriples, hmark]
  refine filterMap_range_eq_map fun i hi => ?_
  rw [if_pos (hrow i hi).1, (hrow i hi).2]

/-- A graph built by `addTriple` can be flushed. -/
theorem Interned.flushable (h : g.Interned keys) (hl : g.Links (g.rowsOf calls ids))
    (hall : List.Forall₂ (fun call => HasTerms keys call.2) calls ids)
    (hsize : ∀ datatype data, .literal datatype data ∈ keys → data.length < 2 ^ 32) : Flushable g.store := by
  refine ⟨⟨h.store.machine, h.store.data.toValid, h.store.data.fits32 h.store.lt_cap hsize⟩, fun i hi _ => ?_⟩
  have hlen := hall.length_eq
  have hmark : i < calls.length := by
    rw [hl.mark] at hi
    simpa [rowsOf, hlen] using hi
  have hids : i < ids.length := hlen ▸ hmark
  have hrow := hl.row i (ids[i], g.degree (calls[i]).2) (by
    rw [rowsOf, List.getElem?_zipWith]
    simp [hmark, hids])
  have hlt := fun slot => (List.forall₂_iff_get.1 hall).2 i hmark hids |>.lt slot
  have hsubject := hlt .subject
  have hpredicate := hlt .predicate
  have hobject := hlt .object
  simp only [RelEntry.link, Prod.mk.injEq] at hrow
  obtain ⟨hfirst, htype, hsecond, -⟩ := hrow
  rw [hfirst, htype, hsecond, h.store.nodeMark]
  simp only [Int.toNat_natCast, Int.ofNat_lt]
  exact ⟨hsubject, hpredicate, hobject⟩

/-! ## The source -/

/-- The loop takes the triples before the first error. -/
theorem parsedTriples_prefix : parsedTriples rs <+: (quads rs).map fun q => Quad.triple q one32 := by
  induction rs with
  | nil => exact List.nil_prefix
  | cons r rs ih =>
    cases r with
    | ok q => exact List.cons_prefix_cons.2 ⟨rfl, ih⟩
    | error e => exact List.nil_prefix

theorem quads_eq_nil_iff : quads rs = [] ↔ ∀ r ∈ rs, isTriple r = false := by
  rw [quads, List.filterMap_eq_nil_iff]
  refine forall₂_congr fun r _ => ?_
  cases r <;> simp [isTriple]

theorem parsedTriples_eq_iff : (parsedTriples rs = (quads rs).map fun q => Quad.triple q one32) ↔
    ∀ r ∈ rs.dropWhile isTriple, isTriple r = false := by
  induction rs with
  | nil => simp [parsedTriples, quads]
  | cons r rs ih =>
    cases r with
    | ok q =>
      rw [List.dropWhile_cons_of_pos rfl, ← ih]
      simp [parsedTriples, quads]
    | error e =>
      -- The loop ends here, so what follows must be errors.
      have hnil : [] = (quads (.error e :: rs)).map (fun q => Quad.triple q one32) ↔ quads rs = [] := by
        rw [eq_comm, List.map_eq_nil_iff]
        rfl
      rw [List.dropWhile_cons_of_neg (by simp [isTriple]), List.forall_mem_cons, ← quads_eq_nil_iff]
      exact hnil.trans (by simp [isTriple])

theorem zipDegrees_eq_ok {path : String} {n : Nat} {degrees : List (BitVec 32)}
    (h : zipDegrees path n rs degrees = .ok ts) : ts = List.zipWith Quad.triple (quads rs) degrees := by
  induction rs generalizing degrees ts with
  | nil =>
    cases degrees with
    | nil =>
      cases h
      rfl
    | cons d ds => cases h
  | cons r rs ih =>
    cases r with
    | error e => cases degrees <;> cases h
    | ok q =>
      cases degrees with
      | nil => cases h
      | cons d ds =>
        rw [zipDegrees] at h
        cases hrest : zipDegrees path n rs ds with
        | error e =>
          rw [hrest] at h
          cases h
        | ok ts' =>
          rw [hrest] at h
          cases h
          rw [ih hrest]
          rfl

theorem truth_of_mem_parsedTriples {t : Triple} (ht : t ∈ parsedTriples rs) : t.truth = one32 := by
  induction rs with
  | nil => cases ht
  | cons r rs ih =>
    cases r with
    | ok q =>
      rcases List.mem_cons.1 ht with rfl | ht
      · rfl
      · exact ih ht
    | error e => cases ht

theorem degree_of_fileTriples (h : g.fileTriples p disk = .ok ts) {t : Triple} (ht : t ∈ ts) :
    g.degree t = t.truth.toInt := by
  unfold fileTriples at h
  unfold degree
  split at h
  · next hfuzzy => rw [if_pos hfuzzy]
  · next hfuzzy =>
    rw [if_neg hfuzzy]
    dsimp only at h
    split at h
    · cases h
    · cases h
      rw [truth_of_mem_parsedTriples ht]

/-- The graph `ensureLoaded` is called on for a source of this format. -/
def opened (g : RdfGraph) (format : RDFFileFormat) : RdfGraph :=
  { g with
    loadedFromRdfFile := true, rdfParseFlags := format.getRDFParseFlags
    fuzzy := decide (format = .fuzzyTurtle), loaded := true }

theorem getRDFFileExtension_of_ne (h : format ≠ .fuzzyTurtle) :
    format.getRDFFileExtension = flagExtension format.getRDFParseFlags := if_neg h

theorem sourcePath_ne_empty (dir name : String) (flags : ParsingFlag) : dir ++ name ++ flagExtension flags ≠ "" := by
  intro h
  have hlen := congrArg String.length h
  cases flags <;> simp [flagExtension] at hlen

/-- What is parsed are the first triples of the source, and all of them if it
is complete. -/
theorem sourceTriples_of_fileTriples (hformat : format ≠ .binary)
    (h : (g.opened format).fileTriples p disk = .ok ts) :
    (g.sourceFile format disk).isSome ∧ ∃ ts', g.sourceTriples format p disk = some ts' ∧ ts <+: ts' ∧
      (ts = ts' ↔ g.Complete format p disk) := by
  unfold fileTriples at h
  simp only [sourceTriples, Complete, sourceFile, if_neg hformat]
  by_cases hfuzzy : format = .fuzzyTurtle
  · subst hfuzzy
    have hrun : fuzzyTriples p disk fuzzyTurtle.getRDFParseFlags
      (g.dbDir ++ g.sourceFileName ++ fuzzyTurtle.getRDFFileExtension) = .ok ts := h
    unfold fuzzyTriples at hrun
    split at hrun
    · cases hrun
    · next f hf =>
      split at hrun
      · cases hrun
      · next fttl hfttl =>
        refine ⟨by rw [hf]; rfl, ts, ?_, List.prefix_rfl, by simp⟩
        simp [hf, hfttl, Except.toOption, zipDegrees_eq_ok hrun]
  · rw [if_neg (by simpa [opened] using hfuzzy)] at h
    simp only [getRDFFileExtension_of_ne hfuzzy, if_neg hfuzzy]
    dsimp only [opened] at h
    split at h
    · cases h
    · next f hf =>
      cases h
      rw [hf]
      refine ⟨rfl, _, rfl, parsedTriples_prefix, parsedTriples_eq_iff.trans ?_⟩
      simp [hfuzzy]

/-! ## The cache -/

theorem hasFreshCache_iff {path : String} (hpath : path ≠ "") : g.storage.hasFreshCache disk path ↔
      ∃ c, g.cacheFile disk = some c ∧ ∀ f, disk path = some f → f.time ≤ c.time := by
  unfold GengoDBGraph.hasFreshCache cacheFile
  by_cases hnames : g.storage.dbDir = "" ∨ g.storage.fileName = ""
  · simp [hnames]
  · simp only [if_neg hpath]
    cases disk g.storage.graphPath with
    | none => simp
    | some c => cases disk path <;> simp

theorem takesCache_iff (hformat : format ≠ .binary) (hfuzzy : format ≠ .fuzzyTurtle)
    (hsource : (g.sourceFile format disk).isSome) : g.takesCache format disk ↔ ¬ g.SourceNewer format disk := by
  obtain ⟨f, hf⟩ := Option.isSome_iff_exists.1 hsource
  have hpath := getRDFFileExtension_of_ne hfuzzy
  have hfile : disk (g.dbDir ++ g.sourceFileName ++ flagExtension format.getRDFParseFlags) = some f := by
    rw [← hpath]
    simpa [sourceFile, hformat] using hf
  simp only [takesCache, hformat, decide_false, Bool.false_or, hasFreshCache_iff (sourcePath_ne_empty _ _ _), hfile,
    SourceNewer, hf]
  simp

/-- A storage that holds nodes or has no file stays as it is. -/
theorem loadStorage_of_kept (hloaded : g.storage.loaded = false)
    (h : 0 < g.store.graph.nodePool.mark ∨ g.cacheFile disk = none) :
    g.loadStorage disk = .ok { g with storage := { g.storage with loaded := true } } := by
  have hstorage : g.storage.ensureLoaded disk = .ok { g.storage with loaded := true } := by
    simp only [GengoDBGraph.ensureLoaded, hloaded, Bool.false_eq_true, if_false]
    split
    · rfl
    · next hread =>
      obtain ⟨hmark, hnames⟩ := not_or.1 hread
      have hnone := h.resolve_left hmark
      rw [cacheFile, if_neg hnames] at hnone
      have hpath : disk (GengoDBGraph.graphPath { g.storage with loaded := true }) = none := hnone
      rw [hpath]
  rw [loadStorage, hstorage]

/-! What is read back means the same. -/

theorem valueBytes_restored (h : GengoDBGraph.Restores s s') (datatype : Bytes) (value : UInt32) :
    s'.propData.valueBytes datatype value = s.propData.valueBytes datatype value := by
  unfold PropertyData.valueBytes
  split
  · rfl
  · split
    · next kind _ =>
      refine congrArg _ ?_
      cases kind with
      | int64 | date | dateTime => exact h.i64 _
      | uint64 => exact h.ui64 _
      | double => exact h.double _
    · exact h.blob _ _

theorem literalKeyFor_restored (h : GengoDBGraph.Restores s s') {id : Nat} (hid : (id : Int) < s.graph.nodePool.mark) :
    (g.withStore s').literalKeyFor id = (g.withStore s).literalKeyFor id := by
  have hnode : (g.withStore s').store.graph.nodes id = (g.withStore s).store.graph.nodes id :=
    (h.node id (Int.natCast_nonneg id) hid).1
  have hmark : (g.withStore s').store.propPool.mark = (g.withStore s).store.propPool.mark := h.propHighWater
  simp only [literalKeyFor, hnode, hmark]
  split
  · next hp =>
    have hprop : (g.withStore s').store.props ((g.withStore s).store.graph.nodes id).payload =
        (g.withStore s).store.props ((g.withStore s).store.graph.nodes id).payload := h.prop _ hp.1 hp.2
    rw [hprop]
    exact congrArg _ (valueBytes_restored h _ _)
  · rfl

theorem meaning_restored (h : GengoDBGraph.Restores s s') {id : Nat} (hid : (id : Int) < s.graph.nodePool.mark) :
    (g.withStore s').meaning id = (g.withStore s).meaning id := by
  unfold meaning
  rw [literalKeyFor_restored h hid]
  rfl

/-- **The triples of what was flushed** are the triples of what is read
back. -/
theorem triplesOf_restored (hs : Flushable s) (h : GengoDBGraph.Restores s s') : g.triplesOf s' = g.triplesOf s := by
  have hmark : (g.withStore s').store.graph.relPool.mark = (g.withStore s).store.graph.relPool.mark := h.relHighWater
  unfold triplesOf heldTriples
  rw [hmark]
  refine List.filterMap_congr fun i hi => ?_
  have hlt : i < s.graph.relPool.mark.toNat := List.mem_range.1 hi
  have hrel : (g.withStore s').store.graph.rels i = (g.withStore s).store.graph.rels i :=
    (h.rel i (Int.natCast_nonneg i) (by omega)).1
  simp only [hrel]
  by_cases hused : ((g.withStore s).store.graph.rels i).inUse
  · obtain ⟨hfirst, htype, hsecond⟩ := hs.ends i hlt hused
    rw [if_pos hused, if_pos hused]
    refine congrArg some (Prod.ext ?_ (Prod.ext ?_ (Prod.ext ?_ rfl)))
    · exact meaning_restored h hfirst
    · exact meaning_restored h htype
    · exact meaning_restored h hsecond
  · rw [if_neg hused, if_neg hused]

theorem Flushable.triplesOf_eq_nil (hs : Flushable s) (h : s.graph.nodePool.mark = 0) : g.triplesOf s = [] := by
  refine List.filterMap_eq_nil_iff.2 fun i hi => if_neg fun hused => ?_
  have hends := (hs.ends i (List.mem_range.1 hi) hused).1
  omega

/-- **Loading the cache** into the empty storage. -/
theorem Cached.loadStorage {r : RdfGraph} (hg : g.Unloaded) (hc : g.Cached disk s) (hr : r.storage = g.storage) :
    ∃ storage, r.loadStorage disk = .ok { r with storage } ∧
      storage.storage.graph.nodePool.mark = s.graph.nodePool.mark ∧
      heldTriples { r with storage } = r.triplesOf s := by
  obtain ⟨n, m, q, hn, hm, hq, hstorage⟩ := hg.storage
  have hloaded : r.storage.loaded = false := by rw [hr, hstorage]; rfl
  have hmark : r.storage.storage.graph.nodePool.mark = 0 := by rw [hr, hstorage]; rfl
  have hrels : r.storage.storage.graph.relPool.mark = 0 := by rw [hr, hstorage]; rfl
  have hblobs : r.storage.storage.propData.blobs = [] := by rw [hr, hstorage]; rfl
  have hfile : r.cacheFile disk = g.cacheFile disk := by rw [cacheFile, hr]; rfl
  cases hcache : g.cacheFile disk with
  | none =>
    refine ⟨_, loadStorage_of_kept hloaded (.inr (hfile.trans hcache)), hmark.trans (hc.missing hcache).symm, ?_⟩
    rw [hc.flushable.triplesOf_eq_nil (hc.missing hcache)]
    simp [heldTriples, store, hrels]
  | some f =>
    obtain ⟨order, horder, hcontent⟩ := hc.file f hcache
    rw [← hfile, cacheFile] at hcache
    split at hcache
    · cases hcache
    · next hnames =>
      obtain ⟨hdir, hname⟩ := not_or.1 hnames
      obtain ⟨s', hread, hpools, hrecs, -, hdata⟩ := GengoDBGraph.readFile_image r.storage.storage
        hc.flushable.toStorable horder (hr ▸ hc.capacities) hblobs r.storage.graphPath
      have hload := GengoDBGraph.ensureLoaded_of_file hloaded hmark hdir hname hcache
      rw [hcontent, hread] at hload
      have hrestores := GengoDBGraph.restores_reloaded hc.flushable.valid horder hpools hrecs hdata
      refine ⟨{ r.storage with loaded := true, storage := s' }, ?_, hrestores.nodeHighWater, ?_⟩
      · rw [RdfGraph.loadStorage, hload]
        rfl
      · exact triplesOf_restored hc.flushable hrestores

/-- Filling the cache of the literals changes nothing else. -/
theorem rebuildLiteralNodeCache_eq_some (h : g.rebuildLiteralNodeCache = some g') :
    ∃ cache, g' = { g with literalNodes := cache } := by
  unfold rebuildLiteralNodeCache at h
  generalize List.range g.nodes.size = ids at h
  induction ids generalizing g with
  | nil =>
    cases h
    exact ⟨g'.literalNodes, rfl⟩
  | cons id ids ih =>
    obtain ⟨g₁, hstep, hrest⟩ := Option.bind_eq_some_iff.1 h
    obtain ⟨cache, rfl⟩ := ih hrest
    unfold cacheNode at hstep
    split at hstep
    · cases hstep
      exact ⟨cache, rfl⟩
    · obtain ⟨key, -, rfl⟩ := Option.map_eq_some_iff.1 hstep
      exact ⟨cache, rfl⟩

/-! ## Loading -/

theorem Unloaded.emptied (hg : g.Unloaded) (format : RDFFileFormat) :
    (g.opened format).emptied.Interned [] ∧ (g.opened format).emptied.Links [] := by
  obtain ⟨n, r, q, hn, hr, hq, hstorage⟩ := hg.storage
  refine ⟨⟨⟨.nil, by simp, rfl, NodeIdDict.canonical_empty, ?_⟩, by simp [RdfGraph.emptied]⟩, rfl, rfl, by simp⟩
  have hstore : (g.opened format).emptied.store = .create n r q := by
    show PropertyStore.create g.storage.storage.graph.nodePool.cap g.storage.storage.graph.relPool.cap
      g.storage.storage.propPool.cap = .create n r q
    rw [hstorage]
    rfl
  rw [hstore]
  exact PropertyStore.holds_create hn hr hq

/-- Adding triples to the empty graph. -/
theorem Unloaded.addTriples (hg : g.Unloaded) (hrun : (g.opened format).emptied.addTriples calls = some (ids, g')) :
    ∃ keys, g'.Interned keys ∧ g'.Links (g'.rowsOf calls ids) ∧
      List.Forall₂ (fun call => HasTerms keys call.2) calls ids ∧ g'.frame = (g.opened format).emptied.frame ∧
      (calls ≠ [] → 0 < g'.store.graph.nodePool.mark) := by
  obtain ⟨hempty, hlinks⟩ := hg.emptied format
  obtain ⟨keys, hi, -, hl, hall, hframe⟩ := hempty.addTriples hlinks hrun
  rw [← rowsOf_of_frame hframe] at hl
  refine ⟨keys, hi, hl, hall, hframe, fun hne => ?_⟩
  cases hall with
  | nil => exact absurd rfl hne
  | cons hterms _ =>
    obtain ⟨k, -, hk⟩ := hterms .subject
    have hlt := (List.getElem?_eq_some_iff.1 hk).1
    have hmark := hi.store.nodeMark
    omega

variable {order : Triple → List Slot}

/-- Parsing a file into the empty graph. -/
theorem Unloaded.loadTriples (hg : g.Unloaded) (h : (g.opened format).emptied.loadTriples p order disk = .ok g') :
    ∃ ts, (g.opened format).fileTriples p disk = .ok ts ∧ g'.heldTriples = ts.map Row.ofTriple ∧
      (g'.nodes.size : Int) = g'.store.graph.nodePool.mark ∧ (ts ≠ [] → 0 < g'.store.graph.nodePool.mark) ∧
      (ts = [] → g' = (g.opened format).emptied) ∧ g'.frame = (g.opened format).emptied.frame := by
  obtain ⟨ts, hfile, hadd⟩ := bind_eq_ok.1 h
  unfold addAll at hadd
  split at hadd
  · next ids g₁ hrun =>
    cases hadd
    obtain ⟨keys, hi, hl, hall, hframe, hmark⟩ := hg.addTriples hrun
    refine ⟨ts, hfile, ?_, by rw [hi.size, hi.store.nodeMark], fun hne => hmark (by simpa using hne), ?_, hframe⟩
    · rw [hi.heldTriples hl hall, List.map_map]
      · rfl
      · intro call hcall
        obtain ⟨t, ht, rfl⟩ := List.mem_map.1 hcall
        rw [degree_of_frame hframe, degree_of_fileTriples hfile ht]
    · rintro rfl
      cases hrun
      rfl
  · cases hadd

theorem loadStorage_eq_ok : g.loadStorage disk = .ok g' ↔
    ∃ storage, g.storage.ensureLoaded disk = .ok storage ∧ g' = { g with storage } := by
  unfold loadStorage
  cases g.storage.ensureLoaded disk with
  | ok storage => simp [eq_comm]
  | error e => simp

theorem takesCache_eq_usesCache (hformat : format ≠ .binary) :
    g.takesCache format disk = (g.opened format).usesCache disk := by
  simp [takesCache, hformat, usesCache, opened, sourcePath]

theorem ensureFullyLoaded_eq (hg : g.Unloaded) (hformat : format ≠ .binary) (p : Parsers) (order : Triple → List Slot) :
    g.ensureFullyLoaded format p order disk = if g.takesCache format disk then
        ((g.opened format).loadStorage disk).bind fun g => match g.rebuildLiteralNodeCache with
          | some g => .ok g
          | none => .error .assertion
      else ((g.opened format).emptied.loadTriples p order disk).bind (·.loadStorage disk) := by
  rw [ensureFullyLoaded, if_neg hformat, ensureLoaded, if_neg (by simp [hg.loaded]), takesCache_eq_usesCache hformat]
  rfl

/-- From the cache. -/
theorem ensureFullyLoaded_cached (hg : g.Unloaded) (hcache : g.takesCache format disk)
    (hrun : g.ensureFullyLoaded format p order disk = .ok g') :
    ∃ c, g.loadStorage disk = .ok c ∧ g'.storage = c.storage ∧ g'.nodes = c.nodes := by
  by_cases hformat : format = .binary
  · rw [ensureFullyLoaded, if_pos hformat, ensureLoaded, if_neg (by simp [hg.loaded])] at hrun
    obtain ⟨storage, hload, rfl⟩ := loadStorage_eq_ok.1 hrun
    exact ⟨{ g with storage }, loadStorage_eq_ok.2 ⟨storage, hload, rfl⟩, rfl, rfl⟩
  · rw [ensureFullyLoaded_eq hg hformat, if_pos hcache] at hrun
    obtain ⟨g₁, hopen, hrun⟩ := bind_eq_ok.1 hrun
    obtain ⟨storage, hload, rfl⟩ := loadStorage_eq_ok.1 hopen
    split at hrun
    · next hrebuild =>
      cases hrun
      obtain ⟨cache, rfl⟩ := rebuildLiteralNodeCache_eq_some hrebuild
      exact ⟨{ g with storage }, loadStorage_eq_ok.2 ⟨storage, hload, rfl⟩, rfl, rfl⟩
    · cases hrun

/-- From the source. -/
theorem ensureFullyLoaded_parsed (hg : g.Unloaded)
    (hcache : g.takesCache format disk = false) (hrun : g.ensureFullyLoaded format p order disk = .ok g') :
    format ≠ .binary ∧
      ∃ g₁, (g.opened format).emptied.loadTriples p order disk = .ok g₁ ∧ g₁.loadStorage disk = .ok g' := by
  have hformat : format ≠ .binary := by
    rintro rfl
    cases hcache
  rw [ensureFullyLoaded_eq hg hformat, if_neg (by simp [hcache])] at hrun
  exact ⟨hformat, bind_eq_ok.1 hrun⟩

theorem heldTriples_congr (hstorage : g'.storage = g.storage) (hnodes : g'.nodes = g.nodes) :
    g'.heldTriples = g.heldTriples := by
  obtain ⟨⟩ := g
  cases hstorage
  cases hnodes
  rfl

theorem not_sourceNewer (hfuzzy : format ≠ .fuzzyTurtle) (hcache : g.takesCache format disk) :
    ¬ g.SourceNewer format disk := by
  rintro ⟨f, hf, hnew⟩
  have hformat : format ≠ .binary := by
    rintro rfl
    cases hf
  exact (takesCache_iff hformat hfuzzy (by rw [hf]; rfl)).1 hcache ⟨f, hf, hnew⟩

theorem Unloaded.storage_emptied (hg : g.Unloaded) : (g.opened format).emptied.storage = g.storage := by
  obtain ⟨n, r, q, -, -, -, hstorage⟩ := hg.storage
  show { GengoDBGraph.create g.fileName g.storage.storage.graph.nodePool.cap g.storage.storage.graph.relPool.cap
    g.storage.storage.propPool.cap with dbDir := g.dbDir } = g.storage
  rw [hstorage]
  rfl

/-- **A graph that was parsed**: its dictionary has all nodes unless there
was no triple and the cache is not empty, and then it has the triples. -/
theorem Cached.parsed {order : Triple → List Slot} (hg : g.Unloaded) (hc : g.Cached disk s)
    (hcache : g.takesCache format disk = false) (hrun : g.ensureFullyLoaded format p order disk = .ok g') :
    ∃ ts, (g.opened format).fileTriples p disk = .ok ts ∧
      ((g'.nodes.size : Int) = g'.store.graph.nodePool.mark ↔ (ts = [] → s.graph.nodePool.mark = 0)) ∧
      ((ts = [] → s.graph.nodePool.mark = 0) → g'.heldTriples = ts.map Row.ofTriple) := by
  obtain ⟨hformat, g₁, hparse, hload⟩ := ensureFullyLoaded_parsed hg hcache hrun
  obtain ⟨ts, hfile, hheld, hsize, hmark, hempty, hframe⟩ := hg.loadTriples hparse
  refine ⟨ts, hfile, ?_⟩
  by_cases hne : ts = []
  · -- The storage is still empty and takes up the cache.
    cases hempty hne
    obtain ⟨storage, hload', hnodes, htriples⟩ := hc.loadStorage (r := (g.opened format).emptied) hg hg.storage_emptied
    cases hload'.symm.trans hload
    have hzero : ((NodeIdDict.empty.size : Nat) : Int) = storage.storage.graph.nodePool.mark ↔
        s.graph.nodePool.mark = 0 := by
      rw [hnodes]
      exact eq_comm
    refine ⟨hzero.trans (by simp [hne]), fun hkept => ?_⟩
    rw [htriples, hc.flushable.triplesOf_eq_nil (hkept hne), hne]
    rfl
  · have hloaded : g₁.storage.loaded = false := show g₁.frame.storage.loaded = false by rw [hframe]; rfl
    rw [loadStorage_of_kept hloaded (.inl (hmark hne))] at hload
    cases hload
    exact ⟨iff_of_true hsize fun h => absurd h hne, fun _ => hheld⟩

theorem prefix_eq_of_perm_rows {ts ts' : List Triple} (hpre : ts <+: ts')
    (hperm : (ts.map Row.ofTriple).Perm (ts'.map Row.ofTriple)) : ts = ts' :=
  hpre.eq_of_length (by simpa using hperm.length_eq)

/-- **After `ensureLoaded` succeeds**, the graph has the triples of the newer
of source and cache, and a dictionary of all nodes, exactly under the
condition. -/
theorem ensureFullyLoaded_right_iff {order : Triple → List Slot} (hg : g.Unloaded) (hc : g.Cached disk s)
    (hrun : g.ensureFullyLoaded format p order disk = .ok g') :
    g.LoadsRight format p disk s g' ↔ g.LoadCondition format p disk s := by
  cases hcache : g.takesCache format disk with
  | true =>
    obtain ⟨c, hload, hstorage, hnodes⟩ := ensureFullyLoaded_cached hg hcache hrun
    obtain ⟨storage, hload', hmark, htriples⟩ := hc.loadStorage hg rfl
    cases hload'.symm.trans hload
    have hheld : g'.heldTriples = g.triplesOf s := (heldTriples_congr hstorage hnodes).trans htriples
    have hsize : (g'.nodes.size : Int) = g'.store.graph.nodePool.mark ↔
        (g.nodes.size : Int) = s.graph.nodePool.mark := by
      rw [store, hstorage, hnodes, ← hmark]
    constructor
    · intro h
      refine ⟨fun _ => ?_, fun _ => hsize.1 h.size, ?_, ?_⟩
      · by_cases hnew : g.SourceNewer format disk
        · exact .inr (hheld ▸ h.source hnew)
        · exact .inl (iff_of_true hcache hnew)
      · simp [hcache]
      · simp [hcache]
    · intro h
      refine ⟨fun hnew => ?_, fun _ => .of_eq hheld, hsize.2 (h.dictionary hcache)⟩
      have hfuzzy : format = .fuzzyTurtle := by
        by_contra hfuzzy
        exact not_sourceNewer hfuzzy hcache hnew
      rw [hheld]
      exact (h.fuzzy hfuzzy).resolve_left fun hiff => hiff.1 hcache hnew
  | false =>
    obtain ⟨hformat, -⟩ := ensureFullyLoaded_parsed hg hcache hrun
    obtain ⟨ts, hfile, hsize, hheld⟩ := hc.parsed hg hcache hrun
    obtain ⟨hsource, ts', hts', hpre, hcomplete⟩ := sourceTriples_of_fileTriples hformat hfile
    have hnew : format ≠ .fuzzyTurtle → g.SourceNewer format disk := fun hfuzzy => by
      by_contra hold
      exact absurd ((takesCache_iff hformat hfuzzy hsource).2 hold) (by simp [hcache])
    constructor
    · intro h
      have hheld := hheld (hsize.1 h.size)
      refine ⟨fun hfuzzy => ?_, by simp [hcache], fun _ hfuzzy => ?_, fun _ hnil => ?_⟩
      · by_cases hnew : g.SourceNewer format disk
        · exact .inl (iff_of_false (by simp [hcache]) (not_not.2 hnew))
        · have heq := hcomplete.2 fun hne => absurd hfuzzy hne
          exact .inr ⟨ts', hts', heq ▸ hheld ▸ (h.cached hnew).symm⟩
      · obtain ⟨ts'', hts'', hperm⟩ := h.source (hnew hfuzzy)
        cases hts'.symm.trans hts''
        exact hcomplete.1 (prefix_eq_of_perm_rows hpre (hheld ▸ hperm)) hfuzzy
      · cases hts'.symm.trans hnil
        exact hsize.1 h.size (List.prefix_nil.1 hpre)
    · intro h
      obtain rfl := hcomplete.2 (h.complete hcache)
      have hkept : ts = [] → s.graph.nodePool.mark = 0 := fun hnil => h.nonempty hcache (hnil ▸ hts')
      refine ⟨fun _ => ⟨ts, hts', .of_eq (hheld hkept)⟩, fun hold => ?_, hsize.2 hkept⟩
      have hfuzzy : format = .fuzzyTurtle := by
        by_contra hfuzzy
        exact hold (hnew hfuzzy)
      obtain ⟨ts'', hts'', hperm⟩ := (h.fuzzy hfuzzy).resolve_left fun hiff => by simp [hiff.2 hold] at hcache
      cases hts'.symm.trans hts''
      rw [hheld hkept]
      exact hperm.symm

/-- A catalog entry that was just read. -/
theorem unloaded_fromCatalog (dbDir : String) (hname : g.storage.fileName = g.fileName)
    (hn : IsCapacity g.store.graph.nodePool.cap) (hr : IsCapacity g.store.graph.relPool.cap)
    (hp : IsCapacity g.store.propPool.cap) : (g.fromCatalog.setDBDir dbDir).Unloaded where
  loaded := rfl
  literalNodes := rfl
  storage := by
    refine ⟨_, _, _, hn, hr, hp, ?_⟩
    show { GengoDBGraph.create g.storage.fileName _ _ _ with dbDir } = _
    rw [hname]
    rfl

/-! ## A stale and a fresh load -/

/-- `<a> <p> <b>`, the one triple of every source. -/
def sourceQuad : Quad where
  subject := .iri (ascii "a")
  predicate := .iri (ascii "p")
  object := .iri (ascii "b")

def oneTriple : Parsers where
  rdf _ _ := [.ok sourceQuad]
  fuzzyTTL _ _ := .ok { degrees := [one32], triples := [.ok sourceQuad] }

def inOrder : Triple → List Slot := fun _ => [.subject, .predicate, .object]

/-- A graph that holds `literalTriple`. -/
def flushedGraph : RdfGraph :=
  (((create "g" (ascii "g") "" 8 8 8).addTriples [(inOrder literalTriple, literalTriple)]).map
    (·.2.setDBDir "d")).getD (create "g" (ascii "g") "" 8 8 8)

/-- It was flushed at time 1; its source was written at time 2. -/
def editedDisk (extension : String) : Disk := fun path =>
  if path = "d" ++ "g" ++ extension then some { content := [], time := 2 }
  else flushedGraph.storage.flush flushedGraph.store.propData.blobs 1 (fun _ => none) path

def reopenedGraph : RdfGraph := flushedGraph.fromCatalog.setDBDir "d"

theorem sourceNewer_of_times {f c : Nat} (hsource : (g.sourceFile format disk).map (·.time) = some f)
    (hcache : (g.cacheFile disk).map (·.time) = some c) (h : c < f) : g.SourceNewer format disk := by
  obtain ⟨source, hf, rfl⟩ := Option.map_eq_some_iff.1 hsource
  refine ⟨source, hf, fun cache hc => ?_⟩
  rw [hc] at hcache
  cases hcache
  exact h

theorem eq_ok_of_toOption {ε α : Type} {e : Except ε α} {a : α} (h : e.toOption = some a) : e = .ok a := by
  cases e with
  | ok b =>
    cases h
    rfl
  | error _ => cases h

theorem flushedGraph_cached (extension : String)
    (hfile : (reopenedGraph.cacheFile (editedDisk extension)).map (·.content) =
      some (GengoDBGraph.image flushedGraph.store flushedGraph.store.propData.blobs)) :
    reopenedGraph.Cached (editedDisk extension) flushedGraph.store := by
  have hsome : ((create "g" (ascii "g") "" 8 8 8).addTriples [(inOrder literalTriple, literalTriple)]).isSome := by
    decide +kernel
  obtain ⟨⟨ids, g⟩, hrun⟩ := Option.isSome_iff_exists.1 hsome
  have hg : flushedGraph = g.setDBDir "d" := by rw [flushedGraph, hrun]; rfl
  have hsmall : ∀ id < flushedGraph.nodes.size, ∀ k ∈ flushedGraph.meaning id, literalLength k < 2 ^ 32 := by
    decide +kernel
  obtain ⟨keys, h, hl, hall, -⟩ := interned_addTriples (by decide) (by decide) (by decide) hrun
  have hflush : Flushable flushedGraph.store := by
    rw [hg] at hsmall ⊢
    refine h.flushable hl hall fun datatype data hmem => ?_
    obtain ⟨id, hid⟩ := List.mem_iff_getElem?.1 hmem
    exact literal_lt hsmall id datatype data ((h.meaning id).trans hid)
  refine ⟨hflush, ⟨rfl, rfl, rfl⟩, fun f hf => ⟨_, .refl _, ?_⟩, fun hnone => ?_⟩
  · rw [hf] at hfile
    exact Option.some.inj hfile
  · rw [hnone] at hfile
    cases hfile

/-- The `.fttl` file is newer than the cache, but it is a `.ttl` file whose
time is asked for. -/
theorem ensureFullyLoaded_stale_fuzzy : ∃ g',
    reopenedGraph.ensureFullyLoaded .fuzzyTurtle oneTriple inOrder (editedDisk ".fttl") = .ok g' ∧
      ¬ reopenedGraph.LoadsRight .fuzzyTurtle oneTriple (editedDisk ".fttl") flushedGraph.store g' := by
  have hrun : (reopenedGraph.ensureFullyLoaded .fuzzyTurtle oneTriple inOrder (editedDisk ".fttl")).toOption.map
      (·.heldTriples) = some [Row.ofTriple literalTriple] := by
    decide +kernel
  have hts : (reopenedGraph.sourceTriples .fuzzyTurtle oneTriple (editedDisk ".fttl")).map (·.map Row.ofTriple) =
      some [Row.ofTriple (Quad.triple sourceQuad one32)] := by
    decide +kernel
  obtain ⟨g', hok, hheld⟩ := Option.map_eq_some_iff.1 hrun
  refine ⟨g', eq_ok_of_toOption hok, fun h => ?_⟩
  obtain ⟨ts, hsource, hperm⟩ := h.source (sourceNewer_of_times (f := 2) (c := 1) (by decide +kernel)
    (by decide +kernel) (by decide))
  rw [hsource, Option.map_some, Option.some.injEq] at hts
  rw [hheld, hts] at hperm
  exact absurd hperm (by decide)

theorem ensureFullyLoaded_right_turtle : ∃ g',
    reopenedGraph.ensureFullyLoaded .turtle oneTriple inOrder (editedDisk ".ttl") = .ok g' ∧
      reopenedGraph.LoadsRight .turtle oneTriple (editedDisk ".ttl") flushedGraph.store g' := by
  have hrun : (reopenedGraph.ensureFullyLoaded .turtle oneTriple inOrder (editedDisk ".ttl")).toOption.isSome := by
    decide +kernel
  obtain ⟨g', hok⟩ := Option.isSome_iff_exists.1 hrun
  have hts : (reopenedGraph.sourceTriples .turtle oneTriple (editedDisk ".ttl")).map (·.length) = some 1 := by
    decide +kernel
  have hunloaded : reopenedGraph.Unloaded :=
    unloaded_fromCatalog "d" (by decide +kernel) (by decide +kernel) (by decide +kernel) (by decide +kernel)
  refine ⟨g', eq_ok_of_toOption hok, (ensureFullyLoaded_right_iff hunloaded (flushedGraph_cached ".ttl"
    (by decide +kernel)) (eq_ok_of_toOption hok)).2 ⟨nofun, ?_, ?_, ?_⟩⟩
  · intro hcached
    cases hcached
  · intro _ _ f _ r hr
    cases hr
  · intro _ hnil
    rw [hnil] at hts
    cases hts

end RdfGraph
end GengoDB
