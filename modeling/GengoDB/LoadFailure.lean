/-
What a load that fails leaves behind (`semantics/RdfGraph.cpp`,
`runtime/GengoDBGraph.cpp`, `GraphData::getGraph`). Here every step returns
how it ended together with the object it leaves, so that a caller can go on
after an exception; a load that returns is the one of `RdfGraph.ensureLoaded`
(`ensureLoaded_returned_iff`).

Both classes set their flag first. After an exception the next call returns
at once, and a query gets the storage with the triples before the error and
without its mappings. So a failed load is safe only when it does not throw,
and `failsSafe_iff` lists what does.
-/
import GengoDB.Fallible
import GengoDB.RdfFreshness

namespace GengoDB

open Fallible RdfGraph

/-! ## Steps that can fail -/

/-- How a step ends. `undefined` stands for a failed assertion and for what
is made of a file that ends early, which no one checks. -/
inductive Outcome where
  | returned
  | threw (e : RdfLoadError)
  | undefined
  deriving DecidableEq

/-- A graph, and whether `ensureLoaded` has set the mappings of its storage. -/
structure RdfObject where
  graph : RdfGraph
  mapped : Bool

namespace RdfObject

open RdfGraph (one32 parsedTriples isTriple)

/-- The rest of a function, if the first step returns. -/
def andThen (r : Outcome × RdfGraph) (k : RdfGraph → Outcome × RdfGraph) : Outcome × RdfGraph :=
  match r with
  | (.returned, g) => k g
  | r => r

/-- The loop of `loadTriples`. -/
def addParsed (order : Triple → List Slot) : List (Except ParsingError Quad) → RdfGraph → Outcome × RdfGraph
  | .ok q :: rest, g =>
    let t := RdfGraph.Quad.triple q one32
    match g.addTriple (order t) t with
    | some (_, g) => addParsed order rest g
    | none => (.undefined, g)
  | _, g => (.returned, g)

def parseError (path : String) (e : ParsingError) : RdfLoadError :=
  .runtimeError (path ++ ": " ++ e.message ++ " (line " ++ toString e.line ++ ")")

def countMismatch (path : String) (expected : Nat) : RdfLoadError :=
  .runtimeError (path ++ ": parsed triple count does not match the truth degree annotations (expected "
    ++ toString expected ++ ")")

def cannotOpenFuzzy (path : String) : RdfLoadError :=
  .runtimeError ("cannot open fuzzy turtle file '" ++ path ++ "'")

/-- The loop of `loadFuzzyTriples`. -/
def addFuzzy (path : String) (expected : Nat) (order : Triple → List Slot) :
    List (Except ParsingError Quad) → List (BitVec 32) → RdfGraph → Outcome × RdfGraph
  | [], [], g => (.returned, g)
  | .ok q :: rest, degree :: degrees, g =>
    let t := RdfGraph.Quad.triple q degree
    match g.addTriple (order t) t with
    | some (_, g) => addFuzzy path expected order rest degrees g
    | none => (.undefined, g)
  | .error e :: _, _, g => (.threw (parseError path e), g)
  | _, _, g => (.threw (countMismatch path expected), g)

def loadFuzzyTriples (g : RdfGraph) (p : Parsers) (order : Triple → List Slot) (disk : Disk) : Outcome × RdfGraph :=
  let path := g.dbDir ++ g.sourceFileName ++ RDFFileFormat.fuzzyTurtle.getRDFFileExtension
  match disk path with
  | none => (.threw (cannotOpenFuzzy path), g)
  | some f =>
    match p.fuzzyTTL g.rdfParseFlags f.content with
    | .error e => (.threw (.runtimeError (path ++ ": " ++ e)), g)
    | .ok fttl => addFuzzy path fttl.degrees.length order fttl.triples fttl.degrees g

def loadTriples (g : RdfGraph) (p : Parsers) (order : Triple → List Slot) (disk : Disk) : Outcome × RdfGraph :=
  if !g.loadedFromRdfFile then (.returned, g)
  else if g.fuzzy then loadFuzzyTriples g p order disk
  else
    match disk g.sourcePath with
    | none => (.threw (.cannotOpen g.sourcePath), g)
    | some f => addParsed order (p.rdf g.rdfParseFlags f.content) g

/-- `storage->ensureLoaded()`: the flag is set before the file is read. -/
def loadStorage (disk : Disk) (g : RdfGraph) : Outcome × RdfGraph :=
  match g.storage.ensureLoaded disk with
  | .ok storage => (.returned, { g with storage })
  | .error (.badMagic path) => (.threw (.storage (.badMagic path)), { g with storage := { g.storage with loaded := true } })
  | .error .badFile => (.undefined, { g with storage := { g.storage with loaded := true } })

def rebuildLiteralNodeCache (g : RdfGraph) : Outcome × RdfGraph :=
  match g.rebuildLiteralNodeCache with
  | some g => (.returned, g)
  | none => (.undefined, g)

/-! ## The object -/

/-- The mappings are set last. -/
def setMappings (mapped : Bool) : Outcome × RdfGraph → Outcome × RdfObject
  | (.returned, graph) => (.returned, { graph, mapped := true })
  | (outcome, graph) => (outcome, { graph, mapped })

def ensureLoaded (o : RdfObject) (p : Parsers) (order : Triple → List Slot) (disk : Disk) : Outcome × RdfObject :=
  if o.graph.loaded then (.returned, o)
  else
    let g := { o.graph with loaded := true }
    let parses := g.loadedFromRdfFile && !g.usesCache disk
    let r := if parses then loadTriples g.emptied p order disk else (.returned, g)
    let r := andThen r (loadStorage disk)
    let r := if g.usesCache disk then andThen r rebuildLiteralNodeCache else r
    -- A storage that was made for the triples of the source has no mappings.
    setMappings (o.mapped && !parses) r

def ensureFullyLoaded (o : RdfObject) (format : RDFFileFormat) (p : Parsers) (order : Triple → List Slot)
    (disk : Disk) : Outcome × RdfObject :=
  if format = .binary then
    ({ o with graph := { o.graph with loadedFromRdfFile := false } } : RdfObject).ensureLoaded p order disk
  else
    ({ o with
      graph := { o.graph with
        loadedFromRdfFile := true
        rdfParseFlags := format.getRDFParseFlags
        fuzzy := decide (format = .fuzzyTurtle) } } : RdfObject).ensureLoaded p order disk

/-- `GraphData::getGraph` for the graph's name: the storage a query runs on. -/
def getGraph (o : RdfObject) (format : RDFFileFormat) (iri : Bytes) (p : Parsers) (order : Triple → List Slot)
    (disk : Disk) : Option PropertyStore × RdfObject :=
  match o.ensureFullyLoaded format p order disk with
  | (.returned, o) => (if o.graph.iri = iri then some o.graph.store else none, o)
  | (_, o) => (none, o)

/-! ## The loops -/

variable {g g' : RdfGraph} {order : Triple → List Slot}

def calls (order : Triple → List Slot) (ts : List Triple) : List (List Slot × Triple) := ts.map fun t => (order t, t)

/-- The triples the fuzzy loop adds before it ends. -/
def matched : List (Except ParsingError Quad) → List (BitVec 32) → List Triple
  | .ok q :: rest, degree :: degrees => RdfGraph.Quad.triple q degree :: matched rest degrees
  | _, _ => []

/-- One degree for every triple, and no syntax error. -/
def Annotated (rs : List (Except ParsingError Quad)) (degrees : List (BitVec 32)) : Prop :=
  (∀ r ∈ rs, isTriple r = true) ∧ rs.length = degrees.length

theorem matched_eq_nil {rs : List (Except ParsingError Quad)} {degrees : List (BitVec 32)} :
    matched rs degrees = [] ∧ Annotated rs degrees ↔ rs = [] ∧ degrees = [] := by
  rcases rs with _ | ⟨_ | q, rs⟩ <;> cases degrees <;> simp [matched, Annotated, isTriple]

theorem addTriples_cons (t : Triple) (ts : List Triple) : g.addTriples (calls order (t :: ts)) =
      (g.addTriple (order t) t).bind fun r => (r.2.addTriples (calls order ts)).map fun s => (r.1 :: s.1, s.2) := by
  show (g.addTriple (order t) t >>= fun r => r.2.addTriples (calls order ts) >>= fun s => pure (r.1 :: s.1, s.2)) = _
  cases g.addTriple (order t) t with
  | none => rfl
  | some r => exact (Option.map_eq_bind ..).symm

/-- A run that adds the triples `ts` and ends with `how`, or fails on the way. -/
def Ends (order : Triple → List Slot) (g : RdfGraph) (ts : List Triple) (how : Outcome) (run : Outcome × RdfGraph) :
    Prop :=
  match g.addTriples (calls order ts) with
  | none => run.1 = .undefined
  | some (_, g') => run = (how, g')

/-- One turn of a loop. -/
theorem Ends.cons {t : Triple} {ts : List Triple} {how : Outcome} {step : RdfGraph → Outcome × RdfGraph}
    (h : ∀ g, Ends order g ts how (step g)) : Ends order g (t :: ts) how (match g.addTriple (order t) t with
        | some (_, g) => step g
        | none => (.undefined, g)) := by
  rw [Ends, addTriples_cons]
  cases g.addTriple (order t) t with
  | none => rfl
  | some r =>
    have hrest := h r.2
    rw [Ends] at hrest
    cases hadd : r.2.addTriples (calls order ts) with
    | none | some s => simpa [hadd] using hrest

theorem addParsed_ends (rs : List (Except ParsingError Quad)) (g : RdfGraph) :
    Ends order g (parsedTriples rs) .returned (addParsed order rs g) := by
  induction rs generalizing g with
  | nil => rfl
  | cons r rs ih =>
    cases r with
    | error e => rfl
    | ok q => exact .cons ih

theorem addFuzzy_ends (order : Triple → List Slot) (path : String) (expected : Nat) (rs : List (Except ParsingError Quad))
    (degrees : List (BitVec 32)) : ∃ how, how ≠ .undefined ∧ (how = .returned ↔ Annotated rs degrees) ∧
      ∀ g, Ends order g (matched rs degrees) how (addFuzzy path expected order rs degrees g) := by
  induction rs generalizing degrees with
  | nil =>
    cases degrees with
    | nil => exact ⟨.returned, nofun, by simp [Annotated], fun g => rfl⟩
    | cons d ds => exact ⟨.threw (countMismatch path expected), nofun, by simp [Annotated], fun g => rfl⟩
  | cons r rs ih =>
    cases r with
    | error e => exact ⟨.threw (parseError path e), nofun, by simp [Annotated, isTriple], fun g => rfl⟩
    | ok q =>
      cases degrees with
      | nil => exact ⟨.threw (countMismatch path expected), nofun, by simp [Annotated], fun g => rfl⟩
      | cons d ds =>
        obtain ⟨how, hhow, hann, hends⟩ := ih ds
        exact ⟨how, hhow, by simpa [Annotated, isTriple] using hann, fun g => .cons hends⟩

/-! ## Loads that return -/

section Returned

variable {p : Parsers} {disk : Disk} {path : String} {expected : Nat} {rs : List (Except ParsingError Quad)}
  {degrees : List (BitVec 32)} {ts : List Triple} {how : Outcome} {run : Outcome × RdfGraph}

theorem addAll_eq_ok : g.addAll order ts = .ok g' ↔ ∃ ids, g.addTriples (calls order ts) = some (ids, g') := by
  unfold addAll calls
  cases g.addTriples (ts.map fun t => (order t, t)) with
  | none => simp
  | some r => simp [Prod.ext_iff]

theorem Ends.returned_iff (h : Ends order g ts how run) :
    run = (.returned, g') ↔ how = .returned ∧ g.addAll order ts = .ok g' := by
  rw [Ends] at h
  rw [addAll_eq_ok]
  cases hadd : g.addTriples (calls order ts) with
  | none =>
    simp only [hadd] at h
    refine iff_of_false (fun hrun => ?_) (by simp)
    rw [hrun] at h
    cases h
  | some r =>
    simp only [hadd] at h
    simp [h, Prod.ext_iff]

theorem zipDegrees_eq_ok_iff :
    zipDegrees path expected rs degrees = .ok ts ↔ Annotated rs degrees ∧ matched rs degrees = ts := by
  induction rs generalizing degrees ts with
  | nil => cases degrees <;> simp [zipDegrees, Annotated, matched]
  | cons r rs ih =>
    cases r with
    | error e => simp [zipDegrees, Annotated, isTriple]
    | ok q =>
      cases degrees with
      | nil => simp [zipDegrees, Annotated]
      | cons d ds =>
        have hann : Annotated (.ok q :: rs) (d :: ds) ↔ Annotated rs ds := by simp [Annotated, isTriple]
        rw [hann, matched, zipDegrees]
        cases hzip : zipDegrees path expected rs ds with
        | error e =>
          have hno : ¬ Annotated rs ds := fun h => by cases hzip.symm.trans (ih.2 ⟨h, rfl⟩)
          simp [Except.map, hno]
        | ok ts' =>
          obtain ⟨h, hts⟩ := ih.1 hzip
          simp [Except.map, h, hts]

theorem addFuzzy_returned_iff : addFuzzy path expected order rs degrees g = (.returned, g') ↔
    (zipDegrees path expected rs degrees).bind (g.addAll order) = .ok g' := by
  obtain ⟨how, -, hann, hends⟩ := addFuzzy_ends order path expected rs degrees
  rw [(hends g).returned_iff, hann]
  refine Iff.trans ?_ bind_eq_ok.symm
  simp only [zipDegrees_eq_ok_iff, and_assoc, exists_and_left, exists_eq_left']

theorem loadTriples_returned_iff : loadTriples g p order disk = (.returned, g') ↔ g.loadTriples p order disk = .ok g' := by
  unfold loadTriples RdfGraph.loadTriples
  cases g.loadedFromRdfFile with
  | false => simp
  | true =>
    simp only [Bool.not_true, Bool.false_eq_true, if_false, if_true]
    unfold fileTriples
    cases g.fuzzy with
    | true =>
      simp only [if_true, loadFuzzyTriples, fuzzyTriples]
      cases disk (g.dbDir ++ g.sourceFileName ++ RDFFileFormat.fuzzyTurtle.getRDFFileExtension) with
      | none => simp [Except.bind]
      | some f =>
        dsimp only
        cases p.fuzzyTTL g.rdfParseFlags f.content with
        | error e => simp [Except.bind]
        | ok fttl => exact addFuzzy_returned_iff
    | false =>
      simp only [Bool.false_eq_true, if_false, sourcePath]
      cases disk (g.dbDir ++ g.sourceFileName ++ RDFFileFormat.flagExtension g.rdfParseFlags) with
      | none => simp [Except.bind]
      | some f => exact (addParsed_ends _ g).returned_iff.trans (and_iff_right rfl)

theorem loadStorage_returned_iff : loadStorage disk g = (.returned, g') ↔ g.loadStorage disk = .ok g' := by
  unfold loadStorage RdfGraph.loadStorage
  cases g.storage.ensureLoaded disk with
  | ok storage => simp
  | error e => cases e <;> simp

theorem andThen_returned_iff {k : RdfGraph → Outcome × RdfGraph} :
    andThen run k = (.returned, g') ↔ ∃ g₁, run = (.returned, g₁) ∧ k g₁ = (.returned, g') := by
  obtain ⟨outcome, g⟩ := run
  cases outcome <;> simp [andThen]

theorem setMappings_returned_iff {mapped : Bool} {o' : RdfObject} :
    setMappings mapped run = (.returned, o') ↔ run = (.returned, o'.graph) ∧ o'.mapped = true := by
  obtain ⟨outcome, g⟩ := run
  obtain ⟨g', mapped'⟩ := o'
  cases outcome <;> simp [setMappings, eq_comm]

/-- **A load that returns** is that of `RdfGraph.ensureLoaded`. -/
theorem ensureLoaded_returned_iff {o : RdfObject} :
    (∃ mapped, o.ensureLoaded p order disk = (.returned, { graph := g', mapped })) ↔
      o.graph.ensureLoaded p order disk = .ok g' := by
  unfold ensureLoaded RdfGraph.ensureLoaded
  cases o.graph.loaded with
  | true =>
    obtain ⟨g, mapped⟩ := o
    simp
  | false =>
    simp only [Bool.false_eq_true, if_false, setMappings_returned_iff, exists_eq_right]
    cases ({ o.graph with loaded := true } : RdfGraph).usesCache disk with
    | true =>
      have hrebuild (g₁ : RdfGraph) : rebuildLiteralNodeCache g₁ = (.returned, g') ↔
          (match g₁.rebuildLiteralNodeCache with | some g => Except.ok g | none => .error RdfLoadError.assertion) =
            .ok g' := by
        unfold rebuildLiteralNodeCache
        cases g₁.rebuildLiteralNodeCache <;> simp
      simp only [Bool.not_true, Bool.and_false, Bool.false_eq_true, if_false, if_true, andThen_returned_iff,
        loadStorage_returned_iff, hrebuild]
      simp only [Prod.mk.injEq, true_and, exists_eq_left']
      exact bind_eq_ok.symm
    | false =>
      cases o.graph.loadedFromRdfFile with
      | true =>
        simp only [Bool.not_false, Bool.and_true, if_true, Bool.false_eq_true, if_false, andThen_returned_iff,
          loadTriples_returned_iff, loadStorage_returned_iff]
        exact bind_eq_ok.symm
      | false =>
        simp only [Bool.false_and, Bool.false_eq_true, if_false, andThen_returned_iff, loadStorage_returned_iff]
        simp

end Returned

/-! ## What throws -/

variable {p : Parsers} {disk : Disk} {o o' : RdfObject} {format : RDFFileFormat} {r : Outcome × RdfGraph}
  {e : RdfLoadError}

/-- The source cannot be opened, or is malformed and not given up on before
that shows. -/
inductive SourceFails (g : RdfGraph) (format : RDFFileFormat) (p : Parsers) (order : Triple → List Slot) (disk : Disk) :
    Prop where
  | missing (hfile : g.sourceFile format disk = none)
  | malformed {f e} (hfuzzy : format = .fuzzyTurtle) (hfile : g.sourceFile format disk = some f)
    (hparse : p.fuzzyTTL format.getRDFParseFlags f.content = .error e)
  | annotations {f fttl} (hfuzzy : format = .fuzzyTurtle) (hfile : g.sourceFile format disk = some f)
    (hparse : p.fuzzyTTL format.getRDFParseFlags f.content = .ok fttl)
    (hann : ¬ Annotated fttl.triples fttl.degrees)
    (hroom : ((g.opened format).emptied.addTriples (calls order (matched fttl.triples fttl.degrees))).isSome = true)

/-- The source starts with no triple. -/
def NoTriples (g : RdfGraph) (format : RDFFileFormat) (p : Parsers) (disk : Disk) : Prop :=
  ∃ f, g.sourceFile format disk = some f ∧
    if format = .fuzzyTurtle then
      ∃ fttl, p.fuzzyTTL format.getRDFParseFlags f.content = .ok fttl ∧ fttl.triples = [] ∧ fttl.degrees = []
    else parsedTriples (p.rdf format.getRDFParseFlags f.content) = []

/-- There is a cache file, and it starts with another word. -/
def BadMagic (g : RdfGraph) (disk : Disk) : Prop :=
  ∃ c magic counts rest, g.cacheFile disk = some c ∧ GengoDBGraph.header.run c.content = some ((magic, counts), rest) ∧
    magic ≠ GengoDBGraph.graphFileMagic

/-- What makes a load throw: a source that is needed fails, or a cache that is
read has a bad magic. -/
def Failing (g : RdfGraph) (format : RDFFileFormat) (p : Parsers) (order : Triple → List Slot) (disk : Disk) : Prop :=
  if g.takesCache format disk then BadMagic g disk
  else SourceFails g format p order disk ∨ (NoTriples g format p disk ∧ BadMagic g disk)

/-- A load that throws leaves the graph unloaded: as long as the files are
the same every later call throws, and no query gets the storage. -/
def FailsSafe (o : RdfObject) (format : RDFFileFormat) (p : Parsers) (order : Triple → List Slot) (disk : Disk) :
    Prop :=
  ∀ e o', o.ensureFullyLoaded format p order disk = (.threw e, o') → ∀ later : List (Triple → List Slot),
    let now := later.foldl (fun o order => (o.ensureFullyLoaded format p order disk).2) o'
    ∀ order, (∃ e' o'', now.ensureFullyLoaded format p order disk = (.threw e', o'')) ∧
      ∀ iri, (now.getGraph format iri p order disk).1 = none

/-! ## The storage -/

theorem loadStorage_threw_iff (hloaded : g.storage.loaded = false) (disk : Disk) {e : RdfLoadError} {g' : RdfGraph} :
    loadStorage disk g = (.threw e, g') ↔ (g.store.graph.nodePool.mark ≤ 0 ∧ BadMagic g disk) ∧
      e = .storage (.badMagic g.storage.graphPath) ∧ g' = { g with storage := { g.storage with loaded := true } } := by
  by_cases hkept : 0 < g.store.graph.nodePool.mark ∨ g.cacheFile disk = none
  · obtain ⟨storage, hstorage, -⟩ := loadStorage_eq_ok.1 (loadStorage_of_kept hloaded hkept)
    refine iff_of_false (fun h => ?_) ?_
    · rw [loadStorage, hstorage] at h
      cases h
    · rintro ⟨⟨hmark, c, _, _, _, hc, -⟩, -⟩
      exact hkept.elim (fun hlt => by omega) fun hnone => by cases hnone.symm.trans hc
  · obtain ⟨hmark, hsome⟩ := not_or.1 hkept
    obtain ⟨c, hc⟩ := Option.ne_none_iff_exists'.1 hsome
    have hnames : ¬ (g.storage.dbDir = "" ∨ g.storage.fileName = "") := by
      intro hnames
      rw [cacheFile, if_pos hnames] at hc
      cases hc
    have hpath : disk (GengoDBGraph.graphPath { g.storage with loaded := true }) = some c := by
      rwa [cacheFile, if_neg hnames] at hc
    have hread : g.storage.ensureLoaded disk =
        (GengoDBGraph.readFile g.store (GengoDBGraph.graphPath { g.storage with loaded := true }) c.content).map
          fun storage => { g.storage with loaded := true, storage } := by
      simp only [GengoDBGraph.ensureLoaded, hloaded]
      refine (if_neg (not_or.2 ⟨hmark, hnames⟩)).trans ?_
      rw [hpath]
      rfl
    cases hheader : GengoDBGraph.header.run c.content with
    | none =>
      simp [loadStorage, hread, GengoDBGraph.readFile, hheader, BadMagic, hc, Except.map]
    | some r =>
      obtain ⟨⟨magic, nNodes, nRels, nProps⟩, rest⟩ := r
      by_cases hmagic : magic = GengoDBGraph.graphFileMagic
      · cases hrest : (GengoDBGraph.contents g.store nNodes nRels nProps).run rest <;>
          simp [loadStorage, hread, GengoDBGraph.readFile, hheader, BadMagic, hc, hmagic, hrest, Except.map]
      · simp [loadStorage, hread, GengoDBGraph.readFile, hheader, BadMagic, hc, hmagic, Except.map,
          Int.not_lt.1 hmark, GengoDBGraph.graphPath, eq_comm]

theorem cacheFile_of_frame (hg : g.Unloaded) (h : g'.frame = (g.opened format).emptied.frame) :
    g'.cacheFile disk = g.cacheFile disk := by
  obtain ⟨n, r, q, -, -, -, hstorage⟩ := hg.storage
  have hdir : g'.frame.storage.dbDir = g.storage.dbDir := by rw [h, hstorage]; rfl
  have hname : g'.frame.storage.fileName = g.storage.fileName := by rw [h, hstorage]; rfl
  show (if g'.frame.storage.dbDir = "" ∨ g'.frame.storage.fileName = "" then none
    else disk (g'.frame.storage.dbDir ++ "/db.neo4j." ++ g'.frame.storage.fileName ++ ".dat")) = _
  rw [hdir, hname]
  rfl

/-! ## The source -/

/-- Parsing the source into the empty graph: what is added, and how it ends. -/
theorem loadTriples_ends (g : RdfGraph) (order : Triple → List Slot) (p : Parsers) (disk : Disk)
    (hformat : format ≠ .binary) : ∃ ts how, how ≠ .undefined ∧
      Ends order (g.opened format).emptied ts how (loadTriples (g.opened format).emptied p order disk) ∧
      (SourceFails g format p order disk ↔
        how ≠ .returned ∧ ((g.opened format).emptied.addTriples (calls order ts)).isSome) ∧
      (NoTriples g format p disk ↔ ts = [] ∧ how = .returned) := by
  have hsource : g.sourceFile format disk = disk (g.dbDir ++ g.sourceFileName ++ format.getRDFFileExtension) :=
    if_neg hformat
  by_cases hfuzzy : format = .fuzzyTurtle
  · subst hfuzzy
    let path := g.dbDir ++ g.sourceFileName ++ RDFFileFormat.fuzzyTurtle.getRDFFileExtension
    have hload : loadTriples (g.opened .fuzzyTurtle).emptied p order disk =
        loadFuzzyTriples (g.opened .fuzzyTurtle).emptied p order disk := rfl
    have hdisk : disk ((g.opened .fuzzyTurtle).emptied.dbDir ++ (g.opened .fuzzyTurtle).emptied.sourceFileName ++
        RDFFileFormat.fuzzyTurtle.getRDFFileExtension) = g.sourceFile .fuzzyTurtle disk := rfl
    have hflags : (g.opened .fuzzyTurtle).emptied.rdfParseFlags = RDFFileFormat.getRDFParseFlags .fuzzyTurtle := rfl
    cases hfile : g.sourceFile .fuzzyTurtle disk with
    | none =>
      refine ⟨[], .threw (cannotOpenFuzzy path), by simp, by simp only [hload, loadFuzzyTriples, hdisk, hfile]; rfl,
        iff_of_true (.missing hfile) ⟨by simp, rfl⟩, ?_⟩
      simp [NoTriples, hfile]
    | some f =>
      cases hparse : p.fuzzyTTL (RDFFileFormat.getRDFParseFlags .fuzzyTurtle) f.content with
      | error e =>
        refine ⟨[], .threw (.runtimeError (path ++ ": " ++ e)), by simp,
          by simp only [hload, loadFuzzyTriples, hdisk, hflags, hfile, hparse]; rfl,
          iff_of_true (.malformed rfl hfile hparse) ⟨by simp, rfl⟩, ?_⟩
        simp [NoTriples, hfile, hparse]
      | ok fttl =>
        obtain ⟨how, hhow, hann, hends⟩ := addFuzzy_ends order path fttl.degrees.length fttl.triples fttl.degrees
        refine ⟨_, how, hhow, by simp only [hload, loadFuzzyTriples, hdisk, hflags, hfile, hparse]; exact hends _,
          ⟨fun h => ?_, fun h => ?_⟩, ?_⟩
        · cases h with
          | missing h => cases hfile.symm.trans h
          | malformed _ h hp =>
            cases hfile.symm.trans h
            cases hparse.symm.trans hp
          | annotations _ h hp hnot hroom =>
            cases hfile.symm.trans h
            cases hparse.symm.trans hp
            exact ⟨mt hann.1 hnot, hroom⟩
        · exact .annotations rfl hfile hparse (mt hann.2 h.1) h.2
        · simpa [NoTriples, hfile, hparse, hann] using matched_eq_nil.symm
  · have hdisk : disk (g.opened format).emptied.sourcePath = g.sourceFile format disk := by
      rw [hsource, getRDFFileExtension_of_ne hfuzzy]
      rfl
    have hrdf : (g.opened format).emptied.loadedFromRdfFile ∧ (g.opened format).emptied.fuzzy = false :=
      ⟨rfl, decide_eq_false hfuzzy⟩
    have hload : loadTriples (g.opened format).emptied p order disk = _ :=
      (if_neg (by simp [hrdf.1])).trans (if_neg (by simp [hrdf.2]))
    cases hfile : g.sourceFile format disk with
    | none =>
      refine ⟨[], .threw (.cannotOpen (g.opened format).emptied.sourcePath), by simp,
        by simp only [hload, hdisk, hfile]; rfl, iff_of_true (.missing hfile) ⟨by simp, rfl⟩, ?_⟩
      simp [NoTriples, hfile]
    | some f =>
      refine ⟨parsedTriples (p.rdf format.getRDFParseFlags f.content), .returned, by simp,
        by simp only [hload, hdisk, hfile]; exact addParsed_ends _ _, iff_of_false ?_ (by simp), ?_⟩
      · rintro (h | ⟨h, -, -⟩ | ⟨h, -, -, -, -⟩)
        · cases hfile.symm.trans h
        · exact hfuzzy h
        · exact hfuzzy h
      · simp [NoTriples, hfile, hfuzzy]

/-! ## Loading -/

theorem andThen_rebuild_threw : andThen r rebuildLiteralNodeCache = (.threw e, g') ↔ r = (.threw e, g') := by
  obtain ⟨outcome, g⟩ := r
  cases outcome with
  | returned =>
    simp only [andThen, rebuildLiteralNodeCache]
    cases g.rebuildLiteralNodeCache <;> simp
  | threw e' => exact Iff.rfl
  | undefined => exact Iff.rfl

theorem setMappings_threw {mapped : Bool} :
    setMappings mapped r = (.threw e, o') ↔ r = (.threw e, o'.graph) ∧ o'.mapped = mapped := by
  obtain ⟨outcome, g⟩ := r
  obtain ⟨g', mapped'⟩ := o'
  cases outcome <;> simp [setMappings, and_assoc, eq_comm]

theorem ensureFullyLoaded_of_loaded (h : o.graph.loaded) : (o.ensureFullyLoaded format p order disk).1 = .returned := by
  unfold ensureFullyLoaded
  split <;> rw [ensureLoaded, if_pos h]

section
variable (hg : o.graph.Unloaded) (p order)
include hg

/-- A graph with a source, from the cache or not. -/
theorem ensureFullyLoaded_eq (hformat : format ≠ .binary) : o.ensureFullyLoaded format p order disk =
      if (o.graph.opened format).usesCache disk then
        setMappings o.mapped (andThen (loadStorage disk (o.graph.opened format)) rebuildLiteralNodeCache)
      else setMappings false (andThen (loadTriples (o.graph.opened format).emptied p order disk) (loadStorage disk)) := by
  rw [ensureFullyLoaded, if_neg hformat, ensureLoaded, if_neg (by simp [hg.loaded])]
  dsimp only [opened]
  split
  · next hcached => simp [hcached, andThen]
  · next hcached => simp [hcached]

/-- From the cache. -/
theorem ensureFullyLoaded_cached_threw (hcache : o.graph.takesCache format disk) :
    ∃ g₁, g₁.loaded ∧ g₁.storage = o.graph.storage ∧
      ∀ e o', o.ensureFullyLoaded format p order disk = (.threw e, o') ↔
        loadStorage disk g₁ = (.threw e, o'.graph) ∧ o'.mapped = o.mapped := by
  by_cases hformat : format = .binary
  · refine ⟨{ o.graph with loadedFromRdfFile := false, loaded := true }, rfl, rfl, fun e o' => ?_⟩
    have hrun : o.ensureFullyLoaded format p order disk =
        setMappings (o.mapped && true) (loadStorage disk { o.graph with loadedFromRdfFile := false, loaded := true }) := by
      rw [ensureFullyLoaded, if_pos hformat, ensureLoaded, if_neg (by simp [hg.loaded])]
      rfl
    rw [hrun, setMappings_threw, Bool.and_true]
  · refine ⟨o.graph.opened format, rfl, rfl, fun e o' => ?_⟩
    have huses : (o.graph.opened format).usesCache disk := by
      rw [← hcache, takesCache_eq_usesCache hformat]
    rw [ensureFullyLoaded_eq order p hg hformat, if_pos huses, setMappings_threw, andThen_rebuild_threw]

/-- From the source. -/
theorem ensureFullyLoaded_parsed_threw (hcache : o.graph.takesCache format disk = false) (e : RdfLoadError)
    (o' : RdfObject) :
    o.ensureFullyLoaded format p order disk = (.threw e, o') ↔
      andThen (loadTriples (o.graph.opened format).emptied p order disk) (loadStorage disk) = (.threw e, o'.graph) ∧
        o'.mapped = false := by
  have hformat : format ≠ .binary := by
    rintro rfl
    cases hcache
  have huses : (o.graph.opened format).usesCache disk = false := by
    rw [← hcache, takesCache_eq_usesCache hformat]
  rw [ensureFullyLoaded_eq order p hg hformat, if_neg (by simp [huses]), setMappings_threw]

/-- **What throws**, and that the flag stays set. -/
theorem threw_iff (format : RDFFileFormat) (disk : Disk) :
    ((∃ e o', o.ensureFullyLoaded format p order disk = (.threw e, o')) ↔ Failing o.graph format p order disk) ∧
    ∀ e o', o.ensureFullyLoaded format p order disk = (.threw e, o') → o'.graph.loaded := by
  obtain ⟨n, r, q, hn, hr, hq, hstorage⟩ := id hg.storage
  cases hcache : o.graph.takesCache format disk with
  | true =>
    obtain ⟨g₁, hloaded, hsame, hthrew⟩ := ensureFullyLoaded_cached_threw order p hg hcache
    have hmark : g₁.store.graph.nodePool.mark = 0 := by
      show g₁.storage.storage.graph.nodePool.mark = 0
      rw [hsame, hstorage]
      rfl
    have hflag : g₁.storage.loaded = false := by
      rw [hsame, hstorage]
      rfl
    have hbad : BadMagic g₁ disk ↔ BadMagic o.graph disk := by
      unfold BadMagic cacheFile
      rw [hsame]
    rw [Failing, if_pos hcache, ← hbad]
    simp only [hthrew, loadStorage_threw_iff hflag, hmark]
    refine ⟨⟨?_, fun h => ⟨_, ⟨_, o.mapped⟩, ⟨⟨le_refl 0, h⟩, rfl, rfl⟩, rfl⟩⟩, ?_⟩
    · rintro ⟨e, o', ⟨⟨-, h⟩, -⟩, -⟩
      exact h
    · rintro e o' ⟨⟨-, -, h⟩, -⟩
      rw [h]
      exact hloaded
  | false =>
    have hformat : format ≠ .binary := by
      rintro rfl
      cases hcache
    rw [Failing, if_neg (by simp [hcache])]
    simp only [ensureFullyLoaded_parsed_threw order p hg hcache]
    obtain ⟨ts, how, hhow, hends, hfails, hempty⟩ := loadTriples_ends o.graph order p disk hformat
    rw [Ends] at hends
    rw [hfails, hempty]
    generalize loadTriples (o.graph.opened format).emptied p order disk = run at hends
    cases hadd : (o.graph.opened format).emptied.addTriples (calls order ts) with
    | none =>
      simp only [hadd] at hends
      have hne : ts ≠ [] := by
        rintro rfl
        cases hadd
      rw [show run = (.undefined, run.2) from Prod.ext hends rfl]
      simp [andThen, hne]
    | some r =>
      obtain ⟨ids, g'⟩ := r
      obtain ⟨keys, -, -, -, hframe, hmark⟩ := hg.addTriples hadd
      have hflag : g'.storage.loaded = false := congrArg (fun g => g.storage.loaded) hframe
      have hloaded : g'.loaded := congrArg loaded hframe
      have hbad : BadMagic g' disk ↔ BadMagic o.graph disk := by
        unfold BadMagic
        rw [cacheFile_of_frame hg hframe]
      have hnone : ts = [] ↔ g'.store.graph.nodePool.mark ≤ 0 := by
        refine ⟨fun h => ?_, fun h => by_contra fun hne => ?_⟩
        · subst h
          cases hadd
          exact le_refl 0
        · have := hmark (by simpa [calls] using hne)
          omega
      simp only [hadd] at hends
      subst hends
      cases how with
      | undefined => exact absurd rfl hhow
      | threw e =>
        refine ⟨iff_of_true ⟨e, ⟨g', false⟩, rfl, rfl⟩ (.inl ⟨nofun, rfl⟩), fun e' o' h => ?_⟩
        exact (congrArg (fun r => r.2.loaded) h.1).symm.trans hloaded
      | returned =>
        simp only [andThen, loadStorage_threw_iff hflag, ne_eq, not_true_eq_false, false_and, false_or, and_true, hnone,
          ← hbad]
        refine ⟨⟨?_, fun h => ⟨_, ⟨_, false⟩, ⟨h, rfl, rfl⟩, rfl⟩⟩, ?_⟩
        · rintro ⟨e, o', ⟨h, -⟩, -⟩
          exact h
        · rintro e o' ⟨⟨-, -, h⟩, -⟩
          rw [h]
          exact hloaded

end

/-- **A failed load is never safe**: a later call returns, whatever the files
are by then. -/
theorem failsSafe_iff (hg : o.graph.Unloaded) :
    o.FailsSafe format p order disk ↔ ¬ Failing o.graph format p order disk := by
  obtain ⟨hthrew, hloaded⟩ := threw_iff order p hg format disk
  rw [← hthrew]
  constructor
  · rintro hsafe ⟨e, o', h⟩
    obtain ⟨⟨e', o'', hlater⟩, -⟩ := hsafe e o' h [] order
    rw [List.foldl_nil] at hlater
    have hreturned : (o'.ensureFullyLoaded format p order disk).1 = .returned :=
      ensureFullyLoaded_of_loaded (hloaded e o' h)
    rw [hlater] at hreturned
    cases hreturned
  · intro hnot e o' h
    exact absurd ⟨e, o', h⟩ hnot

/-- A parser that finds one triple and then a syntax error. -/
def oneThenError : Parsers where
  rdf _ _ := []
  fuzzyTTL _ _ := .ok {
    degrees := [one32, one32]
    triples := [.ok ⟨.iri (ascii "a"), .iri (ascii "p"), .iri (ascii "b")⟩, .error ⟨"expected '.'", 2⟩] }

def fuzzyDisk : Disk := fun path => if path = "db/s.fttl" then some ⟨[], 0⟩ else none

def fuzzyObject : RdfObject where
  graph := (RdfGraph.create "g" (ascii "g") "s" 8 8 8).setDBDir "db/"
  mapped := false

/-- The load throws, the next call returns, and a query gets a storage with
the first triple and no mappings. -/
theorem failed_load_is_used :
    let order : Triple → List Slot := fun _ => [.subject, .predicate, .object]
    let first := fuzzyObject.ensureFullyLoaded .fuzzyTurtle oneThenError order fuzzyDisk
    let second := first.2.ensureFullyLoaded .fuzzyTurtle oneThenError order fuzzyDisk
    let query := first.2.getGraph .fuzzyTurtle (ascii "g") oneThenError order fuzzyDisk
    first.1 = .threw (.runtimeError "db/s.fttl: expected '.' (line 2)") ∧ second.1 = .returned ∧
      query.1.map (fun s => s.graph.relPool.mark) = some 1 ∧ query.2.mapped = false := by
  decide +kernel

/-- A graph without a file does not throw. -/
theorem failsSafe_without_file : fuzzyObject.graph.Unloaded ∧
      fuzzyObject.FailsSafe .binary oneThenError (fun _ => [.subject, .predicate, .object]) (fun _ => none) := by
  have hg : fuzzyObject.graph.Unloaded := ⟨rfl, rfl, 8, 8, 8, by decide, by decide, by decide, rfl⟩
  refine ⟨hg, (failsSafe_iff hg).2 fun h => ?_⟩
  obtain ⟨c, _, _, _, hc, -⟩ : BadMagic fuzzyObject.graph fun _ => none := h
  have hnone : fuzzyObject.graph.cacheFile (fun _ => none) = none := by
    unfold cacheFile
    split <;> rfl
  cases hnone.symm.trans hc

end RdfObject
end GengoDB
