/-
A persistent table and its file over a history of calls (`LingoDBTable::append`,
`flush`, `ensureLoaded`), with the calls that throw. What a call has done
before it throws stays: `ensureLoaded` marks the table as loaded before it
reads the file, and `append` pushes batches one by one before it looks at the
schema of the next one.

The file holds the batches of the calls that returned as long as nothing is
written after a load that failed or after an append that failed half way
(`history_durable`). Where the load does not fail this is also necessary.

Reading a file gives the batches that were written, or throws; which loads
throw is an input of the history. Writing is one step. Column statistics are
left out, no operation here reads them. On files that are read as they were
written this is the table of `GengoDB.HashIndex` (`append_ofDb`).
-/
import Mathlib.Data.List.TakeWhile
import GengoDB.Fallible
import GengoDB.HashIndex

namespace GengoDB.HashIndex

open List

/-! ## The model -/

/-- A batch with its own schema. -/
structure RecordBatch (σ α : Type) extends Batch α where
  schema : σ

/-- A table, and the file under its directory and name. -/
structure TableStorage (σ α : Type) where
  schema : σ
  fileName : String
  dbDir : String
  table : LingoDBTable α
  file : Option (List (Batch α))

namespace TableStorage

variable {σ α : Type}

/-- Read the file, chunk by chunk; `fault` says that reading throws. -/
def loadFile (fault : Bool) (batches : List (Batch α)) : Except String (List (TableChunk α)) :=
  if fault then .error "could not load table" else go batches 0
where
  go : List (Batch α) → ℕ → Except String (List (TableChunk α))
    | [], _ => .ok []
    | batch :: batches, currRowId => do
      let chunk ← TableChunk.make batch currRowId
      let chunks ← go batches (currRowId + batch.rows.length)
      return chunk :: chunks

def ensureLoaded (fault : Bool) (s : TableStorage σ α) : TableStorage σ α × Option String :=
  if s.table.loaded then (s, none)
  else
    let s := { s with table := { s.table with loaded := true } }
    if s.fileName = "" ∨ s.dbDir = "" then (s, none)
    else
      match s.file with
      | none => (s, none)
      | some batches =>
        match loadFile fault batches with
        | .ok chunks => ({ s with table := { s.table with tableData := chunks } }, none)
        | .error e => (s, some e)

def flush (fault : Bool) (s : TableStorage σ α) : TableStorage σ α × Option String :=
  if !s.table.persist then (s, none)
  else
    match ensureLoaded fault s with
    | (s, none) => ({ s with file := some (s.table.tableData.map (·.data)) }, none)
    | (s, some e) => (s, some e)

section

variable [DecidableEq σ]

/-- The loop of `append`. -/
def appendBatches : List (RecordBatch σ α) → TableStorage σ α → TableStorage σ α × Option String
  | [], s => (s, none)
  | batch :: batches, s =>
    if batch.schema = s.schema then
      match TableChunk.make batch.toBatch s.table.numRows with
      | .ok chunk =>
        appendBatches batches { s with table := { s.table with
          tableData := s.table.tableData ++ [chunk]
          numRows := s.table.numRows + batch.rows.length } }
      | .error e => (s, some e)
    else (s, some "schema mismatch")

def append (fault : Bool) (batches : List (RecordBatch σ α)) (s : TableStorage σ α) :
    TableStorage σ α × Option String :=
  match ensureLoaded fault s with
  | (s, none) =>
    match appendBatches batches s with
    | (s, none) => flush fault { s with table := { s.table with sample := createSample s.table.tableData } }
    | (s, some e) => (s, some e)
  | (s, some e) => (s, some e)

/-- One call; `fault` is what reading the file would do at that time. -/
inductive Op (σ α : Type) where
  | append (fault : Bool) (batches : List (RecordBatch σ α))
  | flush (fault : Bool)
  | ensureLoaded (fault : Bool)

def Op.fault : Op σ α → Bool
  | .append fault _ | .flush fault | .ensureLoaded fault => fault

def call (s : TableStorage σ α) : Op σ α → TableStorage σ α × Option String
  | .append fault batches => s.append fault batches
  | .flush fault => s.flush fault
  | .ensureLoaded fault => s.ensureLoaded fault

/-! ## What is asked of it -/

/-- The batches in the file. -/
def stored (s : TableStorage σ α) : List (Batch α) := s.file.getD []

/-- What a call adds, given what it threw. -/
def Op.added : Op σ α → Option String → List (Batch α)
  | .append _ batches, none => batches.map (·.toBatch)
  | _, _ => []

/-- Reading the file throws. -/
def Unreadable (fault : Bool) (file : Option (List (Batch α))) : Prop :=
  ∃ batches e, file = some batches ∧ loadFile fault batches = .error e

/-- The states a history goes through. -/
def states (s : TableStorage σ α) : List (Op σ α) → List (TableStorage σ α)
  | [] => []
  | op :: ops => (s.call op).1 :: (s.call op).1.states ops

/-- After every call of the history the file holds the batches `kept` and
those of the calls that returned, in order, and a file that could not be
loaded stays as it is. -/
def Durable (kept : List (Batch α)) (s : TableStorage σ α) : List (Op σ α) → Prop
  | [] => True
  | op :: ops =>
    (s.call op).1.stored = kept ++ op.added (s.call op).2 ∧
      (s.table.loaded = false → Unreadable op.fault s.file → ∀ s' ∈ s.states (op :: ops), s'.file = s.file) ∧
      Durable (kept ++ op.added (s.call op).2) (s.call op).1 ops

/-- A persistent table nothing was done with yet. -/
structure Fresh (s : TableStorage σ α) : Prop where
  persist : s.table.persist = true
  fileName : s.fileName ≠ ""
  dbDir : s.dbDir ≠ ""
  loaded : s.table.loaded = false
  empty : s.table.tableData = []

/-! ## When it holds -/

/-- The batch is taken into a table with this schema. -/
def accepts (schema : σ) (b : RecordBatch σ α) : Bool :=
  decide (b.schema = schema) && (b.validity || decide (b.rows.length ≤ maxNullCount))

/-- A call on a loaded table writes the file. -/
def Op.writes (schema : σ) : Op σ α → Bool
  | .append _ batches => batches.all (accepts schema)
  | .flush _ => true
  | .ensureLoaded _ => false

/-- The batches a call on a loaded table takes into memory. -/
def Op.taken (schema : σ) : Op σ α → List (Batch α)
  | .append _ batches => (batches.takeWhile (accepts schema)).map (·.toBatch)
  | _ => []

/-- The call fails, but not at its first batch. -/
def Op.soils (schema : σ) (op : Op σ α) : Bool :=
  !op.writes schema && !(op.taken schema).isEmpty

/-- After a load that fails and after an append that fails half way, nothing is
written. Only the first call of a history loads the file. -/
def Safe (schema : σ) (file : Option (List (Batch α))) (ops : List (Op σ α)) : Prop :=
  ∀ before op after, ops = before ++ op :: after →
    (before = [] ∧ Unreadable op.fault file) ∨ op.soils schema = true → ∀ op' ∈ after, op'.writes schema = false

end

/-! ## One call -/

variable {s s' : TableStorage σ α} {e : Option String}

def batches (s : TableStorage σ α) : List (Batch α) := s.table.tableData.map (·.data)

/-- Loaded, and to be persisted. -/
structure Ready (s : TableStorage σ α) : Prop where
  persist : s.table.persist = true
  loaded : s.table.loaded = true

theorem make_cases (b : RecordBatch σ α) (n : ℕ) :
    (b.validity || decide (b.rows.length ≤ maxNullCount)) ∧ TableChunk.make b.toBatch n = .ok ⟨b.toBatch, n⟩ ∨
      (b.validity || decide (b.rows.length ≤ maxNullCount)) = false ∧ ∃ e, TableChunk.make b.toBatch n = .error e := by
  unfold TableChunk.make
  by_cases hv : b.validity
  · simp [hv]
  · by_cases hl : maxNullCount < b.rows.length
    · exact .inr ⟨by simp [hv]; omega, "LingoDBTable: too many nulls in column", by simp [hv, hl]⟩
    · exact .inl ⟨by simp; omega, by simp [hl]⟩

theorem Ready.ensureLoaded (h : s.Ready) (fault : Bool) : s.ensureLoaded fault = (s, none) := by
  rw [TableStorage.ensureLoaded, if_pos h.loaded]

theorem Ready.flush (h : s.Ready) (fault : Bool) : s.flush fault = ({ s with file := some s.batches }, none) := by
  rw [TableStorage.flush, h.persist, h.ensureLoaded]
  rfl

/-- What is read is what was written. -/
theorem batches_of_loadFile_go {bs : List (Batch α)} {n : ℕ} {chunks : List (TableChunk α)}
    (h : loadFile.go bs n = .ok chunks) : chunks.map (·.data) = bs := by
  induction bs generalizing n chunks with
  | nil =>
    cases h
    rfl
  | cons b bs ih =>
    obtain ⟨chunk, hmake, h⟩ := Fallible.bind_eq_ok.1 h
    obtain ⟨rest, hrest, h⟩ := Fallible.bind_eq_ok.1 h
    cases h
    have hdata : chunk.data = b := by
      unfold TableChunk.make at hmake
      split at hmake
      · cases hmake
      · cases hmake
        rfl
    rw [map_cons, hdata, ih hrest]

theorem Fresh.ensureLoaded_of_unreadable {fault : Bool} (h : s.Fresh) (hu : Unreadable fault s.file) :
    ∃ err, s.ensureLoaded fault = ({ s with table := { s.table with loaded := true } }, some err) := by
  obtain ⟨bs, err, hfile, herr⟩ := hu
  rw [TableStorage.ensureLoaded, h.loaded]
  simp [h.fileName, h.dbDir, hfile, herr]

theorem Fresh.ensureLoaded_of_readable {fault : Bool} (h : s.Fresh) (hu : ¬ Unreadable fault s.file) :
    ∃ s1, s.ensureLoaded fault = (s1, none) ∧ s1.Ready ∧ s1.schema = s.schema ∧ s1.file = s.file ∧
      s1.batches = s.stored := by
  rw [TableStorage.ensureLoaded, h.loaded]
  cases hfile : s.file with
  | none =>
    refine ⟨{ s with table := { s.table with loaded := true } }, ?_, ⟨h.persist, rfl⟩, rfl, hfile, ?_⟩
    · simp [hfile]
    · simp [batches, stored, h.empty, hfile]
  | some bs =>
    cases hload : loadFile fault bs with
    | error err => exact absurd ⟨bs, err, hfile, hload⟩ hu
    | ok chunks =>
      have hdata : chunks.map (·.data) = bs := by
        unfold loadFile at hload
        split at hload
        · cases hload
        · exact batches_of_loadFile_go hload
      refine ⟨{ s with table := { s.table with loaded := true, tableData := chunks } }, ?_, ⟨h.persist, rfl⟩, rfl,
        hfile, ?_⟩
      · simp [h.fileName, h.dbDir, hfile, hload]
      · simp [batches, stored, hdata, hfile]

variable [DecidableEq σ]

/-- What the loop of `append` leaves: the batches up to the first one that is
not accepted. -/
theorem appendBatches_spec {bs : List (RecordBatch σ α)} (hrun : appendBatches bs s = (s', e)) :
    s'.schema = s.schema ∧ s'.file = s.file ∧ s'.table.persist = s.table.persist ∧ s'.table.loaded = s.table.loaded ∧
      s'.batches = s.batches ++ (bs.takeWhile (accepts s.schema)).map (·.toBatch) ∧
      (e = none ↔ bs.all (accepts s.schema)) := by
  induction bs generalizing s with
  | nil =>
    cases hrun
    simp
  | cons b bs ih =>
    unfold appendBatches at hrun
    by_cases hschema : b.schema = s.schema
    · rw [if_pos hschema] at hrun
      obtain ⟨hfit, hmake⟩ | ⟨hfit, err, hmake⟩ := make_cases b s.table.numRows
      · rw [hmake] at hrun
        have haccept : accepts s.schema b := by simp only [accepts, hschema, hfit]; simp
        obtain ⟨h1, h2, h3, h4, h5, h6⟩ := ih hrun
        refine ⟨h1, h2, h3, h4, ?_, ?_⟩
        · rw [h5, takeWhile_cons, haccept]
          simp [batches]
        · rw [h6, all_cons, haccept]
          simp
      · rw [hmake] at hrun
        have hreject : accepts s.schema b = false := by simp only [accepts, hfit]; simp
        cases hrun
        simp [hreject]
    · rw [if_neg hschema] at hrun
      have hreject : accepts s.schema b = false := by simp [accepts, hschema]
      cases hrun
      simp [hreject]

/-- What a call does to a table that is loaded. -/
structure Ran (s : TableStorage σ α) (op : Op σ α) (s' : TableStorage σ α) (e : Option String) : Prop where
  ready : s'.Ready
  schema : s'.schema = s.schema
  batches : s'.batches = s.batches ++ op.taken s.schema
  file : s'.file = if op.writes s.schema then some s'.batches else s.file
  added : op.added e = if op.writes s.schema then op.taken s.schema else []

/-- **One call** on a loaded table. -/
theorem Ready.call (h : s.Ready) (op : Op σ α) : Ran s op (s.call op).1 (s.call op).2 := by
  cases op with
  | append fault bs =>
    show Ran s _ (s.append fault bs).1 (s.append fault bs).2
    rw [TableStorage.append, h.ensureLoaded]
    rcases hrun : appendBatches bs s with ⟨s1, e⟩
    obtain ⟨hschema, hfile, hpersist, hloaded, hbatches, he⟩ := appendBatches_spec hrun
    have hready : s1.Ready := ⟨hpersist.trans h.persist, hloaded.trans h.loaded⟩
    dsimp only
    rw [hrun]
    cases e with
    | none =>
      have hall := he.1 rfl
      have htake : bs.takeWhile (accepts s.schema) = bs := takeWhile_eq_self_iff.2 fun b hb => all_eq_true.1 hall b hb
      have hready' : { s1 with table := { s1.table with sample := createSample s1.table.tableData } }.Ready :=
        ⟨hready.persist, hready.loaded⟩
      dsimp only
      rw [hready'.flush]
      refine ⟨⟨hready.persist, hready.loaded⟩, hschema, hbatches, ?_, ?_⟩
      · rw [Op.writes, if_pos hall]
        rfl
      · rw [Op.writes, if_pos hall, Op.taken, htake]
        rfl
    | some err =>
      have hall : ¬ bs.all (accepts s.schema) := fun hall => by cases he.2 hall
      refine ⟨hready, hschema, hbatches, ?_, ?_⟩
      · rw [Op.writes, if_neg hall, hfile]
      · rw [Op.writes, if_neg hall]
        rfl
  | flush fault =>
    show Ran s _ (s.flush fault).1 (s.flush fault).2
    rw [h.flush]
    exact ⟨⟨h.persist, h.loaded⟩, rfl, by simp [TableStorage.batches, Op.taken], rfl, rfl⟩
  | ensureLoaded fault =>
    show Ran s _ (s.ensureLoaded fault).1 (s.ensureLoaded fault).2
    rw [h.ensureLoaded]
    exact ⟨h, rfl, by simp [Op.taken], rfl, rfl⟩

/-! ## Histories of a loaded table -/

variable {kept : List (Batch α)} {op : Op σ α} {ops : List (Op σ α)}

theorem Op.taken_eq_nil (hw : op.writes s.schema = false) (hs : op.soils s.schema = false) :
    op.taken s.schema = [] := by
  rw [Op.soils, hw] at hs
  simpa using hs

theorem Ran.unwritten (h : Ran s op s' e) (hw : op.writes s.schema = false) :
    s'.file = s.file ∧ s'.stored = s.stored ∧ op.added e = [] := by
  have hfile : s'.file = s.file := by rw [h.file, hw]; rfl
  exact ⟨hfile, congrArg (·.getD []) hfile, by rw [h.added, hw]; rfl⟩

/-- Where nothing is written, the file stays. -/
theorem Ready.durable_of_no_writes (h : s.Ready) (hstored : s.stored = kept)
    (hw : ∀ op ∈ ops, op.writes s.schema = false) : s.Durable kept ops := by
  induction ops generalizing s with
  | nil => trivial
  | cons op ops ih =>
    have hran := h.call op
    obtain ⟨hop, hw⟩ := forall_mem_cons.1 hw
    obtain ⟨-, hkept, hadded⟩ := hran.unwritten hop
    refine ⟨by rw [hadded, append_nil, hkept, hstored], fun hl => absurd (h.loaded.symm.trans hl) (by simp), ?_⟩
    rw [hadded, append_nil]
    exact ih hran.ready (hkept.trans hstored) (by rwa [hran.schema])

/-- No append that fails half way is followed by a write. -/
def Clean (schema : σ) (ops : List (Op σ α)) : Prop :=
  ∀ before op after, ops = before ++ op :: after → op.soils schema = true →
    ∀ op' ∈ after, op'.writes schema = false

theorem clean_cons {schema : σ} : Clean schema (op :: ops) ↔
    (op.soils schema → ∀ op' ∈ ops, op'.writes schema = false) ∧ Clean schema ops := by
  constructor
  · exact fun h => ⟨h [] op ops rfl, fun before op' after he => h (op :: before) op' after (by rw [he]; rfl)⟩
  · rintro ⟨hfirst, hrest⟩ (_ | ⟨_, before⟩) op' after he
    · obtain ⟨rfl, rfl⟩ := cons.inj he
      exact hfirst
    · exact hrest before op' after (cons.inj he).2

/-- With more in memory than there should be, any write shows it. -/
theorem Ready.no_writes_of_durable (h : s.Ready) (hmore : kept.length < s.batches.length)
    (hd : s.Durable kept ops) : ∀ op ∈ ops, op.writes s.schema = false := by
  induction ops generalizing s kept with
  | nil => simp
  | cons op ops ih =>
    have hran := h.call op
    obtain ⟨hstored, -, hrest⟩ := hd
    have hw : op.writes s.schema = false := by
      by_contra hw
      rw [Bool.not_eq_false] at hw
      rw [stored, hran.file, hran.added, hw, if_pos rfl, if_pos rfl, Option.getD_some, hran.batches] at hstored
      have hlen := congrArg length hstored
      simp only [length_append] at hlen
      omega
    rw [(hran.unwritten hw).2.2, append_nil] at hrest
    have hmore' : kept.length < (s.call op).1.batches.length := by
      rw [hran.batches, length_append]
      omega
    have hlater := ih hran.ready hmore' hrest
    rw [hran.schema] at hlater
    exact forall_mem_cons.2 ⟨hw, hlater⟩

/-- With the same in memory as in the file. -/
theorem Ready.durable_iff (h : s.Ready) (hstored : s.stored = kept) (hbatches : s.batches = kept) :
    s.Durable kept ops ↔ Clean s.schema ops := by
  induction ops generalizing s kept with
  | nil => exact iff_of_true trivial fun before op after he => by simp at he
  | cons op ops ih =>
    have hran := h.call op
    have hdurable : s.Durable kept (op :: ops) ↔ (s.call op).1.stored = kept ++ op.added (s.call op).2 ∧
        (s.call op).1.Durable (kept ++ op.added (s.call op).2) ops :=
      and_congr_right fun _ => and_iff_right fun hl => absurd (h.loaded.symm.trans hl) (by simp)
    rw [hdurable, clean_cons]
    cases hw : op.writes s.schema with
    | true =>
      have hsoil : op.soils s.schema = false := by rw [Op.soils, hw]; rfl
      have hnew : (s.call op).1.batches = kept ++ op.added (s.call op).2 := by
        rw [hran.batches, hran.added, hw, hbatches]
        rfl
      have hstored' : (s.call op).1.stored = kept ++ op.added (s.call op).2 := by
        rw [stored, hran.file, hw, ← hnew]
        rfl
      rw [ih hran.ready hstored' hnew, hran.schema]
      simp [hstored', hsoil]
    | false =>
      obtain ⟨-, hkept, hadded⟩ := hran.unwritten hw
      have hstored' := hkept.trans hstored
      rw [hadded, append_nil, and_iff_right hstored']
      cases hsoil : op.soils s.schema with
      | true =>
        have htaken : op.taken s.schema ≠ [] := by simpa [Op.soils, hw] using hsoil
        have hmore : kept.length < (s.call op).1.batches.length := by
          rw [hran.batches, hbatches, length_append]
          exact Nat.lt_add_of_pos_right (length_pos_iff.2 htaken)
        constructor
        · intro hd
          have hlater := hran.ready.no_writes_of_durable hmore hd
          rw [hran.schema] at hlater
          exact ⟨fun _ => hlater, fun before op' after he _ op'' h => hlater op'' (by simp [he, h])⟩
        · exact fun hlater => hran.ready.durable_of_no_writes hstored' (by rw [hran.schema]; exact hlater.1 rfl)
      | false =>
        have hsame : (s.call op).1.batches = kept := by
          rw [hran.batches, Op.taken_eq_nil hw hsoil, append_nil, hbatches]
        rw [ih hran.ready hstored' hsame, hran.schema]
        simp

/-! ## The first call -/

/-- A first call that cannot load the file leaves it. -/
theorem Fresh.call_of_unreadable (h : s.Fresh) (hu : Unreadable op.fault s.file) :
    (s.call op).1.Ready ∧ (s.call op).1.schema = s.schema ∧ (s.call op).1.file = s.file ∧
      op.added (s.call op).2 = [] := by
  obtain ⟨err, hload⟩ := h.ensureLoaded_of_unreadable hu
  have hcall : s.call op = ({ s with table := { s.table with loaded := true } }, some err) := by
    cases op with
    | append fault bs =>
      simp only [Op.fault] at hload
      simp only [TableStorage.call, TableStorage.append, hload]
    | flush fault =>
      simp only [Op.fault] at hload
      simp [TableStorage.call, TableStorage.flush, h.persist, hload]
    | ensureLoaded fault => exact hload
  rw [hcall]
  exact ⟨⟨h.persist, rfl⟩, rfl, rfl, by cases op <;> rfl⟩

/-- A first call that can load the file is a call on the loaded table. -/
theorem Fresh.call_of_readable (h : s.Fresh) (hu : ¬ Unreadable op.fault s.file) :
    ∃ s1 : TableStorage σ α, s1.Ready ∧ s1.schema = s.schema ∧ s1.file = s.file ∧ s1.batches = s.stored ∧
      s.call op = s1.call op := by
  obtain ⟨s1, hload, hready, hschema, hfile, hbatches⟩ := h.ensureLoaded_of_readable hu
  refine ⟨s1, hready, hschema, hfile, hbatches, ?_⟩
  cases op with
  | append fault bs =>
    simp only [Op.fault] at hload
    simp only [TableStorage.call, TableStorage.append, hload, hready.ensureLoaded]
  | flush fault =>
    simp only [Op.fault] at hload
    simp [TableStorage.call, TableStorage.flush, h.persist, hready.persist, hload, hready.ensureLoaded]
  | ensureLoaded fault => exact hload.trans (hready.ensureLoaded fault).symm

theorem Ready.file_of_no_writes (h : s.Ready) (hw : ∀ op ∈ ops, op.writes s.schema = false) :
    ∀ s' ∈ s.states ops, s'.file = s.file := by
  induction ops generalizing s with
  | nil => simp [states]
  | cons op ops ih =>
    have hran := h.call op
    obtain ⟨hop, hw⟩ := forall_mem_cons.1 hw
    have hfile := (hran.unwritten hop).1
    have hlater := ih hran.ready (by rwa [hran.schema])
    exact forall_mem_cons.2 ⟨hfile, fun s' hs' => (hlater s' hs').trans hfile⟩

/-- With the same file, memory and further course, one table is as durable as
another. -/
theorem durable_congr {s1 : TableStorage σ α} (hcall : s.call op = s1.call op)
    (hu : ¬ Unreadable op.fault s.file) (h1 : s1.Ready) : s.Durable kept (op :: ops) ↔ s1.Durable kept (op :: ops) := by
  unfold Durable
  rw [hcall]
  refine and_congr_right fun _ => and_congr_left fun _ => ?_
  exact ⟨fun _ hl => absurd (h1.loaded.symm.trans hl) (by simp), fun _ _ hread => absurd hread hu⟩

theorem safe_iff_clean {schema : σ} {file : Option (List (Batch α))} (hu : ¬ Unreadable op.fault file) :
    Safe schema file (op :: ops) ↔ Clean schema (op :: ops) := by
  constructor
  · exact fun h before op' after he hs => h before op' after he (.inr hs)
  · intro h before op' after he hcond
    obtain ⟨rfl, hread⟩ | hs := hcond
    · obtain ⟨rfl, -⟩ : op = op' ∧ ops = after := by simpa using he
      exact absurd hread hu
    · exact h before op' after he hs

/-- **Durability.** Whatever the file of a persistent table holds at first,
and whatever calls follow: if nothing is written after a load that failed and
after an append that failed half way, then after every call the file holds
what it held at first and the batches of the appends that returned, in order,
and a file that could not be loaded stays. If the first call can load the
file, this is the only way. -/
theorem history_durable (hs : s.Fresh) (ops : List (Op σ α)) : (Safe s.schema s.file ops → s.Durable s.stored ops) ∧
      ((∀ op ∈ ops.head?, ¬ Unreadable op.fault s.file) → s.Durable s.stored ops → Safe s.schema s.file ops) := by
  cases ops with
  | nil => exact ⟨fun _ => trivial, fun _ _ before op after he => by simp at he⟩
  | cons op ops =>
    by_cases hu : Unreadable op.fault s.file
    · refine ⟨fun hsafe => ?_, fun hread => absurd hu (hread op rfl)⟩
      obtain ⟨hready, hschema, hfile, hadded⟩ := hs.call_of_unreadable hu
      have hw : ∀ op' ∈ ops, op'.writes (s.call op).1.schema = false := fun op' hop' => by
        rw [hschema]
        exact hsafe [] op ops rfl (.inl ⟨rfl, hu⟩) op' hop'
      have hstored : (s.call op).1.stored = s.stored := by rw [stored, hfile, stored]
      refine ⟨by rw [hadded, append_nil, hstored], fun _ _ => forall_mem_cons.2 ⟨hfile, fun s' hs' => ?_⟩, ?_⟩
      · exact (hready.file_of_no_writes hw s' hs').trans hfile
      · rw [hadded, append_nil]
        exact hready.durable_of_no_writes hstored hw
    · obtain ⟨s₁, hready, hschema, hfile, hbatches, hcall⟩ := hs.call_of_readable hu
      have hstored : s₁.stored = s.stored := by rw [stored, hfile, stored]
      rw [safe_iff_clean hu, durable_congr hcall hu hready, ← hschema]
      have hiff : _ ↔ Clean s₁.schema (op :: ops) := hready.durable_iff hstored hbatches
      exact ⟨hiff.2, fun _ => hiff.1⟩

/-! ## The table under its index -/

section Index

variable {fileName dbDir : String} {env : Env α}

/-- The table of a catalog, with its file; a schema is whether it is the
table's. -/
def ofDb (fileName dbDir : String) (db : Db α) : TableStorage Bool α where
  schema := true
  fileName := fileName
  dbDir := dbDir
  table := db.table
  file := db.disk.table

/-- What is thrown there is an exception. -/
def Agrees (fileName dbDir : String) (r : TableStorage Bool α × Option String) (r' : Result α) : Prop :=
  r.1 = ofDb fileName dbDir r'.1 ∧ r.2.map .exception = r'.2

theorem appendBatches_ofDb (fileName dbDir : String) (schemaEquals : Bool) (bs : List (Batch α)) (db : Db α) :
    Agrees fileName dbDir (appendBatches (bs.map fun b => ⟨b, schemaEquals⟩) (ofDb fileName dbDir db))
      (pushBatches schemaEquals bs db) := by
  induction bs generalizing db with
  | nil => exact ⟨rfl, rfl⟩
  | cons b bs ih =>
    cases schemaEquals with
    | false => exact ⟨rfl, rfl⟩
    | true =>
      simp only [map_cons, appendBatches, pushBatches, ofDb, if_true]
      cases TableChunk.make b db.table.numRows with
      | error e => exact ⟨rfl, rfl⟩
      | ok chunk =>
        exact ih { db with table := { db.table with
          tableData := db.table.tableData ++ [chunk]
          numRows := db.table.numRows + b.rows.length } }

theorem loadTable_eq (hread : ∀ b, env.readBatch b = b) (bs : List (Batch α)) (n : ℕ) :
    loadTable env bs n = loadFile.go bs n := by
  induction bs generalizing n with
  | nil => rfl
  | cons b bs ih => simp only [loadTable, loadFile.go, hread, ih]

variable (hread : ∀ b, env.readBatch b = b) (hfile : fileName ≠ "") (hdir : dbDir ≠ "")
include hread hfile hdir

theorem ensureLoaded_ofDb (db : Db α) :
    Agrees fileName dbDir ((ofDb fileName dbDir db).ensureLoaded false) (tableEnsureLoaded env db) := by
  unfold ensureLoaded tableEnsureLoaded
  simp only [ofDb, hfile, hdir, or_self, if_false]
  cases db.table.loaded with
  | true => exact ⟨rfl, rfl⟩
  | false =>
    cases hdisk : db.disk.table with
    | none => simp [Agrees, ofDb, hdisk]
    | some bs =>
      simp only [loadFile, Bool.false_eq_true, if_false, loadTable_eq hread]
      cases loadFile.go bs 0 <;> simp [Agrees, ofDb, hdisk]

theorem flush_ofDb (db : Db α) :
    Agrees fileName dbDir ((ofDb fileName dbDir db).flush false) (tableFlush env db) := by
  unfold flush tableFlush
  obtain ⟨hstate, herr⟩ := ensureLoaded_ofDb hread hfile hdir db
  by_cases hp : db.table.persist = true
  · rw [if_neg (by simp [ofDb, hp]), if_neg (by simp [hp])]
    rcases hload : tableEnsureLoaded env db with ⟨db', err⟩
    rcases hload' : (ofDb fileName dbDir db).ensureLoaded false with ⟨s', e⟩
    rw [hload, hload'] at hstate herr
    cases e with
    | none =>
      cases herr
      cases hstate
      exact ⟨rfl, rfl⟩
    | some e =>
      cases herr
      exact ⟨hstate, rfl⟩
  · rw [if_pos (by simp [ofDb, hp]), if_pos (by simp [hp])]
    exact ⟨rfl, rfl⟩

/-- **The same table.** For a table of one schema and files that are read as
they were written, `append` here is `tableAppend` of the table with its
index. -/
theorem append_ofDb (t : ArrowTable α) (db : Db α) :
    Agrees fileName dbDir ((ofDb fileName dbDir db).append false (t.batches.map fun b => ⟨b, t.schemaEquals⟩))
      (tableAppend env t db) := by
  unfold append tableAppend
  obtain ⟨hstate, herr⟩ := ensureLoaded_ofDb hread hfile hdir db
  rcases hload : tableEnsureLoaded env db with ⟨db1, err⟩
  rcases hload' : (ofDb fileName dbDir db).ensureLoaded false with ⟨s1, e⟩
  rw [hload, hload'] at hstate herr
  cases e with
  | some e =>
    cases herr
    exact ⟨hstate, rfl⟩
  | none =>
    cases herr
    obtain rfl : s1 = ofDb fileName dbDir db1 := hstate
    obtain ⟨hstate, herr⟩ := appendBatches_ofDb fileName dbDir t.schemaEquals t.batches db1
    rcases hpush : pushBatches t.schemaEquals t.batches db1 with ⟨db2, err⟩
    rcases hpush' : appendBatches (t.batches.map fun b => ⟨b, t.schemaEquals⟩) (ofDb fileName dbDir db1) with ⟨s2, e⟩
    rw [hpush, hpush'] at hstate herr
    simp only [andThen, hpush, hpush']
    cases e with
    | some e =>
      cases herr
      exact ⟨hstate, rfl⟩
    | none =>
      cases herr
      obtain rfl : s2 = ofDb fileName dbDir db2 := hstate
      exact flush_ofDb hread hfile hdir { db2 with table := { db2.table with sample := createSample db2.table.tableData } }

end Index

/-! ## One table -/

/-- A table whose file has one batch of one row. -/
def sample : TableStorage ℕ ℕ where
  schema := 0
  fileName := "t.arrow"
  dbDir := "db"
  table := ⟨true, true, [], 1, false⟩
  file := some [⟨[1], true⟩]

theorem sample_fresh : sample.Fresh := ⟨rfl, by decide, by decide, rfl, rfl⟩

/-- An append that returns, and then one that fails at its second batch. -/
theorem history_durable_sample : sample.Durable sample.stored [.append false [⟨⟨[2], true⟩, 0⟩],
      .append false [⟨⟨[3], true⟩, 0⟩, ⟨⟨[4], true⟩, 9⟩], .ensureLoaded false] := by
  refine (history_durable sample_fresh _).1 fun before op after he hcond op' hop' => ?_
  obtain ⟨rfl, bs, err, hfile, hload⟩ | hsoil := hcond
  · obtain ⟨rfl, -⟩ : _ = op ∧ _ = after := by simpa using he
    cases hfile
    cases hload
  · match before, he with
    | [], he =>
      cases he
      simp [Op.soils, Op.writes, accepts, sample] at hsoil
    | [_], he =>
      cases he
      obtain rfl : op' = .ensureLoaded false := by simpa using hop'
      rfl
    | [_, _], he =>
      cases he
      cases hop'
    | _ :: _ :: _ :: _, he => simp at he

/-- **What failed calls leave behind.** A load that fails, and then an append
of one batch: the file has only that batch. An append that fails at its second
batch, and then a flush: the file has its first batch. -/
theorem history_not_durable :
    ((sample.call (.flush true)).1.call (.append false [⟨⟨[2], true⟩, 0⟩])).1.file.map (·.map (·.rows)) = some [[2]] ∧
    ¬ sample.Durable sample.stored [.flush true, .append false [⟨⟨[2], true⟩, 0⟩]] ∧
    ((sample.call (.append false [⟨⟨[3], true⟩, 0⟩, ⟨⟨[4], true⟩, 9⟩])).1.call (.flush false)).1.file.map
      (·.map (·.rows)) = some [[1], [3]] ∧
    ¬ sample.Durable sample.stored [.append false [⟨⟨[3], true⟩, 0⟩, ⟨⟨[4], true⟩, 9⟩], .flush false] := by
  refine ⟨by decide, fun h => ?_, by decide, fun h => ?_⟩
  · have hlen := congrArg length h.2.2.1
    exact absurd hlen (by decide)
  · have hlen := congrArg length h.2.2.1
    exact absurd hlen (by decide)

end TableStorage
end GengoDB.HashIndex
