/-
Histories of a table with a hash index.

A lookup needs a table that was built, by an insert or by reading the file of
the index. Row ids stay right as long as the files agree: rows that are
refused half way through an insert, an index file with rows that the table
file lacks, a catalog with another number of rows, and batches that cannot be
read back each make a lookup wrong; a catalog without a sample cannot be
written. `Store.Allowed` says so about a list of operations, and
`lookups_right_iff` that it is exact.
-/
import GengoDB.HashIndexRuns

namespace GengoDB.HashIndex

open List Option

variable {α : Type} {env : Env α} {db : Db α} {s : Store α} {numRows : ℕ} {eagerLoading indexPersist : Bool}

/-! ## Lookups -/

variable (env) in
/-- A lookup finds the rows with its hash, each once, and every row id leads to
its row. -/
def LookupsRight (db : Db α) : Prop :=
  ∀ hash, ∃ ids, lookup db.index hash = some ids ∧ RowIdsOf env (rowsOf db.table.tableData) hash ids
    ∧ ∀ id ∈ ids, ∃ pos offset, getByRowId db.table id = some (pos, offset) ∧ Place db.table.tableData id pos offset

section

variable (h : LookupsRight env db)
include h

theorem LookupsRight.ht_ne_none : db.index.ht ≠ none := by
  intro hnone
  obtain ⟨ids, hids, -⟩ := h 0
  rw [lookup, hnone] at hids
  cases hids

variable (hht : db.index.ht = some (buildTable db.index.buffer))
include hht

theorem LookupsRight.exists_perm (hash : BitVec 64) :
    ∃ ids, ids.Perm ((db.index.buffer.filter (·.hash = hash)).map (·.rowId))
      ∧ RowIdsOf env (rowsOf db.table.tableData) hash ids := by
  obtain ⟨ids, hids, hright, -⟩ := h hash
  rw [lookup, hht, map_some, Option.some.injEq] at hids
  exact ⟨ids, hids ▸ lookup_buildTable db.index.buffer hash, hright⟩

theorem LookupsRight.rowId_lt {e : Entry} (he : e ∈ db.index.buffer) :
    e.rowId < (rowsOf db.table.tableData).length := by
  obtain ⟨ids, hperm, hright⟩ := h.exists_perm hht e.hash
  have hmem : e.rowId ∈ ids := hperm.mem_iff.2 (mem_map_of_mem (mem_filter.2 ⟨he, decide_eq_true rfl⟩))
  obtain ⟨row, hrow, -⟩ := (hright.mem_iff _).1 hmem
  exact (List.getElem?_eq_some_iff.1 hrow).1

theorem LookupsRight.exists_entry {i : ℕ} (hi : i < (rowsOf db.table.tableData).length) :
    ∃ e ∈ db.index.buffer, e.rowId = i := by
  obtain ⟨ids, hperm, hright⟩ := h.exists_perm hht (rowHash env (rowsOf db.table.tableData)[i])
  have hmem : i ∈ ids := (hright.mem_iff i).2 ⟨_, List.getElem?_eq_getElem hi, rfl⟩
  obtain ⟨e, he, hid⟩ := mem_map.1 (hperm.mem_iff.1 hmem)
  exact ⟨e, (mem_filter.1 he).1, hid⟩

end

theorem Refines.lookupsRight_iff (h : Refines env s db) (htable : db.table.loaded) (hindex : db.index.loaded) :
    LookupsRight env db ↔ s.built := by
  have hready : Ready db ↔ db.index.ht ≠ none :=
    or_iff_left fun hr => Bool.false_ne_true (hr.1.symm.trans hindex)
  rw [← h.ready, hready]
  refine ⟨fun hright => hright.ht_ne_none, fun hne hash => ?_⟩
  have hrows : rowsOf db.table.tableData = rowsIn s.batches := by
    rw [rowsOf_eq, ← contents_loaded env htable, h.core.contents]
  have hentries : db.index.buffer.Perm (indexed env (rowsOf db.table.tableData) 0) := by
    have hbuffer : entries db = db.index.buffer := if_pos hindex
    rw [← hbuffer, hrows]
    exact h.core.entries
  have hht := h.core.sane.built.resolve_left fun hnone => hne hnone.1
  have hids := rowIdsOf_buildTable env hentries hash
  refine ⟨_, by rw [lookup, hht, map_some], hids, fun id hid => ?_⟩
  obtain ⟨row, hrow, -⟩ := (hids.mem_iff id).mp hid
  exact getByRowId_spec h.core.sane.aligned (List.getElem?_eq_some_iff.mp hrow).1

/-! ## Histories -/

/-- Rows are put into the table, or the files are opened. -/
def Op.builds : Op α → Bool
  | .insert t => t.schemaEquals && !(rowsIn (t.batches.takeWhile Batch.fits)).isEmpty
  | .reload _ _ => true
  | _ => false

variable (env) in
/-- The process is running, the number of rows is right, and lookups are
exactly if there is something to look up in. -/
def Sound (built : Bool) : Except Ended (Db α) → Prop
  | .error .crashed => False
  | .error .gone => True
  | .ok db =>
    let db := ensureFullyLoaded env db
    db.table.numRows = (rowsOf db.table.tableData).length ∧ (LookupsRight env db ↔ built)

theorem Refines.sound (h : Refines env s db) : Sound env s.built (.ok db) := by
  obtain ⟨h', htable, hindex⟩ := h.ensureFullyLoaded
  exact ⟨h'.numRows_eq htable, h'.lookupsRight_iff htable hindex⟩

theorem Store.built_step {s' : Store α} {op : Op α} (hallows : s.allows env op) (hstep : s.step env op = some s') :
    s'.built = (s.built || op.builds) := by
  cases op with
  | insert t =>
    cases hstep
    rw [Store.insert]
    split
    · next hother =>
      have hschema : t.schemaEquals = false := Bool.not_eq_true' _ ▸ ((Bool.and_eq_true _ _).mp hother).1
      simp [Op.builds, hschema]
    · next hsame =>
      split
      · next hfits =>
        have hnot : t.batches.all Batch.fits = false := by simpa using hfits
        have hor : t.schemaEquals = false ∨ rowsIn (t.batches.takeWhile Batch.fits) = [] := by
          simpa [Store.allows, hnot] using hallows
        rcases hor with hor | hor <;> simp [Op.builds, hor]
      · next hfits =>
        have hall : t.batches.all Batch.fits := by simpa using hfits
        have htake : t.batches.takeWhile Batch.fits = t.batches :=
          takeWhile_eq_self_iff.2 fun b hb => List.all_eq_true.1 hall b hb
        have hrows : rowsIn t.batches = t.rows := rfl
        rw [Op.builds, htake, hrows]
        split
        · next hempty => simp [Store.append, hempty]
        · next hempty =>
          have hschema : t.schemaEquals := by
            by_contra hfalse
            have hnil : t.batches = [] := by simpa [Bool.eq_false_iff.mpr hfalse] using hsame
            exact hempty (by simp [ArrowTable.rows, hnil])
          have hsaved : ∀ r : Store α, r.save.built = r.built := fun r => by
            rw [Store.save]
            split <;> rfl
          rw [hsaved, hschema, Bool.eq_false_iff.mpr hempty]
          simp
  | persist =>
    cases hstep
    rw [Store.save]
    split <;> simp [Op.builds]
  | setPersist value =>
    cases hstep
    rw [Store.setPersist]
    split <;> simp [Op.builds]
  | load =>
    cases hstep
    simp [Op.builds]
  | reload eagerLoading indexPersist =>
    obtain ⟨_, _, rfl⟩ := Option.map_eq_some_iff.1 hstep
    simp [Op.builds, Store.opened]

/-! ## What is not allowed goes wrong -/

theorem Sane.ensureFullyLoaded (h : Sane env db) : Kept env db (ensureFullyLoaded env db)
    ∧ (ensureFullyLoaded env db).table.loaded ∧ (ensureFullyLoaded env db).index.loaded := by
  obtain ⟨hkept1, hloaded₁, -⟩ := indexEnsureLoaded_spec h
  obtain ⟨db2, hload, hkept2, hloaded₂, -, hindex2⟩ := tableEnsureLoaded_spec hkept1.sane
  rw [HashIndex.ensureFullyLoaded, hload]
  exact ⟨hkept1.trans hkept2, hloaded₂, (congrArg _ hindex2).trans hloaded₁⟩

/-- The rows before a batch that does not fit are not in the index. -/
theorem Refines.not_sound_insert (h : Refines env s db) {t : ArrowTable α} (hallows : s.allows env (.insert t) = false)
    (built : Bool) : ¬ Sound env (built || (Op.insert t).builds) (HashIndex.step env db (.insert t)) := by
  simp only [Store.allows, Bool.or_eq_false_iff, Bool.not_eq_false', isEmpty_eq_false_iff] at hallows
  obtain ⟨⟨hschema, hfits⟩, hrows⟩ := hallows
  obtain ⟨db', e, hrun, hsane, hloaded, hcontents, -, hentries, -⟩ := h.insert_failing hschema hfits
  have hbuilds : (Op.insert t).builds := by simp [Op.builds, hschema, hrows]
  rw [HashIndex.step, hrun, hbuilds, Bool.or_true]
  rintro ⟨-, hright⟩
  have hright := hright.2 rfl
  obtain ⟨hkept, htable, hindex⟩ := hsane.ensureFullyLoaded
  have hht := hkept.sane.built.resolve_left fun hnone => hright.ht_ne_none hnone.1
  have hdata : rowsOf (HashIndex.ensureFullyLoaded env db').table.tableData =
      rowsIn s.batches ++ rowsIn (t.batches.takeWhile Batch.fits) := by
    rw [rowsOf_eq, ← contents_loaded env htable, hkept.contents, hcontents, rowsIn_append]
  obtain ⟨e, he, hid⟩ := hright.exists_entry hht (i := (rowsIn s.batches).length) (by
    rw [hdata, length_append]
    exact Nat.lt_add_of_pos_right (length_pos_iff.2 hrows))
  have hbuffer : entries (HashIndex.ensureFullyLoaded env db') = (HashIndex.ensureFullyLoaded env db').index.buffer := if_pos hindex
  rw [← hbuffer, hkept.entries, hentries.mem_iff, mem_indexed] at he
  obtain ⟨-, row, hrow, -⟩ := he
  have hlt := (List.getElem?_eq_some_iff.1 hrow).1
  omega

variable (env) in
theorem tableEnsureLoaded_loaded (db : Db α) : (tableEnsureLoaded env db).1.table.loaded
    ∧ (tableEnsureLoaded env db).1.index = db.index ∧ (tableEnsureLoaded env db).1.table.numRows = db.table.numRows := by
  rw [tableEnsureLoaded]
  split
  · next hloaded => exact ⟨hloaded, rfl, rfl⟩
  · dsimp only
    split
    · exact ⟨rfl, rfl, rfl⟩
    · split <;> exact ⟨rfl, rfl, rfl⟩

/-- Loading twice is loading once. -/
theorem ensureFullyLoaded_twice (db : Db α) :
    ensureFullyLoaded env (ensureFullyLoaded env db) = ensureFullyLoaded env db := by
  have hindex : (indexEnsureLoaded db).index.loaded := by
    rw [indexEnsureLoaded]
    split
    · next hloaded => exact hloaded
    · rfl
  obtain ⟨htable, hsame, -⟩ := tableEnsureLoaded_loaded env (indexEnsureLoaded db)
  rw [← hsame] at hindex
  have hkeep : indexEnsureLoaded (ensureFullyLoaded env db) = ensureFullyLoaded env db := if_pos hindex
  have hkeep' : tableEnsureLoaded env (ensureFullyLoaded env db) = (ensureFullyLoaded env db, none) := if_pos htable
  rw [HashIndex.ensureFullyLoaded, hkeep, hkeep']

/-- The index of a catalog that was opened. -/
theorem index_closed (env : Env α) (numRows : ℕ) (indexPersist : Bool) {disk : Disk α} (hindex : disk.index ≠ none) :
    (ensureFullyLoaded env (closed disk numRows indexPersist)).index.ht = some (buildTable (fileEntries disk))
      ∧ (ensureFullyLoaded env (closed disk numRows indexPersist)).index.buffer = fileEntries disk
      ∧ (ensureFullyLoaded env (closed disk numRows indexPersist)).table.numRows = numRows := by
  obtain ⟨file, hfile⟩ := ne_none_iff_exists'.1 hindex
  have hload : indexEnsureLoaded (closed disk numRows indexPersist) =
      { closed disk numRows indexPersist with
        index := ⟨some (buildTable file), file, indexPersist, true⟩ } := by
    simp [indexEnsureLoaded, closed, hfile, rawBuild]
  obtain ⟨-, hsame, hnum⟩ := tableEnsureLoaded_loaded env (indexEnsureLoaded (closed disk numRows indexPersist))
  rw [ensureFullyLoaded, hsame, hnum, hload, fileEntries, hfile]
  exact ⟨rfl, rfl, rfl⟩

theorem tableData_ensureLoaded (hloaded : db.table.loaded = false) (hdata : db.table.tableData = []) :
    (tableEnsureLoaded env db).1.table.tableData = (loadTable env (fileBatches db.disk) 0).toOption.getD [] := by
  rw [tableEnsureLoaded, hloaded, if_neg Bool.false_ne_true, fileBatches]
  dsimp only
  cases db.disk.table with
  | none => exact hdata
  | some file =>
    dsimp only
    rw [getD_some]
    cases loadTable env file 0 with
    | ok chunks => rfl
    | error e => exact hdata

/-- The rows of a catalog that was opened: those of the file, or none. -/
theorem rows_closed (disk : Disk α) :
    rowsOf (ensureFullyLoaded env (closed disk numRows indexPersist)).table.tableData =
      if (fileBatches disk).all fun b => (env.readBatch b).fits then rowsIn (fileBatches disk) else [] := by
  obtain ⟨hdisk, htable⟩ : (indexEnsureLoaded (closed disk numRows indexPersist)).disk = disk ∧
      (indexEnsureLoaded (closed disk numRows indexPersist)).table = (closed disk numRows indexPersist).table := by
    rw [indexEnsureLoaded]
    split
    · exact ⟨rfl, rfl⟩
    · dsimp only
      split <;> exact ⟨rfl, rfl⟩
  rw [ensureFullyLoaded, tableData_ensureLoaded (by rw [htable]; rfl) (by rw [htable]; rfl), hdisk]
  split
  · next hfits =>
    obtain ⟨chunks, hchunks, -, hdata⟩ := loadTable_spec env 0 (List.all_eq_true.1 hfits)
    rw [hchunks]
    show rowsOf chunks = _
    rw [rowsOf_eq, hdata, rowsIn_readBatch]
  · next hfits =>
    have hbad : ∃ b ∈ fileBatches disk, (env.readBatch b).fits = false := by simpa using hfits
    obtain ⟨e, he⟩ := loadTable_fails env 0 hbad
    rw [he]
    rfl

/-- Files that cannot be read back make lookups wrong. -/
theorem Refines.not_sound_reload (h : Refines env s db)
    (hallows : s.allows env (.reload eagerLoading indexPersist) = false) (built : Bool) :
    ¬ Sound env (built || (Op.reload eagerLoading indexPersist : Op α).builds)
      (HashIndex.step env db (.reload eagerLoading indexPersist)) := by
  rcases Bool.eq_false_or_eq_true s.canPersist with hcan | hcan
  · obtain ⟨db1, h1, hstep⟩ := reload_eq h hcan eagerLoading indexPersist
    simp only [Store.allows, hcan, Bool.true_and, Bool.or_eq_false_iff] at hallows
    obtain ⟨hnone, hnot⟩ := hallows
    obtain ⟨n, hn⟩ := isSome_iff_exists.1 (by simpa using hnone : s.save.counted.isSome)
    rw [hstep, hn]
    have hsame : HashIndex.ensureFullyLoaded env (if eagerLoading then HashIndex.ensureFullyLoaded env (closed db1.disk n indexPersist)
        else closed db1.disk n indexPersist) = HashIndex.ensureFullyLoaded env (closed db1.disk n indexPersist) := by
      split
      · exact ensureFullyLoaded_twice _
      · rfl
    simp only [Sound, hsame, Op.builds, Bool.or_true, iff_true]
    rintro ⟨hnum, hright⟩
    have hfiles := h1.files
    obtain ⟨hht, hbuffer, hcount⟩ := index_closed env n indexPersist
      (hfiles.written (by rw [hn]; exact some_ne_none _))
    rw [← hbuffer] at hht
    have hlt : ∀ e ∈ fileEntries db1.disk, e.rowId < (rowsOf (HashIndex.ensureFullyLoaded env
        (closed db1.disk n indexPersist)).table.tableData).length :=
      fun e he => hright.rowId_lt hht (hbuffer ▸ he)
    rw [hcount] at hnum
    rw [rows_closed, hfiles.table] at hlt hnum
    have hstale : s.save.stale = false := by
      by_contra hstale
      obtain ⟨e, he, hle⟩ := hfiles.behind (Bool.not_eq_false _ ▸ hstale)
      have hlt := hlt e he
      split at hlt
      · omega
      · cases hlt
    have hfits : s.save.saved.all fun b => (env.readBatch b).fits := by
      by_contra hfits
      obtain ⟨b, hb, hbad⟩ : ∃ b ∈ s.save.saved, (env.readBatch b).fits = false := by simpa using hfits
      have hne : rowsIn s.save.saved ≠ [] := by
        intro hnil
        have hrows := rows_ne_nil_of_not_fits hbad
        rw [env.rows_readBatch] at hrows
        exact hrows (flatMap_eq_nil_iff.1 hnil b hb)
      obtain ⟨row, rest, hcons⟩ := exists_cons_of_ne_nil hne
      have hmem : (⟨rowHash env row, 0⟩ : Entry) ∈ fileEntries db1.disk :=
        (hfiles.index hstale).mem_iff.2 ((mem_indexed env).2 ⟨Nat.le_refl 0, row, by rw [hcons]; rfl, rfl⟩)
      have hlt := hlt _ hmem
      rw [if_neg hfits] at hlt
      cases hlt
    rw [if_pos hfits] at hnum
    rw [Store.canReload, hstale, hfits, hn, hnum] at hnot
    simp at hnot
  · obtain ⟨db', hcrash⟩ := h.catalogPersist_crash hcan
    rw [HashIndex.step, hcrash]
    exact id

theorem Refines.allows_of_sound (h : Refines env s db) {op : Op α}
    (hsound : Sound env (s.built || op.builds) (HashIndex.step env db op)) : s.allows env op := by
  by_contra hallows
  rw [Bool.not_eq_true] at hallows
  cases op with
  | insert t => exact h.not_sound_insert hallows _ hsound
  | persist =>
    obtain ⟨db', hcrash⟩ := h.catalogPersist_crash hallows
    rw [HashIndex.step, hcrash] at hsound
    exact hsound
  | setPersist value => cases hallows
  | load => cases hallows
  | reload eagerLoading indexPersist => exact h.not_sound_reload hallows _ hsound

/-- **One operation after the other.** -/
theorem Refines.sound_iff (h : Refines env s db) (ops : List (Op α)) :
    (∀ p, p <+: ops → Sound env (s.built || p.any Op.builds) (run env db p)) ↔ s.Allowed env ops := by
  induction ops generalizing s db with
  | nil =>
    refine iff_of_true (fun p hp => ?_) rfl
    rw [prefix_nil.1 hp, any_nil, Bool.or_false]
    exact h.sound
  | cons op ops ih =>
    have hcons : ∀ p, run env db (op :: p) = (HashIndex.step env db op).bind fun db => run env db p := fun p => rfl
    rw [Store.Allowed, Bool.and_eq_true]
    constructor
    · intro hsound
      have hallows : s.allows env op := by
        refine h.allows_of_sound ?_
        have hone := hsound [op] (by simp)
        rw [hcons, any_cons, any_nil, Bool.or_false] at hone
        cases hstep : HashIndex.step env db op <;> rw [hstep] at hone <;> exact hone
      refine ⟨hallows, ?_⟩
      rcases h.step hallows with ⟨-, hgone⟩ | ⟨db', s', hstep, hs', h'⟩
      · rw [hgone]
        rfl
      · rw [hs', Option.all_some]
        refine (ih h').1 fun p hp => ?_
        have hmore := hsound (op :: p) (cons_prefix_cons.2 ⟨rfl, hp⟩)
        rw [hcons, hstep] at hmore
        rw [Store.built_step hallows hs', Bool.or_assoc]
        exact hmore
    · rintro ⟨hallows, hrest⟩ p hp
      cases p with
      | nil =>
        rw [any_nil, Bool.or_false]
        exact h.sound
      | cons op' p =>
        obtain ⟨rfl, hp'⟩ := cons_prefix_cons.1 hp
        rw [hcons]
        rcases h.step hallows with ⟨hstep, -⟩ | ⟨db', s', hstep, hs', h'⟩
        · rw [hstep]
          trivial
        · rw [hs', Option.all_some] at hrest
          have hmore := (ih h').2 hrest p hp'
          rw [Store.built_step hallows hs', Bool.or_assoc] at hmore
          rw [hstep]
          exact hmore

/-- **At every moment of a history** the process is running, the table has as
many rows as it counts, and lookups are right as soon as there were rows or the
files were opened, exactly if every operation is allowed. -/
theorem lookups_right_iff (env : Env α) (shouldPersist : Bool) (ops : List (Op α)) :
    (∀ p, p <+: ops → Sound env (p.any Op.builds) (run env (createTable env shouldPersist) p)) ↔
      (Store.created shouldPersist).Allowed env ops := by
  have h := (refines_createTable env shouldPersist).sound_iff ops
  have hbuilt : (Store.created (α := α) shouldPersist).built = false := by cases shouldPersist <;> rfl
  simpa only [hbuilt, Bool.false_or] using h

/-- A table of numbers, indexed. -/
def numbers : Env (BitVec 64) where
  types := [.int .w64]
  key v
    | ⟨0, _⟩ => some v
  xxHash64 _ := 0
  readBatch b := b
  rows_readBatch _ := rfl

def insertNumbers (vs : List (BitVec 64)) : Op (BitVec 64) := .insert ⟨true, [⟨vs, true⟩]⟩

/-- Two inserts, a reload between them, and a chunk without rows. -/
def safeOps : List (Op (BitVec 64)) :=
  [insertNumbers [5, 6], .reload false true, .setPersist true, insertNumbers [], insertNumbers [5]]

theorem lookups_right_numbers : ∃ db, run numbers (createTable numbers true) safeOps = .ok db
    ∧ rowsOf (ensureFullyLoaded numbers db).table.tableData = [5, 6, 5]
    ∧ LookupsRight numbers (ensureFullyLoaded numbers db) := by
  refine ⟨_, rfl, rfl, ?_⟩
  exact ((lookups_right_iff numbers true safeOps).2 (by decide) safeOps (prefix_refl _)).2.2 (by decide)

theorem not_lookupsRight (hash : BitVec 64) (ids : List ℕ) (id : ℕ) (hlookup : lookup db.index hash = some ids)
    (hid : id ∈ ids) (hrow : (rowsOf db.table.tableData)[id]?.map (rowHash env) ≠ some hash) :
    ¬LookupsRight env db := by
  intro h
  obtain ⟨ids', hids', hright, -⟩ := h hash
  obtain rfl : ids = ids' := some.inj (hlookup.symm.trans hids')
  obtain ⟨row, hget, hhash⟩ := (hright.mem_iff id).mp hid
  exact hrow (by rw [hget, map_some, hhash])

/-- An empty table has nothing to look up in. A reopened index that takes itself
for persistent keeps an entry of a row the table loses. Rows that were written
without the catalog are not counted: the next ones get their row ids. And
without a sample the catalog cannot be written. -/
theorem lookups_wrong : ¬LookupsRight numbers (ensureFullyLoaded numbers (createTable numbers false))
      ∧ (∃ db, run numbers (createTable numbers true) [.reload false true, insertNumbers [5], .reload false false] = .ok db
        ∧ ¬LookupsRight numbers (ensureFullyLoaded numbers db))
      ∧ (∃ db, run numbers (createTable numbers true) [.setPersist false, insertNumbers [5], .setPersist true,
          .setPersist false, .reload false false, .setPersist false, insertNumbers [6]] = .ok db
        ∧ ¬LookupsRight numbers (ensureFullyLoaded numbers db))
      ∧ run numbers (createTable numbers true) [insertNumbers [], .persist] = .error .crashed := by
  refine ⟨fun h => ?_, ⟨_, rfl, ?_⟩, ⟨_, rfl, ?_⟩, rfl⟩
  · obtain ⟨ids, hids, -⟩ := h 0
    cases hids
  · exact not_lookupsRight (rowHash numbers 5) [0] 0 (by decide +kernel) (mem_singleton_self 0)
      (by decide +kernel)
  · exact not_lookupsRight (rowHash numbers 6) [0] 0 (by decide +kernel) (mem_singleton_self 0)
      (by decide +kernel)

end GengoDB.HashIndex
