/-
The work-stealing iteration of table scans and growing buffers
(`ScanBatchesTask` in `LingoDBTable.cpp`, `FlexibleBufferIteratorTask` in
`Buffer.cpp`; the two are the same but for what a unit of work is).

A chunk is cut into units of `splitSize` rows. A worker takes the units of its
current chunk, then the next chunk from a shared counter, and when there is
none left it takes units from the other workers' chunks. Its program counter
says where in `allocateWork` and `performWork` it is: sections under a mutex
and atomic operations are single steps, except that the own section is left
open (mutex held) between the cursor, the shared counter and the new chunk, so
that the others can act in between. The chunk of a stolen unit is read only
when the unit is run.

Unit numbers travel as `int` and are stored as `size_t`.
-/
import Mathlib.Data.Int.Notation
import Mathlib.Data.List.Basic
import Mathlib.Logic.Function.Basic

namespace GengoDB.Steal

open Function

/-- `int` of a `size_t`. -/
def toInt (n : ℕ) : ℤ := (BitVec.ofNat 32 n).toInt

/-- `size_t` of an `int`. -/
def toSize (i : ℤ) : ℕ := (BitVec.ofInt 64 i).toNat

structure Config where
  workers : ℕ
  chunks : List ℕ
  splitSize : ℕ
  splitSize_pos : 0 < splitSize

/-- How many units a chunk is cut into. -/
def Config.units (c : Config) (k : ℕ) : ℕ := (c.chunks.getD k 0 + c.splitSize - 1) / c.splitSize

/-- Where a worker is. -/
inductive Pc
  | idle
  /-- about to enter `fetchAndNextOwn` -/
  | own
  /-- in `fetchAndNextOwn`, before the shared counter -/
  | fetch
  /-- in `fetchAndNextOwn`, with a value of the shared counter -/
  | claim (localStartIndex : ℕ)
  /-- about to ask the worker last stolen from -/
  | lastVictim
  | lastTake
  /-- in the loop over the other workers -/
  | look (i : ℕ)
  | take (i : ℕ)
  /-- about to set `workExhausted` -/
  | finish
  /-- `allocateWork` has returned true -/
  | perform
  /-- in `performWork`, with the chunk that was read -/
  | run (batchId : ℕ)
  /-- `allocateWork` has returned false -/
  | done
  deriving DecidableEq, Repr

/-- The shared state and, for every worker, the fields of its reservation
state. `handed` and `ran` are bookkeeping: which unit of which chunk was handed
to whom, and on which chunk and unit the callback was run by whom. -/
structure State (W : ℕ) where
  startIndex : ℕ
  workExhausted : Bool
  pc : Fin W → Pc
  batchId : Fin W → ℕ
  resvCursor : Fin W → ℕ
  resvId : Fin W → ℕ
  unitAmount : Fin W → ℕ
  stealWorkerId : Fin W → Option (Fin W)
  handed : List (Fin W × ℕ × ℕ)
  ran : List (Fin W × ℕ × ℕ)

namespace State

variable {W : ℕ} (s : State W)

def init (W : ℕ) : State W where
  startIndex := 0
  workExhausted := false
  pc := fun _ => .idle
  batchId := fun _ => 0
  resvCursor := fun _ => 0
  resvId := fun _ => 0
  unitAmount := fun _ => 0
  stealWorkerId := fun _ => none
  handed := []
  ran := []

variable (w : Fin W)

def goto (pc : Pc) : State W := { s with pc := update s.pc w pc }

/-- `resvCursor++`. -/
def bump (v : Fin W) : State W :=
  { s with resvCursor := update s.resvCursor v (s.resvCursor v + 1) }

/-- `stealWorkerId = …`. -/
def steal (v : Option (Fin W)) : State W :=
  { s with stealWorkerId := update s.stealWorkerId w v }

/-- `state->resvId = id; return true`, where `id` is unit `unit` of chunk
`chunk`. -/
def accept (chunk unit : ℕ) : State W :=
  { s with
    resvId := update s.resvId w (toSize (toInt unit))
    pc := update s.pc w .perform
    handed := s.handed ++ [(w, chunk, unit)] }

/-- A new current chunk. -/
def adopt (chunk units : ℕ) : State W :=
  { s with
    unitAmount := update s.unitAmount w units
    resvCursor := update s.resvCursor w 1
    resvId := update s.resvId w 0
    batchId := update s.batchId w chunk }

/-- `unitRun`: nothing is run for a negative unit. -/
def unitRun (batchId : ℕ) (unitId : ℤ) : State W :=
  { s with ran := if unitId < 0 then s.ran else s.ran ++ [(w, batchId, unitId.toNat)] }

/-- The mutex of `v` is held. -/
def locked (v : Fin W) : Bool :=
  match s.pc v with
  | .fetch | .claim _ => true
  | _ => false

def hasMoreWork (v : Fin W) : Bool := s.resvCursor v < s.unitAmount v

/-- `fetchAndNextOwn` has returned -1. -/
def afterOwn : Pc := if (s.stealWorkerId w).isSome then .lastVictim else .look 1

/-- The worker `i` places after `w`. -/
def other (i : ℕ) : Fin W := ⟨(w.val + i) % W, Nat.mod_lt _ w.pos⟩

/-- The worker whose chunk `w` runs its unit on. -/
def target : Fin W := (s.stealWorkerId w).getD w

def handedTo : List (Fin W × ℕ × ℕ) := s.handed.filter (·.1 = w)

def ranBy : List (Fin W × ℕ × ℕ) := s.ran.filter (·.1 = w)

/-- The unit was handed to someone. -/
def Handed (chunk unit : ℕ) : Prop := ∃ w, (w, chunk, unit) ∈ s.handed

end State

/-- The next step of worker `w`; none if it waits for a mutex or is done. -/
def step (c : Config) (w : Fin c.workers) (s : State c.workers) : Option (State c.workers) :=
  match s.pc w with
  | .idle => some (s.goto w (if s.workExhausted then .done else .own))
  | .own =>
    let curr := s.resvCursor w
    if curr < s.unitAmount w then
      if toInt curr ≠ -1 then some ((s.bump w).accept w (s.batchId w) curr)
      else some ((s.bump w).goto w (s.afterOwn w))
    else some ((s.bump w).goto w .fetch)
  | .fetch => some ({ s with startIndex := s.startIndex + 1 }.goto w (.claim s.startIndex))
  | .claim localStartIndex =>
    if localStartIndex < c.chunks.length then
      some ((s.adopt w localStartIndex (c.units localStartIndex)).accept w localStartIndex 0)
    else some (s.goto w (s.afterOwn w))
  | .lastVictim =>
    match s.stealWorkerId w with
    | none => none
    | some v =>
      if s.locked v then none
      else if s.hasMoreWork v then some (s.goto w .lastTake)
      else some ((s.steal w none).goto w (.look 1))
  | .lastTake =>
    match s.stealWorkerId w with
    | none => none
    | some v =>
      if s.locked v then none
      else
        let cur := s.resvCursor v
        if s.unitAmount v ≤ cur ∨ toInt cur = -1 then some (((s.bump v).steal w none).goto w (.look 1))
        else some ((s.bump v).accept w (s.batchId v) cur)
  | .look i =>
    if i < c.workers then
      let v := State.other w i
      if s.locked v then none
      else if s.hasMoreWork v then some (s.goto w (.take i)) else some (s.goto w (.look (i + 1)))
    else some (s.goto w .finish)
  | .take i =>
    let v := State.other w i
    if s.locked v then none
    else
      let cur := s.resvCursor v
      if s.unitAmount v ≤ cur ∨ toInt cur = -1 then some ((s.bump v).goto w (.look (i + 1)))
      else some (((s.bump v).steal w (some v)).accept w (s.batchId v) cur)
  | .finish => some ({ s with workExhausted := true }.goto w .done)
  | .perform => some (s.goto w (.run (s.batchId (s.target w))))
  | .run batchId => some ((s.unitRun w batchId (toInt (s.resvId w))).goto w .idle)
  | .done => none

/-- What any interleaving of the workers can reach. -/
inductive Reachable (c : Config) : State c.workers → Prop
  | init : Reachable c (State.init c.workers)
  | step {s s' : State c.workers} (w : Fin c.workers) : Reachable c s → step c w s = some s' → Reachable c s'

end GengoDB.Steal
