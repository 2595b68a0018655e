/-
The registry of graph memory (`GraphStorage` in `runtime/Graph.h`, `.cpp`):
the address ranges of the tables of every registered graph, each with the
graph it belongs to, through which a reference to a record finds its graph.

A graph registers its tables one by one. `PropertyGraph::registerGraph` means
to skip a persistent graph that is registered already, but `knowsGraph` looks
for the graph among the starts of the ranges, where it never is: a persistent
graph registered again is entered again (`run_eq`). Lookups do not notice,
and `remove` erases every entry of a graph.
-/
import Mathlib.Algebra.BigOperators.Group.List.Basic
import Mathlib.Data.List.Nodup
import Mathlib.Data.Nat.Cast.Basic

namespace GengoDB

open List

abbrev Address := Nat

/-- `BuiltinGraph::Type`. -/
inductive BuiltinGraph where
  | simple | property | align8x3x8x1
  deriving DecidableEq

/-- A graph object: where it lies, where its tables lie, and how many records
they hold. Only property graphs have a table of properties. -/
structure GraphObject where
  self : Address
  type : BuiltinGraph
  nodeStorePtr : Address
  relStorePtr : Address
  propStorePtr : Address
  nodeCap : Nat
  relCap : Nat
  propCap : Nat
  deriving DecidableEq

/-- An element of `mem_`. -/
structure MemEntry where
  start : Address
  len : Nat
  graph : Address
  deriving DecidableEq

def MemEntry.covers (e : MemEntry) (ref : Address) : Bool := e.start ≤ ref && ref < e.start + e.len

namespace GraphStorage

/-- `mem_`. -/
abbrev Mem := List MemEntry

def add (mem : Mem) (start : Address) (len : Nat) (graph : Address) : Mem := mem ++ [⟨start, len, graph⟩]

def remove (mem : Mem) (graph : Address) : Mem := mem.filter (·.graph ≠ graph)

/-- `lookupGraph`; `none` is the failed assertion that the graph is
registered. -/
def lookupGraph (mem : Mem) (ref : Address) : Option Address :=
  (mem.find? fun e => e.graph == ref || e.covers ref).map (·.graph)

def knowsGraph (mem : Mem) (ref : Address) : Bool := mem.any (·.start == ref)

/-- The three `registerGraph`. `persists` is the flag of a property graph; the
state a graph that does not persist leaves with the execution context, to be
removed at its end, is a later `unregister`. -/
def registerGraph (mem : Mem) (g : GraphObject) (persists : Bool) : Mem :=
  match g.type with
  | .simple =>
    let mem := add mem g.nodeStorePtr (g.nodeCap * 24) g.self
    add mem g.relStorePtr (g.relCap * 40) g.self
  | .align8x3x8x1 =>
    let mem := add mem g.nodeStorePtr (g.nodeCap * 40) g.self
    add mem g.relStorePtr (g.relCap * 40) g.self
  | .property =>
    if persists && knowsGraph mem g.self then mem
    else
      let mem := add mem g.nodeStorePtr (g.nodeCap * 16) g.self
      let mem := add mem g.relStorePtr (g.relCap * 36) g.self
      add mem g.propStorePtr (g.propCap * 24) g.self

/-! ## Calls -/

/-- What changes the registry. Creating a graph registers it, `getGraph`
registers a persistent one for every query, and a graph is removed when it is
destroyed. -/
inductive Call where
  | register (g : GraphObject) (persists : Bool)
  | unregister (g : GraphObject)

def step (mem : Mem) : Call → Mem
  | .register g persists => registerGraph mem g persists
  | .unregister g => remove mem g.self

/-- The registry after a sequence of calls. -/
def run (calls : List Call) : Mem := calls.foldl step []

end GraphStorage

/-! ## Registered graphs -/

namespace GraphObject

/-- The entries of a graph's tables. -/
def entries (g : GraphObject) : List MemEntry :=
  match g.type with
  | .simple => [⟨g.nodeStorePtr, g.nodeCap * 24, g.self⟩, ⟨g.relStorePtr, g.relCap * 40, g.self⟩]
  | .align8x3x8x1 => [⟨g.nodeStorePtr, g.nodeCap * 40, g.self⟩, ⟨g.relStorePtr, g.relCap * 40, g.self⟩]
  | .property =>
    [⟨g.nodeStorePtr, g.nodeCap * 16, g.self⟩, ⟨g.relStorePtr, g.relCap * 36, g.self⟩,
     ⟨g.propStorePtr, g.propCap * 24, g.self⟩]

/-- The address is inside one of the graph's tables. -/
def covers (g : GraphObject) (p : Address) : Bool := g.entries.any (·.covers p)

/-- The object `h` lies outside the tables of `g`. -/
structure Clear (g h : GraphObject) : Prop where
  outside : g.covers h.self = false
  start : ∀ e ∈ g.entries, e.start ≠ h.self

/-- Two objects the allocator holds at the same time. -/
structure Apart (g h : GraphObject) : Prop where
  self : g.self ≠ h.self
  disjoint : ∀ p, ¬ (g.covers p = true ∧ h.covers p = true)
  left : Clear g h
  right : Clear h g

variable {g h : GraphObject}

theorem Apart.symm (hgh : Apart g h) : Apart h g :=
  ⟨hgh.self.symm, fun p hp => hgh.disjoint p hp.symm, hgh.right, hgh.left⟩

theorem graph_of_mem_entries {e : MemEntry} (he : e ∈ g.entries) : e.graph = g.self := by
  unfold entries at he
  split at he <;> simp only [mem_cons, not_mem_nil, or_false] at he
  · obtain rfl | rfl := he <;> rfl
  · obtain rfl | rfl := he <;> rfl
  · obtain rfl | rfl | rfl := he <;> rfl

theorem entries_ne_nil (g : GraphObject) : g.entries ≠ [] := by
  unfold entries
  split <;> simp

end GraphObject

namespace GraphStorage

open GraphObject

/-- What was registered and not removed since, once for each time. -/
def track (regs : List GraphObject) : Call → List GraphObject
  | .register g _ => regs ++ [g]
  | .unregister g => regs.filter (·.self ≠ g.self)

def registrations (calls : List Call) : List GraphObject := calls.foldl track []

/-- A graph that is registered while others are is apart from them, and lies
outside its own tables. -/
def Admissible : List GraphObject → List Call → Prop
  | _, [] => True
  | regs, .register g persists :: calls =>
    Clear g g ∧ (∀ h ∈ regs, h = g ∨ Apart h g) ∧ Admissible (track regs (.register g persists)) calls
  | regs, .unregister g :: calls => Admissible (track regs (.unregister g)) calls

/-- The graphs registered at one time. -/
structure Placed (regs : List GraphObject) : Prop where
  clear : ∀ g ∈ regs, Clear g g
  apart : ∀ g ∈ regs, ∀ h ∈ regs, g = h ∨ Apart g h

variable {regs : List GraphObject} {calls : List Call} {g : GraphObject} {mem : Mem}

theorem Placed.register (hp : Placed regs) (hg : Clear g g) (ha : ∀ h ∈ regs, h = g ∨ Apart h g) :
    Placed (regs ++ [g]) := by
  constructor
  · exact forall_mem_append.2 ⟨hp.clear, forall_mem_singleton.2 hg⟩
  · intro h hh k hk
    rw [mem_append, mem_singleton] at hh hk
    obtain hh | rfl := hh <;> obtain hk | rfl := hk
    · exact hp.apart h hh k hk
    · exact ha h hh
    · exact (ha k hk).imp Eq.symm Apart.symm
    · exact .inl rfl

theorem Placed.unregister (hp : Placed regs) (a : Address) : Placed (regs.filter (·.self ≠ a)) :=
  ⟨fun h hh => hp.clear h (mem_of_mem_filter hh),
   fun h hh k hk => hp.apart h (mem_of_mem_filter hh) k (mem_of_mem_filter hk)⟩

/-- `registerGraph` enters the graph whether it is known or not: no table
starts at the graph object. -/
theorem registerGraph_eq (hstart : ∀ e ∈ mem, e.start ≠ g.self) (persists : Bool) :
    registerGraph mem g persists = mem ++ g.entries := by
  have hknows : knowsGraph mem g.self = false := by
    simpa [knowsGraph] using hstart
  unfold registerGraph entries
  split <;> simp [add, hknows]

theorem remove_flatMap (regs : List GraphObject) (a : Address) :
    remove (regs.flatMap entries) a = (regs.filter (·.self ≠ a)).flatMap entries := by
  induction regs with
  | nil => rfl
  | cons g regs ih =>
    have hcons : remove ((g :: regs).flatMap entries) a =
        g.entries.filter (·.graph ≠ a) ++ remove (regs.flatMap entries) a := by
      simp [remove]
    rw [hcons, ih]
    by_cases hg : g.self = a
    · rw [filter_cons_of_neg (by simp [hg])]
      have hnone : g.entries.filter (·.graph ≠ a) = [] := by
        rw [filter_eq_nil_iff]
        intro e he
        simp [graph_of_mem_entries he, hg]
      rw [hnone, nil_append]
    · rw [filter_cons_of_pos (by simp [hg]), flatMap_cons]
      have hall : g.entries.filter (·.graph ≠ a) = g.entries := by
        rw [filter_eq_self]
        intro e he
        simp [graph_of_mem_entries he, hg]
      rw [hall]

/-- A run from registered graphs on. -/
theorem foldl_step_eq (hp : Placed regs) (hcalls : Admissible regs calls) :
    calls.foldl step (regs.flatMap entries) = (calls.foldl track regs).flatMap entries ∧
      Placed (calls.foldl track regs) := by
  induction calls generalizing regs with
  | nil => exact ⟨rfl, hp⟩
  | cons c calls ih =>
    cases c with
    | register g persists =>
      obtain ⟨hg, ha, hcalls⟩ := hcalls
      have hstart : ∀ e ∈ regs.flatMap entries, e.start ≠ g.self := by
        intro e he
        obtain ⟨h, hh, he⟩ := mem_flatMap.1 he
        obtain rfl | hap := ha h hh
        · exact hg.start e he
        · exact hap.left.start e he
      have hstep : step (regs.flatMap entries) (.register g persists) = (regs ++ [g]).flatMap entries := by
        rw [step, registerGraph_eq hstart]
        simp
      rw [foldl_cons, hstep]
      exact ih (hp.register hg ha) hcalls
    | unregister g =>
      rw [foldl_cons, foldl_cons, step, remove_flatMap]
      exact ih (hp.unregister g.self) hcalls

/-- **The registry holds the tables of every registration**, in order. -/
theorem run_eq (hcalls : Admissible [] calls) :
    run calls = (registrations calls).flatMap entries ∧ Placed (registrations calls) :=
  foldl_step_eq ⟨by simp, by simp⟩ hcalls

/-! ## Lookups -/

/-- The registered graph one of whose tables the address is in. -/
def owner (regs : List GraphObject) (p : Address) : Option Address := (regs.find? (·.covers p)).map (·.self)

variable {p : Address}

/-- An entry that answers a lookup belongs to the graph that covers the
address, or to the one that lies there. -/
theorem lookup_cases {a : Address} (h : lookupGraph (regs.flatMap entries) p = some a) :
    ∃ g ∈ regs, a = g.self ∧ (g.self = p ∨ g.covers p) := by
  obtain ⟨e, he, rfl⟩ := Option.map_eq_some_iff.1 h
  obtain ⟨g, hg, hmem⟩ := mem_flatMap.1 (mem_of_find?_eq_some he)
  have hgraph := graph_of_mem_entries hmem
  refine ⟨g, hg, hgraph, ?_⟩
  have hpred := find?_some he
  rw [Bool.or_eq_true, beq_iff_eq, hgraph] at hpred
  exact hpred.imp_right fun hc => any_eq_true.2 ⟨e, hmem, hc⟩

theorem lookup_isSome {e : MemEntry} (hg : g ∈ regs) (he : e ∈ g.entries) (hpred : e.graph = p ∨ e.covers p) :
    ∃ a, lookupGraph (regs.flatMap entries) p = some a := by
  have hmem : e ∈ regs.flatMap entries := mem_flatMap.2 ⟨g, hg, he⟩
  have hfind : ((regs.flatMap entries).find? fun e => e.graph == p || e.covers p).isSome := by
    rw [find?_isSome]
    exact ⟨e, hmem, by simpa using hpred⟩
  obtain ⟨e', he'⟩ := Option.isSome_iff_exists.1 hfind
  exact ⟨e'.graph, by rw [lookupGraph, he']; rfl⟩

section
variable (hp : Placed regs) (hg : g ∈ regs)
include hp hg

/-- A graph object lies in no registered table. -/
theorem Placed.not_covers_self {h : GraphObject} (hh : h ∈ regs) : g.covers h.self = false := by
  obtain rfl | hap := hp.apart g hg h hh
  · exact (hp.clear g hg).outside
  · exact hap.left.outside

theorem Placed.eq_of_covers {h : GraphObject} (hh : h ∈ regs) (hgp : g.covers p) (hhp : h.covers p) : g = h :=
  (hp.apart g hg h hh).resolve_right fun hap => hap.disjoint p ⟨hgp, hhp⟩

/-- **An address inside a registered table** finds its graph, however often
that was registered. -/
theorem lookup_of_covers (hc : g.covers p) : lookupGraph (regs.flatMap entries) p = some g.self := by
  obtain ⟨e, he, hcov⟩ := any_eq_true.1 hc
  obtain ⟨a, ha⟩ := lookup_isSome hg he (.inr hcov)
  obtain ⟨h, hh, rfl, rfl | hhc⟩ := lookup_cases ha
  · simp [hp.not_covers_self hg hh] at hc
  · rw [ha, hp.eq_of_covers hg hh hc hhc]

/-- The address of a registered graph finds the graph. -/
theorem lookup_self : lookupGraph (regs.flatMap entries) g.self = some g.self := by
  obtain ⟨e, he⟩ := exists_mem_of_ne_nil _ g.entries_ne_nil
  obtain ⟨a, ha⟩ := lookup_isSome hg he (.inl (graph_of_mem_entries he))
  obtain ⟨h, hh, rfl, hself | hhc⟩ := lookup_cases ha
  · rw [ha, hself]
  · simp [hp.not_covers_self hh hg] at hhc

end

/-- A lookup says which table an address is in, unless a graph lies there. -/
theorem lookup_eq_owner_iff (hp : Placed regs) :
    lookupGraph (regs.flatMap entries) p = owner regs p ↔ ∀ g ∈ regs, p ≠ g.self := by
  constructor
  · intro h g hg hpg
    subst hpg
    rw [lookup_self hp hg, owner, eq_comm, Option.map_eq_some_iff] at h
    obtain ⟨k, hk, -⟩ := h
    have hcov := find?_some hk
    simp [hp.not_covers_self (mem_of_find?_eq_some hk) hg] at hcov
  · intro h
    cases ho : regs.find? (·.covers p) with
    | some g =>
      have hcov : g.covers p := find?_some (p := fun g : GraphObject => g.covers p) ho
      rw [owner, ho, lookup_of_covers hp (mem_of_find?_eq_some ho) hcov]
      rfl
    | none =>
      rw [owner, ho, Option.map_none, Option.eq_none_iff_forall_ne_some]
      intro a ha
      obtain ⟨g, hg, -, hself | hcov⟩ := lookup_cases ha
      · exact h g hg hself.symm
      · exact find?_eq_none.1 ho g hg hcov

/-! ## Repeated registration -/

/-- The entries of one graph. -/
def entriesOf (mem : Mem) (graph : Address) : Mem := mem.filter (·.graph = graph)

theorem entriesOf_flatMap (hp : Placed regs) (hg : g ∈ regs) :
    entriesOf (regs.flatMap entries) g.self = (List.replicate (regs.count g) g).flatMap entries := by
  have key : ∀ l : List GraphObject, (∀ h ∈ l, g = h ∨ Apart g h) →
      entriesOf (l.flatMap entries) g.self = (List.replicate (l.count g) g).flatMap entries := by
    intro l hl
    induction l with
    | nil => rfl
    | cons h l ih =>
      have ih := ih fun k hk => hl k (mem_cons_of_mem h hk)
      have hcons : entriesOf ((h :: l).flatMap entries) g.self =
          h.entries.filter (·.graph = g.self) ++ entriesOf (l.flatMap entries) g.self := by
        simp [entriesOf]
      rw [hcons, ih]
      obtain rfl | hap := hl h (mem_cons_self ..)
      · have hall : g.entries.filter (·.graph = g.self) = g.entries := by
          rw [filter_eq_self]
          intro e he
          simp [graph_of_mem_entries he]
        rw [hall, count_cons_self, replicate_succ, flatMap_cons]
      · have hnone : h.entries.filter (·.graph = g.self) = [] := by
          rw [filter_eq_nil_iff]
          intro e he
          simpa [graph_of_mem_entries he] using hap.self.symm
        have hne : h ≠ g := fun he => hap.self (he ▸ rfl)
        rw [hnone, nil_append, count_cons_of_ne hne]
  exact key regs fun h hh => hp.apart g hg h hh

/-- Every registered graph is entered once just when none was registered
twice. -/
theorem entriesOf_eq_iff (hp : Placed regs) :
    (∀ g ∈ regs, entriesOf (regs.flatMap entries) g.self = g.entries) ↔ regs.Nodup := by
  rw [nodup_iff_count_le_one]
  constructor
  · intro h g
    by_cases hg : g ∈ regs
    · have hlen := congrArg List.length ((entriesOf_flatMap hp hg).symm.trans (h g hg))
      have hpos := length_pos_of_ne_nil g.entries_ne_nil
      simp only [length_flatMap, map_replicate, sum_replicate, nsmul_eq_mul, Nat.cast_id] at hlen
      by_contra hgt
      have : 2 * g.entries.length ≤ regs.count g * g.entries.length := Nat.mul_le_mul_right _ (by omega)
      omega
    · simp [count_eq_zero_of_not_mem hg]
  · intro h g hg
    have hone : regs.count g = 1 := Nat.le_antisymm (h g) (count_pos_iff.2 hg)
    rw [entriesOf_flatMap hp hg, hone]
    simp

/-- **The registry after any sequence of calls.** It answers for the address
`p` as the tables lie, and holds every registered graph's tables once,
exactly when no graph was registered again while it was registered and no
registered graph object lies at `p`. -/
theorem registry_exact_iff (calls : List Call) (p : Address) (hcalls : Admissible [] calls) :
    (lookupGraph (run calls) p = owner (registrations calls) p ∧
      ∀ g ∈ registrations calls, entriesOf (run calls) g.self = g.entries) ↔
    (∀ g ∈ registrations calls, p ≠ g.self) ∧ (registrations calls).Nodup := by
  obtain ⟨hrun, hp⟩ := run_eq hcalls
  rw [hrun, lookup_eq_owner_iff hp, entriesOf_eq_iff hp]

/-- A property graph with room for two records of each kind. -/
def smallGraph : GraphObject where
  self := 8
  type := .property
  nodeStorePtr := 100
  relStorePtr := 200
  propStorePtr := 300
  nodeCap := 2
  relCap := 2
  propCap := 2

theorem clear_smallGraph : Clear smallGraph smallGraph := ⟨by decide, by decide⟩

/-- Two queries open the same graph: its tables are in the registry twice. -/
theorem registry_reopened : Admissible [] [.register smallGraph true, .register smallGraph true] ∧
    entriesOf (run [.register smallGraph true, .register smallGraph true]) smallGraph.self =
      smallGraph.entries ++ smallGraph.entries := by
  refine ⟨⟨clear_smallGraph, by simp, clear_smallGraph, ?_, trivial⟩, by decide⟩
  intro h hh
  exact .inl (mem_singleton.1 hh)

/-- Opened, closed and opened again: the registry is exact at an address of
the relationship table. -/
theorem registry_exact_reopened :
    lookupGraph (run [.register smallGraph true, .unregister smallGraph, .register smallGraph true]) 210 = some 8 := by
  have h := registry_exact_iff [.register smallGraph true, .unregister smallGraph, .register smallGraph true] 210
    ⟨clear_smallGraph, by simp, clear_smallGraph, by simp [track], trivial⟩
  exact (h.2 ⟨by decide, by decide⟩).1

end GraphStorage
end GengoDB
