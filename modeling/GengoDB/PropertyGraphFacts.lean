/-
The invariant of the property graph over whole runs (`GengoDB.PropertyGraph`).

To the adjacency invariant of the store below, `PropLists` adds the property
lists: every owner in use has one, the lists are disjoint, and together they
hold exactly the property records in use. It is stated for a set of `live`
owners, because removing an owner frees its list first and drops the owner
from the store afterwards — in between the owner is in use but not live.

`WellFormed.call` is the step: an admissible call returns once it has enough
fuel, and keeps the invariant. `Reachable.wellFormed` carries it to every
reachable state.
-/
import GengoDB.PropertyGraph
import GengoDB.Fallible

namespace GengoDB.PropertyGraph

open Option Graph

open Function (update update_self update_of_ne)

variable {g g' : PropertyGraph} {live : Owner → Prop} {P : Owner → List Int} {o : Owner} {fuel : Nat}
  {live' : Owner → Prop} {p : Int} {q : Pool} {fuel' : Nat}

/-- The property list of an owner. -/
def propView (g : PropertyGraph) (o : Owner) : Dll Int where
  head := g.chainHead o
  next p := (g.props p).nextPropId
  prev p := (g.props p).prevPropId

/-- `P o` is what the property list of the live owner `o` threads; the lists
are disjoint and hold exactly the records in use. -/
structure PropLists (g : PropertyGraph) (live : Owner → Prop) (P : Owner → List Int) : Prop where
  chain : ∀ o, live o → Dll.Chain graphNone (g.propView o) (P o)
  nodup : ∀ o, live o → (P o).Nodup
  disjoint : ∀ o o', live o → live o' → o ≠ o' → List.Disjoint (P o) (P o')
  mem : ∀ p, (g.props p).inUse = true ↔ ∃ o, live o ∧ p ∈ P o
  pool : g.propPool.Tracks fun p => (g.props p).inUse

section

variable (h : g.PropLists live P)
include h

theorem PropLists.inUse (ho : live o) (hp : p ∈ P o) : (g.props p).inUse :=
  (h.mem p).2 ⟨o, ho, hp⟩

/-! ## Owners coming and going -/

/-- Only the live owners and the records matter. -/
theorem PropLists.congr (hl : ∀ o, live' o ↔ live o) (hp : ∀ p, (g'.props p).nextPropId = (g.props p).nextPropId ∧
      (g'.props p).prevPropId = (g.props p).prevPropId ∧ (g'.props p).inUse = (g.props p).inUse)
    (hq : g'.propPool = g.propPool) (hh : ∀ o, live o → g'.chainHead o = g.chainHead o) : g'.PropLists live' P := by
  refine ⟨fun o ho => ?_, fun o ho => h.nodup o ((hl o).1 ho),
    fun o o' ho ho' => h.disjoint o o' ((hl o).1 ho) ((hl o').1 ho'), fun p => ?_, ?_⟩
  · exact (h.chain o ((hl o).1 ho)).congr (hh o ((hl o).1 ho)) fun x _ => ⟨(hp x).1, (hp x).2.1⟩
  · simpa only [(hp p).2.2, hl] using h.mem p
  · rw [hq]; exact h.pool.congr fun p => (hp p).2.2

theorem PropLists.live_congr (hl : ∀ o, live' o ↔ live o) : g.PropLists live' P :=
  h.congr hl (fun _ => ⟨rfl, rfl, rfl⟩) rfl fun _ _ => rfl

/-- One owner has a new list; the lists of the others are framed. -/
theorem PropLists.put {l : List Int} (hlive : ∀ o', live' o' ↔ live o' ∨ o' = o)
    (hl : Dll.Chain graphNone (g'.propView o) l) (hnd : l.Nodup)
    (hframe : ∀ o', live o' → o' ≠ o → g'.chainHead o' = g.chainHead o' ∧
      ∀ x ∈ P o', (g'.props x).nextPropId = (g.props x).nextPropId ∧ (g'.props x).prevPropId = (g.props x).prevPropId)
    (hfresh : ∀ p ∈ l, (live o ∧ p ∈ P o) ∨ (g.props p).inUse = false)
    (hmem : ∀ p, (g'.props p).inUse ↔ p ∈ l ∨ (g.props p).inUse ∧ ¬ (live o ∧ p ∈ P o))
    (hpool : g'.propPool.Tracks fun p => (g'.props p).inUse) : g'.PropLists live' (update P o l) := by
  have hother : ∀ o', live' o' → o' ≠ o → live o' := fun o' ho' hne => ((hlive o').1 ho').resolve_right hne
  have hdis : ∀ o', live o' → o' ≠ o → List.Disjoint l (P o') := by
    intro o' ho' hne p hp hp'
    rcases hfresh p hp with ⟨ho, hpo⟩ | hfree
    · exact h.disjoint o o' ho ho' (Ne.symm hne) hpo hp'
    · simp [h.inUse ho' hp'] at hfree
  refine ⟨fun o' ho' => ?_, fun o' ho' => ?_, fun o1 o2 h1 h2 hd => ?_, fun p => ?_, hpool⟩
  · rcases eq_or_ne o' o with rfl | hne
    · simpa using hl
    · rw [update_of_ne hne]
      have ho' := hother o' ho' hne
      exact (h.chain o' ho').congr (hframe o' ho' hne).1 (hframe o' ho' hne).2
  · rcases eq_or_ne o' o with rfl | hne
    · simpa using hnd
    · rw [update_of_ne hne]; exact h.nodup o' (hother o' ho' hne)
  · rcases eq_or_ne o1 o with rfl | hn1
    · rw [update_self, update_of_ne (Ne.symm hd)]; exact hdis o2 (hother o2 h2 (Ne.symm hd)) (Ne.symm hd)
    · rw [update_of_ne hn1]
      rcases eq_or_ne o2 o with rfl | hn2
      · rw [update_self]; exact List.disjoint_comm.1 (hdis o1 (hother o1 h1 hd) hd)
      · rw [update_of_ne hn2]; exact h.disjoint o1 o2 (hother o1 h1 hn1) (hother o2 h2 hn2) hd
  · rw [hmem, h.mem]
    constructor
    · rintro (hp | ⟨⟨o', ho', hp⟩, hnot⟩)
      · exact ⟨o, (hlive o).2 (.inr rfl), by simpa using hp⟩
      · have hne : o' ≠ o := by
          rintro rfl
          exact hnot ⟨ho', hp⟩
        exact ⟨o', (hlive o').2 (.inl ho'), by rwa [update_of_ne hne]⟩
    · rintro ⟨o', ho', hp⟩
      rcases eq_or_ne o' o with rfl | hne
      · exact .inl (by simpa using hp)
      · rw [update_of_ne hne] at hp
        have ho' := hother o' ho' hne
        exact .inr ⟨⟨o', ho', hp⟩, fun hpo => h.disjoint o' o ho' hpo.1 hne hp hpo.2⟩

/-- A new owner starts with the empty list. -/
theorem PropLists.addOwner (ho : ¬ live o) (hp : g'.props = g.props)
    (hq : g'.propPool = g.propPool) (hh : ∀ o', live o' → g'.chainHead o' = g.chainHead o')
    (hnew : g'.chainHead o = graphNone) (hl : ∀ o', live' o' ↔ live o' ∨ o' = o) : g'.PropLists live' (update P o []) :=
  h.put hl ⟨hnew, trivial⟩ .nil (fun o' ho' _ => ⟨hh o' ho', fun _ _ => by simp [hp]⟩) (by simp) (by simp [hp, ho])
    (by rw [hp, hq]; exact h.pool)

end

/-! ## Freeing a list -/

@[simp] theorem propView_freeProp (p : Int) : (g.freeProp p).propView o = g.propView o := by
  ext x
  · cases o <;> rfl
  all_goals rcases eq_or_ne x p with rfl | hx <;> simp_all [propView, freeProp, setProp]

theorem inUse_freeProp (id x : Int) :
    ((g.freeProp id).props x).inUse = update (fun x => (g.props x).inUse) id false x := by
  rcases eq_or_ne x id with rfl | hx
  · simp [freeProp, setProp]
  · simp [freeProp, setProp, hx]

theorem freeChain_none : freeChain fuel g graphNone = some g := by
  simp [freeChain, Loop.run_done]

theorem freeChain_step (hp : p ≠ graphNone) :
    freeChain (fuel + 1) g p = freeChain fuel (g.freeProp p) (g.props p).nextPropId := by
  unfold freeChain
  rw [Loop.run_step (by simpa using hp)]
  rfl

/-- The loop frees the records of the list, first to last. -/
theorem freeChain_eq : ∀ {l : List Int} {g : PropertyGraph} {q : Int} {fuel : Nat},
    Dll.Linked graphNone (g.propView o) q l → l.length ≤ fuel →
    freeChain fuel g (Dll.firstOr graphNone l) = some (l.foldl freeProp g)
  | [], _, _, _, _, _ => freeChain_none
  | p :: l, g, _, fuel + 1, ⟨hp, _, hn, hl⟩, hf => by
    have hn : (g.props p).nextPropId = Dll.firstOr graphNone l := hn
    have hf : l.length ≤ fuel := by simpa using hf
    rw [Dll.firstOr_cons, freeChain_step hp, hn]
    exact freeChain_eq (by rwa [propView_freeProp]) hf

/-- What freeing the records `l` does. -/
theorem freeAll_spec : ∀ {l : List Int} {g : PropertyGraph}, l.Nodup → (∀ p ∈ l, (g.props p).inUse) →
    g.propPool.Tracks (fun p => (g.props p).inUse) →
    (l.foldl freeProp g).graph = g.graph ∧ (∀ o, (l.foldl freeProp g).propView o = g.propView o) ∧
      (∀ p, ((l.foldl freeProp g).props p).inUse ↔ (g.props p).inUse ∧ p ∉ l) ∧
      (l.foldl freeProp g).propPool.Tracks fun p => ((l.foldl freeProp g).props p).inUse
  | [], _, _, _, ht => ⟨rfl, fun _ => rfl, by simp, ht⟩
  | p :: l, g, hnd, hu, ht => by
    have hpl := (List.nodup_cons.1 hnd).1
    obtain ⟨hg, hv, hi, ht'⟩ := freeAll_spec (List.nodup_cons.1 hnd).2
      (fun x hx => by
        rw [inUse_freeProp, update_of_ne (fun he => hpl (he ▸ hx) : x ≠ p)]
        exact hu x (by simp [hx]))
      ((ht.release (hu p (by simp))).congr (inUse_freeProp p))
    refine ⟨hg, fun o => (hv o).trans (propView_freeProp p), fun x => ?_, ht'⟩
    rw [List.foldl_cons, hi, inUse_freeProp]
    rcases eq_or_ne x p with rfl | hx
    · simp
    · simp [hx]

/-- **Freeing the list of a live owner** leaves the lists of the others. -/
theorem PropLists.freeChain (h : g.PropLists live P) (ho : live o) (hf : (P o).length ≤ fuel) :
    ∃ g', freeChain fuel g (g.chainHead o) = some g' ∧ g'.graph = g.graph ∧
      g'.PropLists (fun o' => live o' ∧ o' ≠ o) P := by
  obtain ⟨hh, hl⟩ := h.chain o ho
  obtain ⟨hg, hv, hi, ht⟩ := freeAll_spec (h.nodup o ho) (fun _ => h.inUse ho) h.pool
  refine ⟨_, by rw [show g.chainHead o = (g.propView o).head from rfl, hh]; exact freeChain_eq hl hf, hg,
    fun o' ho' => by rw [hv]; exact h.chain o' ho'.1, fun o' ho' => h.nodup o' ho'.1,
    fun o1 o2 h1 h2 => h.disjoint o1 o2 h1.1 h2.1, fun p => ?_, ht⟩
  rw [hi, h.mem]
  constructor
  · rintro ⟨⟨o', ho', hp⟩, hno⟩
    exact ⟨o', ⟨ho', fun he => hno (he ▸ hp)⟩, hp⟩
  · rintro ⟨o', ⟨ho', hne⟩, hp⟩
    exact ⟨⟨o', ho', hp⟩, fun hpo => h.disjoint o' o ho' ho hne hp hpo⟩

/-! ## Pointer writes -/

theorem chainHead_setChainHead (o' : Owner) (v : Int) :
    (g.setChainHead o v).chainHead o' = if o' = o then v else g.chainHead o' := by
  cases o <;> cases o' <;>
    simp [chainHead, setChainHead, setNodePayload, setRelPayload, setNode, setRel] <;>
    split <;> simp_all

theorem chainHead_congr (h : g'.graph = g.graph) (o : Owner) : g'.chainHead o = g.chainHead o := by
  cases o <;> simp [chainHead, h]

theorem onlyPayload_setChainHead (g : PropertyGraph) (o : Owner) (v : Int) :
    Graph.OnlyPayload g.graph (g.setChainHead o v).graph := by
  cases o with
  | node n => exact .setNode ..
  | rel r => exact .setRel ..

@[simp] theorem props_setChainHead (o : Owner) (v : Int) : (g.setChainHead o v).props = g.props := by
  cases o <;> rfl

@[simp] theorem propPool_setChainHead (o : Owner) (v : Int) : (g.setChainHead o v).propPool = g.propPool := by
  cases o <;> rfl

theorem ownerInUse_onlyPayload (h : Graph.OnlyPayload g.graph g'.graph) (o : Owner) :
    g'.ownerInUse o = g.ownerInUse o := by
  cases o with
  | node n => exact h.nodeUse n
  | rel r => exact h.relUse r

theorem propView_setChainHead (v : Int) : (g.setChainHead o v).propView o = { g.propView o with head := v } := by
  simp [propView, chainHead_setChainHead]

theorem propView_setProp (id : Int) (p : PropRecord) : (g.setProp id p).propView o =
    { g.propView o with next := update (g.propView o).next id p.nextPropId
                        prev := update (g.propView o).prev id p.prevPropId } := by
  ext x
  · cases o <;> rfl
  all_goals rcases eq_or_ne x id with rfl | hx <;> simp_all [propView, setProp]

theorem propView_setPrevProp (id v : Int) :
    (g.setPrevProp id v).propView o = { g.propView o with prev := update (g.propView o).prev id v } := by
  have hn : update (g.propView o).next id (g.props id).nextPropId = (g.propView o).next :=
    Function.update_eq_self id _
  rw [setPrevProp, propView_setProp, hn]

theorem propView_setNextProp (id v : Int) :
    (g.setNextProp id v).propView o = { g.propView o with next := update (g.propView o).next id v } := by
  have hp : update (g.propView o).prev id (g.props id).prevPropId = (g.propView o).prev :=
    Function.update_eq_self id _
  rw [setNextProp, propView_setProp, hp]

/-! ## Adding and removing a property -/

variable {id x : Int} {key type value : UInt32}

/-- The state `addPropertyToChain` leaves once `id` is allocated. -/
def pushProp (g : PropertyGraph) (o : Owner) (id : Int) (q : Pool) (key type value : UInt32) : PropertyGraph :=
  let head := g.chainHead o
  let g := { g with propPool := q }
  let g := g.setProp id { inUse := true, key, type, value, prevPropId := graphNone, nextPropId := head }
  let g := if head ≠ graphNone then g.setPrevProp head id else g
  g.setChainHead o id

theorem addPropertyToChain_eq_some : g.addPropertyToChain o key type value = some (id, g') ↔
      ∃ q, g.propPool.alloc = some (id, q) ∧ g' = g.pushProp o id q key type value := by
  rw [← Pool.alloc_map_eq_some fun i q => g.pushProp o i q key type value, addPropertyToChain, allocProp]
  cases g.propPool.alloc <;> rfl

theorem propView_pushProp (id : Int) (q : Pool) (key type value : UInt32) :
    (g.pushProp o id q key type value).propView o = (g.propView o).pushFront graphNone id := by
  have hq : { g with propPool := q }.propView o = g.propView o := by cases o <;> rfl
  have hh : g.chainHead o = (g.propView o).head := rfl
  unfold pushProp
  by_cases h : (g.propView o).head = graphNone
  · simp [hh, h, propView_setChainHead, propView_setProp, hq, Dll.pushFront]
  · simp [hh, h, propView_setChainHead, propView_setPrevProp, propView_setProp, hq, Dll.pushFront]

theorem props_pushProp_of_ne (hx : x ≠ id) (hh : x ≠ g.chainHead o) :
    (g.pushProp o id q key type value).props x = g.props x := by
  unfold pushProp
  rw [props_setChainHead]
  split <;> simp [setPrevProp, setProp, hx, hh]

theorem graph_pushProp : (g.pushProp o id q key type value).graph = (g.setChainHead o id).graph := by
  simp only [pushProp]
  split <;> cases o <;> rfl

theorem propPool_pushProp : (g.pushProp o id q key type value).propPool = q := by
  simp only [pushProp, propPool_setChainHead]
  split <;> rfl

theorem inUse_setProp {r : PropRecord} (h : r.inUse = (g.props id).inUse) :
    ((g.setProp id r).props x).inUse = (g.props x).inUse := by
  rcases eq_or_ne x id with rfl | hx
  · simpa [setProp] using h
  · simp [setProp, hx]

theorem inUse_pushProp (x : Int) :
    ((g.pushProp o id q key type value).props x).inUse = update (fun x => (g.props x).inUse) id true x := by
  have hset : ∀ p : PropRecord, p.inUse →
      (({ g with propPool := q }.setProp id p).props x).inUse =
        update (fun x => (g.props x).inUse) id true x := by
    intro p hp
    rcases eq_or_ne x id with rfl | hx
    · simpa [setProp] using hp
    · simp [setProp, hx]
  unfold pushProp
  rw [props_setChainHead]
  split
  · refine (inUse_setProp ?_).trans (hset _ ?_) <;> rfl
  · exact hset _ rfl

theorem PropLists.addProperty (h : g.PropLists live P) (ho : live o)
    (ha : g.addPropertyToChain o key type value = some (id, g')) :
    Graph.OnlyPayload g.graph g'.graph ∧ g'.PropLists live (update P o (id :: P o)) := by
  obtain ⟨q, hq, rfl⟩ := addPropertyToChain_eq_some.1 ha
  obtain ⟨hfree, hid0, -, htr⟩ := h.pool.alloc hq
  have hid : id ≠ graphNone := fun he => by simp [he] at hid0
  have hnew : ∀ o', live o' → id ∉ P o' := fun o' ho' hm => by
    simp [h.inUse ho' hm] at hfree
  have hhead : ∀ o', live o' → o' ≠ o → ∀ x ∈ P o', x ≠ g.chainHead o := by
    intro o' ho' hne x hx he
    have hx0 : x ≠ graphNone := (h.chain o' ho').ne_nil hx
    subst he
    exact h.disjoint o' o ho' ho hne hx ((h.chain o ho).head_mem hx0)
  refine ⟨?_, h.put (fun o' => ⟨.inl, (·.elim (·) (· ▸ ho))⟩) ?_ (List.nodup_cons.2 ⟨hnew o ho, h.nodup o ho⟩)
    (fun o' ho' hne => ⟨?_, fun x hx => ?_⟩) ?_ (fun p => ?_) ?_⟩
  · rw [graph_pushProp]; exact onlyPayload_setChainHead g o id
  · rw [propView_pushProp]
    exact (h.chain o ho).pushFront (h.nodup o ho) hid (hnew o ho)
  · rw [chainHead_congr graph_pushProp, chainHead_setChainHead, if_neg hne]
  · have hx' : x ≠ id := fun he => hnew o' ho' (he ▸ hx)
    simp [props_pushProp_of_ne hx' (hhead o' ho' hne x hx)]
  · exact List.forall_mem_cons.2 ⟨.inr hfree, fun p hp => .inl ⟨ho, hp⟩⟩
  · have hown : p ∈ P o → (g.props p).inUse := h.inUse ho
    rw [inUse_pushProp]
    rcases eq_or_ne p id with rfl | hp
    · simp
    · by_cases hpo : p ∈ P o <;> simp [hp, hpo, hown]
  · rw [propPool_pushProp]; exact htr.congr inUse_pushProp

theorem propView_unlinkProp (id : Int) : (g.unlinkProp id o).propView o = (g.propView o).unlink graphNone id := by
  have hp : (g.props id).prevPropId = (g.propView o).prev id := rfl
  have hn : (g.props id).nextPropId = (g.propView o).next id := rfl
  unfold unlinkProp
  by_cases h : (g.propView o).prev id = graphNone <;> by_cases h' : (g.propView o).next id = graphNone <;>
    simp [hp, hn, h, h', propView_setChainHead, propView_setNextProp, propView_setPrevProp, Dll.unlink]

theorem inUse_unlinkProp (id x : Int) : ((g.unlinkProp id o).props x).inUse = (g.props x).inUse := by
  simp only [unlinkProp]
  split <;> split <;> simp [setPrevProp, setNextProp, inUse_setProp]

theorem propPool_unlinkProp (id : Int) : (g.unlinkProp id o).propPool = g.propPool := by
  simp only [unlinkProp]
  split <;> split <;> cases o <;> rfl

theorem graph_unlinkProp (id : Int) :
    (g.unlinkProp id o).graph = g.graph ∨ ∃ v, (g.unlinkProp id o).graph = (g.setChainHead o v).graph := by
  simp only [unlinkProp]
  split <;> split
  · exact .inl rfl
  · exact .inr ⟨_, rfl⟩
  · exact .inl rfl
  · exact .inr ⟨_, rfl⟩

theorem onlyPayload_unlinkProp (id : Int) : Graph.OnlyPayload g.graph (g.unlinkProp id o).graph := by
  rcases graph_unlinkProp (g := g) (o := o) id with h | ⟨v, h⟩ <;> rw [h]
  · exact .refl _
  · exact onlyPayload_setChainHead g o v

theorem chainHead_unlinkProp_of_ne {o' : Owner} (id : Int) (hne : o' ≠ o) :
    (g.unlinkProp id o).chainHead o' = g.chainHead o' := by
  rcases graph_unlinkProp (g := g) (o := o) id with h | ⟨v, h⟩ <;> rw [chainHead_congr h]
  rw [chainHead_setChainHead, if_neg hne]

theorem props_unlinkProp_of_ne (hp : x ≠ (g.props id).prevPropId) (hn : x ≠ (g.props id).nextPropId) :
    (g.unlinkProp id o).props x = g.props x := by
  simp only [unlinkProp]
  split <;> split <;> simp [setPrevProp, setNextProp, setProp, hp, hn]

theorem PropLists.removeProperty (h : g.PropLists live P) (ho : live o) (hid : id ∈ P o) :
    ∃ g', g.removeProperty id o = some g' ∧ Graph.OnlyPayload g.graph g'.graph ∧
      g'.PropLists live (update P o ((P o).erase id)) := by
  have huse := h.inUse ho hid
  have hc := h.chain o ho
  have hnd := h.nodup o ho
  refine ⟨_, if_pos huse, onlyPayload_unlinkProp id, h.put (fun o' => ⟨.inl, (·.elim (·) (· ▸ ho))⟩) ?_ (hnd.erase _)
    (fun o' ho' hne => ⟨?_, fun x hx => ?_⟩) (fun p hp => .inl ⟨ho, List.mem_of_mem_erase hp⟩) (fun p => ?_) ?_⟩
  · rw [propView_freeProp, propView_unlinkProp]
    obtain ⟨l1, l2, hl⟩ := List.append_of_mem hid
    rw [hl] at hc hnd ⊢
    have hr1 : id ∉ l1 := fun hm => (List.disjoint_of_nodup_append hnd) hm (by simp)
    rw [List.erase_append_right _ hr1, List.erase_cons_head]
    exact hc.unlink hnd
  · exact (chainHead_congr rfl o').trans (chainHead_unlinkProp_of_ne id hne)
  · -- The neighbours of `id` are on the list of `o`, so not on this one.
    have hout : ∀ y, y ∈ P o → x ≠ y := fun y hy he => h.disjoint o' o ho' ho hne hx (he ▸ hy)
    have hx0 := (h.chain o' ho').ne_nil hx
    have hp : x ≠ (g.props id).prevPropId := fun he =>
      hout _ (hc.prev_mem hid (show (g.props id).prevPropId ≠ graphNone from he ▸ hx0)) he
    have hn : x ≠ (g.props id).nextPropId := fun he =>
      hout _ (hc.next_mem hid (show (g.props id).nextPropId ≠ graphNone from he ▸ hx0)) he
    have hkeep := congrArg (fun v => (v.next x, v.prev x)) (propView_freeProp (g := g.unlinkProp id o) (o := o) id)
    simpa [propView, props_unlinkProp_of_ne hp hn] using hkeep
  · have hown : p ∈ P o → (g.props p).inUse := h.inUse ho
    rw [inUse_freeProp, hnd.mem_erase_iff]
    rcases eq_or_ne p id with rfl | hp
    · simp [ho, hid]
    · rw [update_of_ne hp, inUse_unlinkProp]
      by_cases hpo : p ∈ P o <;> simp [hp, hpo, hown]
  · have hpool : (g.unlinkProp id o).propPool.Tracks fun p => ((g.unlinkProp id o).props p).inUse := by
      rw [propPool_unlinkProp]; exact h.pool.congr (inUse_unlinkProp id)
    exact (hpool.release (by rw [inUse_unlinkProp]; exact huse)).congr (inUse_freeProp id)

/-! ## Calls and fuel -/

theorem freeChain_mono (hf : fuel ≤ fuel') (h : freeChain fuel g p = some g') : freeChain fuel' g p = some g' := by
  obtain ⟨s, hs, rfl⟩ := map_eq_some_iff.1 h
  exact map_eq_some_iff.2 ⟨s, Loop.run_mono (fun _ _ h => h) hf hs, rfl⟩

variable {bound : Nat} {node : Int}

theorem freeRelProps_mono {bound' : Nat} {cur : Int} (hb : bound ≤ bound') (hf : fuel ≤ fuel')
    (h : freeRelProps bound node fuel g cur = some g') : freeRelProps bound' node fuel' g cur = some g' := by
  obtain ⟨s, hs, rfl⟩ := map_eq_some_iff.1 h
  refine map_eq_some_iff.2 ⟨s, Loop.run_mono (fun s s' h => ?_) hf hs, rfl⟩
  obtain ⟨g1, h1, rfl⟩ := map_eq_some_iff.1 h
  exact map_eq_some_iff.2 ⟨g1, freeChain_mono hb h1, rfl⟩

/-- More fuel never changes what a call returns. -/
theorem call_mono {c : Call} (hf : fuel ≤ fuel') (h : g.call fuel c = some g') : g.call fuel' c = some g' := by
  cases c with
  | addNode | addRelationship | addProperty | removeProperty | setPropertyValue => exact h
  | removeRelationship id =>
    simp only [call, removeRelationship, bind_eq_bind, bind_eq_some_iff] at h ⊢
    obtain ⟨g1, h1, h2⟩ := h
    exact ⟨g1, freeChain_mono hf h1, h2⟩
  | removeNode id =>
    simp only [call, removeNode, bind_eq_bind, bind_eq_some_iff] at h ⊢
    obtain ⟨g1, h1, g2, h2, graph, h3, h4⟩ := h
    exact ⟨g1, freeRelProps_mono hf hf h1, g2, freeChain_mono hf h2, graph, removeNode_mono hf h3, h4⟩

/-! ## The invariant -/

variable {L : Int → List Int}

/-- **The store invariant**: adjacency lists and property lists. -/
structure WellFormed (g : PropertyGraph) (L : Int → List Int) (P : Owner → List Int) : Prop where
  graph : g.graph.WellFormed L
  props : g.PropLists (fun o => g.ownerInUse o = true) P

theorem WellFormed.create {nodeCapacity relCapacity propCapacity : Int} (hn : 0 ≤ nodeCapacity)
    (hr : 0 ≤ relCapacity) (hp : 0 ≤ propCapacity) :
    (create nodeCapacity relCapacity propCapacity).WellFormed (fun _ => []) fun _ => [] := by
  have hno : ∀ o, (PropertyGraph.create nodeCapacity relCapacity propCapacity).ownerInUse o = false := by
    intro o; cases o <;> rfl
  refine ⟨.create hn hr, ?_, fun _ _ => .nil, ?_, ?_, .empty hp⟩
  · intro o ho; simp [hno] at ho
  · intro o o' ho; simp [hno] at ho
  · simp [PropertyGraph.create, PropRecord.zero]

theorem addNode_eq_some : g.addNode = some (id, g') ↔
    ∃ graph, g.graph.addNode graphNone = some (id, graph) ∧ g' = { g with graph } := by
  unfold addNode
  simp only [bind_eq_bind, bind_eq_some_iff, pure_def, Option.some.injEq, Prod.exists,
    Prod.mk.injEq]
  have hset : ∀ {id : Int} {graph : Graph Int Int}, g.graph.addNode graphNone = some (id, graph) →
      graph.setNode id { graph.nodes id with inUse := true } = graph := by
    intro id graph h
    obtain ⟨q, -, rfl⟩ := Graph.addNode_eq_some.1 h
    simp [setNode]
  constructor
  · rintro ⟨i, graph, h, rfl, rfl⟩
    exact ⟨graph, h, by rw [hset h]⟩
  · rintro ⟨graph, h, rfl⟩
    exact ⟨id, graph, h, rfl, by rw [hset h]⟩

theorem WellFormed.addNode (h : g.WellFormed L P) (ha : g.addNode = some (id, g')) :
    g'.WellFormed (update L id []) (update P (.node id) []) := by
  obtain ⟨graph, hg, rfl⟩ := addNode_eq_some.1 ha
  refine ⟨h.graph.addNode hg, ?_⟩
  obtain ⟨q, hq, rfl⟩ := Graph.addNode_eq_some.1 hg
  obtain ⟨hfree, -, -, -⟩ := h.graph.nodePool.alloc hq
  have hnew : ¬ g.ownerInUse (.node id) := by simpa [ownerInUse] using hfree
  refine h.props.addOwner hnew rfl rfl (fun o ho => ?_) (by simp [chainHead]) fun o => ?_
  · cases o with
    | node n =>
      have hn : n ≠ id := fun he => hnew (he ▸ ho)
      simp [chainHead, hn]
    | rel r => rfl
  · cases o with
    | node n => rcases eq_or_ne n id with rfl | hn <;> simp_all [ownerInUse]
    | rel r => simp [ownerInUse]

theorem addRelationship_eq_some {src dst id : Int} {type : UInt32} : g.addRelationship src dst type = some (id, g') ↔
      ∃ graph, g.graph.addRelationship src dst type graphNone = some (id, graph) ∧ g' = { g with graph } := by
  unfold addRelationship
  simp only [bind_eq_bind, bind_eq_some_iff, pure_def, Option.some.injEq, Prod.exists,
    Prod.mk.injEq]
  constructor
  · rintro ⟨i, graph, h, rfl, rfl⟩; exact ⟨graph, h, rfl⟩
  · rintro ⟨graph, h, rfl⟩; exact ⟨id, graph, h, rfl, rfl⟩

theorem WellFormed.addRelationship {src dst id : Int} {type : UInt32} (h : g.WellFormed L P)
    (hs : (g.graph.nodes src).inUse) (hd : (g.graph.nodes dst).inUse)
    (ha : g.addRelationship src dst type = some (id, g')) :
    g'.WellFormed (fun n => if n = src ∨ n = dst then id :: L n else L n) (update P (.rel id) []) := by
  obtain ⟨graph, hg, rfl⟩ := addRelationship_eq_some.1 ha
  obtain ⟨⟨q, hq, hshape⟩, hwf⟩ := h.graph.addRelationship hs hd hg
  refine ⟨hwf, ?_⟩
  obtain ⟨hfree, -, -, -⟩ := h.graph.relPool.alloc hq
  have hnew : ¬ g.ownerInUse (.rel id) := by simpa [ownerInUse] using hfree
  refine h.props.addOwner hnew rfl rfl (fun o ho => ?_) ?_ fun o => ?_
  · cases o with
    | node n => exact hshape.nodePayload n
    | rel r =>
      have hr : r ≠ id := fun he => hnew (he ▸ ho)
      exact (hshape.relPayload r).trans (by simp [withFresh, chainHead, hr])
  · exact (hshape.relPayload id).trans (by simp [withFresh, freshRel])
  · cases o with
    | node n => simp only [ownerInUse, hshape.nodeUse, reduceCtorEq, or_false]; rfl
    | rel r =>
      simp only [ownerInUse, hshape.relUse]
      rcases eq_or_ne r id with rfl | hr
      · simp [withFresh, freshRel]
      · simp [withFresh, hr]

/-! ## Removing owners -/

theorem WellFormed.removeRelationship (h : g.WellFormed L P) (hid : (g.graph.rels id).inUse)
    (hf : (P (.rel id)).length ≤ fuel) :
    ∃ g', g.removeRelationship fuel id = some g' ∧ g'.WellFormed (fun n => (L n).erase id) P ∧
      ∀ o, g'.ownerInUse o ↔ g.ownerInUse o ∧ o ≠ .rel id := by
  obtain ⟨g1, hrun, hgr, hp⟩ := h.props.freeChain (o := .rel id) hid hf
  obtain ⟨graph, hrem⟩ : ∃ graph, g.graph.removeRelationship id = some graph :=
    ⟨_, removeRelationship_eq_some.2 ⟨hid, rfl⟩⟩
  obtain ⟨hr, hwf⟩ := h.graph.removeRelationship hrem
  have huse : ∀ o, { g1 with graph }.ownerInUse o ↔
      g.ownerInUse o ∧ o ≠ .rel id := by
    intro o
    cases o with
    | node n => simp [ownerInUse, hr.nodeUse]
    | rel r =>
      simp only [ownerInUse, hr.relUse]
      by_cases he : r = id <;> simp [he]
  refine ⟨{ g1 with graph }, ?_, ⟨hwf, hp.congr huse (fun _ => ⟨rfl, rfl, rfl⟩) rfl fun o _ => ?_⟩, huse⟩
  · have hrun : freeChain fuel g (g.graph.rels id).payload = some g1 := hrun
    simp [PropertyGraph.removeRelationship, hrun, hgr, hrem]
  · cases o with
    | node n => simp [chainHead, hr.nodePayload, hgr]
    | rel r => simp [chainHead, hr.relPayload, hgr]

theorem freeRelProps_none : freeRelProps bound node fuel g graphNone = some g := by
  simp [freeRelProps, Loop.run_done]

theorem freeRelProps_step {cur : Int} (hc : cur ≠ graphNone)
    (hr : freeChain bound g (g.graph.rels cur).payload = some g') : freeRelProps bound node (fuel + 1) g cur =
      freeRelProps bound node fuel (g'.setChainHead (.rel cur) graphNone) (g.graph.nextOf node cur) := by
  unfold freeRelProps
  rw [Loop.run_step (by simpa using hc), hr]
  rfl

/-- **`removeNode`'s first loop** frees the properties of the relationships on
the node's list; the list itself and all other heads stay. -/
theorem PropLists.freeRelProps : ∀ {l : List Int} {fuel : Nat} {g : PropertyGraph}
    {live : Owner → Prop} {q : Int}, g.PropLists live P → Dll.Linked graphNone (g.graph.view node) q l → l.Nodup →
    (∀ r ∈ l, live (.rel r) ∧ (P (.rel r)).length ≤ bound) → l.length ≤ fuel →
    ∃ g', freeRelProps bound node fuel g (Dll.firstOr graphNone l) = some g' ∧
      Graph.OnlyPayload g.graph g'.graph ∧ g'.PropLists (fun o => live o ∧ ∀ r ∈ l, o ≠ .rel r) P
  | [], _, g, _, _, h, _, _, _, _ =>
    ⟨g, freeRelProps_none, .refl _, h.live_congr (by simp)⟩
  | r :: l, fuel + 1, g, live, q, h, ⟨hr0, _, hn, hl⟩, hnd, hlive, hf => by
    obtain ⟨hrl, hlen⟩ := hlive r (by simp)
    have hf : l.length ≤ fuel := by simpa using hf
    have hn : g.graph.nextOf node r = Dll.firstOr graphNone l := hn
    obtain ⟨g1, hrun, hgr, hp⟩ := h.freeChain hrl hlen
    -- The head of `r` is cleared; `r` is no longer live, so the lists do not notice.
    have hp2 : (g1.setChainHead (.rel r) graphNone).PropLists (fun o => live o ∧ o ≠ .rel r) P :=
      hp.congr (fun _ => Iff.rfl) (by simp) (propPool_setChainHead ..) fun o ho => by
        rw [chainHead_setChainHead, if_neg ho.2]
    have ho2 : Graph.OnlyPayload g.graph (g1.setChainHead (.rel r) graphNone).graph :=
      hgr ▸ onlyPayload_setChainHead g1 (.rel r) graphNone
    obtain ⟨g', hrun', hop, hp'⟩ := hp2.freeRelProps (by rw [ho2.view]; exact hl)
      (List.nodup_cons.1 hnd).2 (fun x hx => ⟨⟨(hlive x (by simp [hx])).1, fun he => by
        cases he; exact (List.nodup_cons.1 hnd).1 hx⟩, (hlive x (by simp [hx])).2⟩) hf
    refine ⟨g', ?_, ho2.trans hop, hp'.live_congr fun o => by simp [and_assoc]⟩
    rw [Dll.firstOr_cons, freeRelProps_step hr0 hrun, hn]
    exact hrun'

theorem WellFormed.removeNode (h : g.WellFormed L P) (hid : (g.graph.nodes id).inUse) :
    ∃ n, ∀ fuel, n ≤ fuel → ∃ g' L', g.removeNode fuel id = some g' ∧ g'.WellFormed L' P ∧
      ∀ o, g'.ownerInUse o ↔ (g.ownerInUse o ∧ ∀ r ∈ L id, o ≠ .rel r) ∧ o ≠ .node id := by
  obtain ⟨n, hn⟩ := Fallible.exists_fuel_forall_mem
    fun r _ => ⟨_, fun _ => (·)⟩
  refine ⟨(L id).length + (P (.node id)).length + n, fun fuel hfuel => ?_⟩
  have hL : (L id).length ≤ fuel := by omega
  have hP : (P (.node id)).length ≤ fuel := by omega
  have hR := hn fuel (by omega)
  have hchain := h.graph.chain id hid
  obtain ⟨g1, hrun1, ho1, hp1⟩ := h.props.freeRelProps hchain.2 (h.graph.nodup id hid)
    (fun r hr => ⟨((h.graph.mem id hid r).1 hr).1, hR r hr⟩) hL
  obtain ⟨g2, hrun2, hgr2, hp2⟩ := hp1.freeChain (o := .node id) ⟨hid, by simp⟩ hP
  -- The store below sees the same lists, whatever happened to the payloads.
  set g3 := g2.setChainHead (.node id) graphNone with hg3
  have ho3 : Graph.OnlyPayload g.graph g3.graph :=
    ho1.trans (hgr2 ▸ onlyPayload_setChainHead g2 (.node id) graphNone)
  obtain ⟨g4, L', hclr, hrun4, hwf⟩ := (h.graph.onlyPayload ho3).removeNode
    ((ho3.nodeUse id).trans hid) hL
  have huse : ∀ o, { g3 with graph := g4.releaseNode id }.ownerInUse o ↔
      (g.ownerInUse o ∧ ∀ r ∈ L id, o ≠ .rel r) ∧ o ≠ .node id := by
    intro o
    cases o with
    | node n =>
      rcases eq_or_ne n id with rfl | hn
      · simp [ownerInUse, releaseNode, setNode]
      · simp [ownerInUse, releaseNode, setNode, hn, hclr.nodeUse, ho3.nodeUse]
    | rel r =>
      have hr : ((g4.releaseNode id).rels r).inUse ↔ (g.graph.rels r).inUse ∧ r ∉ L id :=
        (hclr.relUse r).trans (by rw [ho3.relUse])
      simp only [ownerInUse, hr, ne_eq, Owner.rel.injEq, reduceCtorEq, not_false_eq_true, and_true]
      exact and_congr_right fun _ => ⟨fun hm x hx he => hm (he ▸ hx), fun hm hx => hm r hx rfl⟩
  refine ⟨{ g3 with graph := g4.releaseNode id }, L', ?_, ⟨hwf, hp2.congr huse ?_ ?_ fun o ho => ?_⟩, huse⟩
  · rw [← hchain.1] at hrun1
    have hrun1 : PropertyGraph.freeRelProps fuel id fuel g (g.graph.nodes id).firstRelId = some g1 := hrun1
    have hrun2 : freeChain fuel g1 (g1.graph.nodes id).payload = some g2 := hrun2
    simp only [PropertyGraph.removeNode, hrun1, hrun2, bind_eq_bind, bind_some, ← hg3, hrun4,
      pure_def]
  · simp [g3]
  · exact propPool_setChainHead ..
  · have hhead : g3.chainHead o = g2.chainHead o := by
      rw [chainHead_setChainHead, if_neg ho.2]
    rw [← hhead]
    cases o with
    | node n =>
      have hn : n ≠ id := fun he => ho.2 (he ▸ rfl)
      simp [chainHead, releaseNode, setNode, hn, hclr.nodePayload]
    | rel r => simp [chainHead, releaseNode, setNode, hclr.relPayload]

/-! ## Runs -/

/-- **The step.** An admissible call returns, given enough fuel, and keeps the
invariant. -/
theorem WellFormed.call {c : Call} (h : g.WellFormed L P) (ha : g.Admissible c) :
    ∃ fuel g' L' P', g.call fuel c = some g' ∧ g'.WellFormed L' P' := by
  cases c with
  | addNode =>
    obtain ⟨id, graph, hg⟩ := addNode_isSome ha graphNone
    have hrun := addNode_eq_some.2 ⟨graph, hg, rfl⟩
    exact ⟨0, _, _, _, by rw [PropertyGraph.call, hrun, map_some], h.addNode hrun⟩
  | addRelationship src dst type =>
    obtain ⟨hs, hd, hroom⟩ := ha
    obtain ⟨id, graph, hg⟩ := addRelationship_isSome hroom src dst type graphNone
    have hrun := addRelationship_eq_some.2 ⟨graph, hg, rfl⟩
    exact ⟨0, _, _, _, by rw [PropertyGraph.call, hrun, map_some], h.addRelationship hs hd hrun⟩
  | removeRelationship id =>
    obtain ⟨g', hrun, h', -⟩ := h.removeRelationship ha (Nat.le_refl _)
    exact ⟨_, g', _, _, hrun, h'⟩
  | removeNode id =>
    obtain ⟨n, hn⟩ := h.removeNode ha
    obtain ⟨g', L', hrun, h', -⟩ := hn n le_rfl
    exact ⟨n, g', L', P, hrun, h'⟩
  | addProperty o key type value =>
    obtain ⟨ho, hroom⟩ := ha
    obtain ⟨⟨id, q⟩, hq⟩ := Pool.alloc_isSome hroom
    have hrun : g.addPropertyToChain o key type value = _ := addPropertyToChain_eq_some.2 ⟨q, hq, rfl⟩
    obtain ⟨hop, hp⟩ := h.props.addProperty ho hrun
    exact ⟨0, _, L, _, by rw [PropertyGraph.call, hrun, map_some], h.graph.onlyPayload hop,
      hp.live_congr fun o => by rw [ownerInUse_onlyPayload hop]⟩
  | removeProperty id o =>
    obtain ⟨ho, fuel, l, hl, hid⟩ := ha
    obtain rfl := (h.props.chain o ho).eq_of_walk hl
    obtain ⟨g', hrun, hop, hp⟩ := h.props.removeProperty ho hid
    exact ⟨0, g', L, _, hrun, h.graph.onlyPayload hop,
      hp.live_congr fun o => by rw [ownerInUse_onlyPayload hop]⟩
  | setPropertyValue id value =>
    refine ⟨0, _, L, P, rfl, h.graph, h.props.congr (fun o => ?_) (fun p => ?_) rfl fun o _ => ?_⟩
    · cases o <;> rfl
    · rcases eq_or_ne p id with rfl | hp
      · simp [setPropertyValue, setProp]
      · simp [setPropertyValue, setProp, hp]
    · cases o <;> rfl

/-- **The store invariant holds in every reachable state.** -/
theorem Reachable.wellFormed (h : Reachable g) : ∃ L P, g.WellFormed L P := by
  induction h with
  | create nc rc pc hn hr hp => exact ⟨_, _, .create hn hr hp⟩
  | @call g g' c fuel _ ha hrun ih =>
    obtain ⟨L, P, hwf⟩ := ih
    obtain ⟨fuel1, g1, L', P', hrun1, hwf'⟩ := hwf.call ha
    have h1 := call_mono (Nat.le_max_left fuel fuel1) hrun
    rw [call_mono (Nat.le_max_right fuel fuel1) hrun1, Option.some.injEq] at h1
    exact ⟨L', P', h1 ▸ hwf'⟩

/-- **Adjacency.** In every reachable property graph, walking the relationship
list of a node in use ends and visits, each once, exactly the relationships in
use that have the node as an endpoint; neighbours on the list point at each
other; what is on a list or in use is not free, and no free list names an id
twice. Every admissible call returns, so these are all the states of all runs. -/
theorem reachable_adjacency (h : Reachable g) : (∀ n, (g.graph.nodes n).inUse = true → ∃ l : List Int,
      (∀ fuel, l.length ≤ fuel → g.graph.relChain fuel n = some l) ∧ l.Nodup ∧
      (∀ r, r ∈ l ↔ (g.graph.rels r).inUse = true ∧
        ((g.graph.rels r).firstNodeId = n ∨ (g.graph.rels r).secondNodeId = n)) ∧
      (∀ l₁ r r' l₂, l = l₁ ++ r :: r' :: l₂ → g.graph.nextOf n r = r' ∧ g.graph.prevOf n r' = r) ∧
      (∀ r ∈ l, r ∉ g.graph.relPool.free)) ∧
    (g.graph.relPool.free.Nodup ∧ ∀ r ∈ g.graph.relPool.free, (g.graph.rels r).inUse = false) ∧
    (g.graph.nodePool.free.Nodup ∧ ∀ n ∈ g.graph.nodePool.free, (g.graph.nodes n).inUse = false) ∧
    (∀ c, g.Admissible c → ∃ fuel g', g.call fuel c = some g') := by
  obtain ⟨L, P, hwf⟩ := h.wellFormed
  have hg := hwf.graph
  refine ⟨fun n hn => ⟨L n, fun fuel hf => (hg.chain n hn).walk_eq hf, hg.nodup n hn, hg.mem n hn, ?_, ?_⟩,
    ⟨hg.relPool.nodup, hg.relPool.free_unused⟩, ⟨hg.nodePool.nodup, hg.nodePool.free_unused⟩, fun c ha => ?_⟩
  · intro l₁ r r' l₂ hl
    have hc := hg.chain n hn
    rw [hl] at hc
    exact hc.adjacent
  · exact fun r hr => hg.relPool.not_free ((hg.mem n hn r).1 hr).1
  · obtain ⟨fuel, g', -, -, hrun, -⟩ := hwf.call ha
    exact ⟨fuel, g', hrun⟩

theorem Reachable.of_call (h : Reachable g) (c : Call) (fuel : Nat) (ha : g.Admissible c)
    (hrun : g.call fuel c = some g') : Reachable g' :=
  h.call ha hrun

/-- A run with a self-loop and a recycled id: the loop is on its node's list once. -/
theorem reachable_adjacency_selfLoop : ∃ g, Reachable g ∧ g.graph.relChain 2 1 = some [0, 1] ∧
    g.graph.relPool.free.Nodup := by
  have h₀ := Reachable.create 2 3 0 (by decide) (by decide) (by decide)
  have h₁ := h₀.of_call .addNode 0 (show Pool.HasRoom _ by decide) rfl
  have h₂ := h₁.of_call .addNode 0 (show Pool.HasRoom _ by decide) rfl
  have h₃ := h₂.of_call (.addRelationship 0 1 7) 0 ⟨rfl, rfl, by decide⟩ rfl
  have h₄ := h₃.of_call (.addRelationship 1 1 7) 0 ⟨rfl, rfl, by decide⟩ rfl
  have h₅ := h₄.of_call (.removeRelationship 0) 1 rfl rfl
  have h₆ := h₅.of_call (.addRelationship 0 1 7) 0 ⟨rfl, rfl, by decide⟩ rfl
  exact ⟨_, h₆, by decide, (reachable_adjacency h₆).2.1.1⟩

/-! ## Property chains -/

/-- The record is on the property list of the owner. -/
def OnChain (g : PropertyGraph) (o : Owner) (p : Int) : Prop := ∃ fuel l, g.propChain fuel o = some l ∧ p ∈ l

theorem PropLists.onChain_iff (h : g.PropLists live P) (ho : live o) : g.OnChain o p ↔ p ∈ P o := by
  constructor
  · intro ⟨fuel, l, hl, hp⟩
    rwa [(h.chain o ho).eq_of_walk hl] at hp
  · exact fun hp => ⟨_, P o, (h.chain o ho).walk_eq (Nat.le_refl _), hp⟩

/-- When the lists stay and owners go, the records of those owners are the
ones freed. -/
theorem PropLists.freed {gone : Owner → Prop} (h : g.PropLists live P) (h' : g'.PropLists live' P)
    (huse : ∀ o, live' o ↔ live o ∧ ¬ gone o) (p : Int) :
    (g'.props p).inUse ↔ (g.props p).inUse ∧ ∀ o, live o → gone o → ¬ g.OnChain o p := by
  rw [h.mem, h'.mem]
  constructor
  · intro ⟨o, ho', hp⟩
    obtain ⟨ho, hkept⟩ := (huse o).1 ho'
    refine ⟨⟨o, ho, hp⟩, fun o1 ho1 hgone hon => ?_⟩
    exact h.disjoint o1 o ho1 ho (fun he => hkept (he ▸ hgone)) ((h.onChain_iff ho1).1 hon) hp
  · intro ⟨⟨o, ho, hp⟩, hkept⟩
    exact ⟨o, (huse o).2 ⟨ho, fun hgone => hkept o ho hgone ((h.onChain_iff ho).2 hp)⟩, hp⟩

/-- **Removing a relationship** frees its own properties. -/
theorem WellFormed.freed_removeRelationship (h : g.WellFormed L P) (hid : (g.graph.rels id).inUse)
    (hrun : g.removeRelationship fuel id = some g') :
    (g'.props p).inUse ↔ (g.props p).inUse ∧ ¬ g.OnChain (.rel id) p := by
  obtain ⟨g1, hrun1, h1, huse⟩ := h.removeRelationship hid (Nat.le_max_right fuel (P (.rel id)).length)
  have hmono := call_mono (c := .removeRelationship id) (Nat.le_max_left fuel (P (.rel id)).length) hrun
  cases hrun1.symm.trans hmono
  rw [h.props.freed h1.props huse]
  refine and_congr_right fun _ => ⟨fun hkept => hkept (.rel id) hid rfl, ?_⟩
  rintro hkept _ - rfl
  exact hkept

/-- **Removing a node** frees its own properties and those of the
relationships that go with it. -/
theorem WellFormed.freed_removeNode (h : g.WellFormed L P) (hid : (g.graph.nodes id).inUse)
    (hrun : g.removeNode fuel id = some g') : (g'.props p).inUse ↔ (g.props p).inUse ∧ ¬ g.OnChain (.node id) p ∧
      ∀ r, (g.graph.rels r).inUse → g.graph.Incident r id → ¬ g.OnChain (.rel r) p := by
  obtain ⟨n, hn⟩ := h.removeNode hid
  obtain ⟨g1, L', hrun1, h1, huse⟩ := hn (max fuel n) (le_max_right _ _)
  have hmono := call_mono (c := .removeNode id) (le_max_left fuel n) hrun
  cases hrun1.symm.trans hmono
  have hgone o : g'.ownerInUse o ↔ g.ownerInUse o ∧ ¬ (o = .node id ∨ ∃ r ∈ L id, o = .rel r) := by
    simp only [huse, not_or, not_exists, not_and, and_assoc, and_comm (a := o ≠ .node id)]
  rw [h.props.freed h1.props hgone]
  refine and_congr_right fun _ => ⟨fun hkept => ⟨hkept (.node id) hid (.inl rfl), fun r hr hinc => ?_⟩, ?_⟩
  · exact hkept (.rel r) hr (.inr ⟨r, (h.graph.mem id hid r).2 ⟨hr, hinc⟩, rfl⟩)
  · rintro ⟨hnode, hrels⟩ _ - (rfl | ⟨r, hr, rfl⟩)
    · exact hnode
    · obtain ⟨hr, hinc⟩ := (h.graph.mem id hid r).1 hr
      exact hrels r hr hinc

/-- **Property records.** In every reachable property graph, walking the
property list of an owner in use ends, with no record twice and none that is
free; every record in use is on the list of exactly one owner in use; the free
list names no record twice. So removing a relationship frees exactly its own
properties, removing a node its own and those of the relationships removed
with it. Every admissible call returns. -/
theorem reachable_properties (h : Reachable g) : (∀ o, g.ownerInUse o = true → ∃ l : List Int,
      (∀ fuel, l.length ≤ fuel → g.propChain fuel o = some l) ∧ l.Nodup ∧
      ∀ p ∈ l, (g.props p).inUse = true ∧ p ∉ g.propPool.free) ∧
    (∀ p, (g.props p).inUse = true → ∃! o, g.ownerInUse o = true ∧ g.OnChain o p) ∧
    (g.propPool.free.Nodup ∧ ∀ p ∈ g.propPool.free, (g.props p).inUse = false) ∧
    (∀ fuel id g' p, (g.graph.rels id).inUse = true → g.removeRelationship fuel id = some g' →
      ((g'.props p).inUse = true ↔ (g.props p).inUse = true ∧ ¬ g.OnChain (.rel id) p)) ∧
    (∀ fuel id g' p, (g.graph.nodes id).inUse = true → g.removeNode fuel id = some g' →
      ((g'.props p).inUse = true ↔ (g.props p).inUse = true ∧ ¬ g.OnChain (.node id) p ∧
        ∀ r, (g.graph.rels r).inUse = true →
          (g.graph.rels r).firstNodeId = id ∨ (g.graph.rels r).secondNodeId = id → ¬ g.OnChain (.rel r) p)) ∧
    (∀ c, g.Admissible c → ∃ fuel g', g.call fuel c = some g') := by
  obtain ⟨L, P, hwf⟩ := h.wellFormed
  have hp := hwf.props
  refine ⟨fun o ho => ⟨P o, fun fuel hf => (hp.chain o ho).walk_eq hf, hp.nodup o ho, fun p hmem => ?_⟩,
    fun p hu => ?_, ⟨hp.pool.nodup, hp.pool.free_unused⟩,
    fun fuel id g' p hid hrun => hwf.freed_removeRelationship hid hrun,
    fun fuel id g' p hid hrun => hwf.freed_removeNode hid hrun, fun c ha => ?_⟩
  · have hu := hp.inUse ho hmem
    exact ⟨hu, hp.pool.not_free hu⟩
  · obtain ⟨o, ho, hmem⟩ := (hp.mem p).1 hu
    refine ⟨o, ⟨ho, (hp.onChain_iff ho).2 hmem⟩, fun o' ⟨ho', hon⟩ => ?_⟩
    by_contra hne
    exact hp.disjoint o' o ho' ho hne ((hp.onChain_iff ho').1 hon) hmem
  · obtain ⟨fuel, g', -, -, hrun, -⟩ := hwf.call ha
    exact ⟨fuel, g', hrun⟩

/-- A run with properties of a node and of a relationship, and a record that
goes from the one to the other. -/
theorem reachable_properties_recycled : ∃ g, Reachable g ∧ g.propChain 2 (.node 0) = some [1] ∧
    g.propChain 2 (.rel 0) = some [0, 2] ∧ ∃! o, g.ownerInUse o = true ∧ g.OnChain o 0 := by
  have h₀ := Reachable.create 2 1 3 (by decide) (by decide) (by decide)
  have h₁ := h₀.of_call .addNode 0 (show Pool.HasRoom _ by decide) rfl
  have h₂ := h₁.of_call (.addRelationship 0 0 7) 0 ⟨rfl, rfl, by decide⟩ rfl
  have h₃ := h₂.of_call (.addProperty (.node 0) 1 1 1) 0 ⟨rfl, by decide⟩ rfl
  have h₄ := h₃.of_call (.addProperty (.node 0) 2 1 2) 0 ⟨rfl, by decide⟩ rfl
  have h₅ := h₄.of_call (.addProperty (.rel 0) 3 1 3) 0 ⟨rfl, by decide⟩ rfl
  have h₆ := h₅.of_call (.removeProperty 0 (.node 0)) 0 ⟨rfl, 2, [1, 0], by decide, by decide⟩ rfl
  have h₇ := h₆.of_call (.addProperty (.rel 0) 4 1 4) 0 ⟨rfl, by decide⟩ rfl
  exact ⟨_, h₇, by decide, by decide, (reachable_properties h₇).2.1 0 rfl⟩

end GengoDB.PropertyGraph
