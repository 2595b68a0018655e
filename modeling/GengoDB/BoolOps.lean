/-
Boolean operators of the `db` dialect: how `db.or` and `db.one_of` are rewritten
(`canonicalize` in `Dialect/DB/DBOps.cpp`) and how `db.and` and `db.or` are
lowered (`Conversion/DBToStd/LowerToStd.cpp`).

`AndOpLowering` and `OrOpLowering` compute Kleene's connectives (`denote_lowering`).
Factoring a disjunction keeps its truth value unless a conjunction is absorbed
(`eval_canonicalizeOr_iff`), and a list of constants becomes a range correctly
unless it repeats one (`between_eq_oneOf_iff`).
-/
import Mathlib.Data.Int.Interval
import GengoDB.Kleene

namespace GengoDB.BoolOps

open List Kleene
open Kleene (conj disj)

/-! ## Lowering -/

/-- A lowered operand: its value and, if its type is nullable, the null flag. -/
structure Lowered where
  isNull : Option Bool
  value : Bool

/-- The truth value of an operand; what is stored under a null does not matter. -/
def Lowered.denote (x : Lowered) : Option Bool := if x.isNull = some true then none else some x.value

/-- The loop of `AndOpLowering` and `OrOpLowering` after the first operand. -/
def lowerStep (op : Bool → Bool → Bool) (acc curr : Lowered) : Lowered :=
  match curr.isNull with
  | some currNull =>
    { isNull := some (acc.isNull.elim currNull (· || currNull))
      value := if currNull then acc.value else op curr.value acc.value }
  | none => { acc with value := op curr.value acc.value }

/-- A result has a null flag if an operand has one. -/
def lowering (first op finish : Bool → Bool → Bool) (x : Lowered) (xs : List Lowered) : Lowered :=
  let acc := xs.foldl (lowerStep op) { x with value := x.isNull.elim x.value (first · x.value) }
  { acc with isNull := acc.isNull.map (finish acc.value) }

def andOpLowering : Lowered → List Lowered → Lowered :=
  lowering (fun currNull currVal => currNull || currVal) (fun currVal result => currVal && result)
    fun result isNull => result && isNull

def orOpLowering : Lowered → List Lowered → Lowered :=
  lowering (fun currNull currVal => if currNull then false else currVal) (fun currVal result => currVal || result)
    fun result isNull => if result then false else isNull

/-- What the loop has for some operands; `b` is what decides the connective. -/
structure Collects (b : Bool) (l : List Lowered) (acc : Lowered) : Prop where
  value : acc.value = b ↔ some b ∈ l.map Lowered.denote
  isNull : acc.isNull = some true ↔ none ∈ l.map Lowered.denote

theorem Collects.foldl {b : Bool} (op : Bool → Bool → Bool) (hop : ∀ x y, op x y = b ↔ x = b ∨ y = b) {l : List Lowered}
    {acc : Lowered} (h : Collects b l acc) (xs : List Lowered) :
    Collects b (xs.reverse ++ l) (xs.foldl (lowerStep op) acc) := by
  induction xs generalizing l acc with
  | nil => exact h
  | cons x xs ih =>
    have hstep : Collects b (x :: l) (lowerStep op acc x) := by
      obtain ⟨_ | _ | _, value⟩ := x <;> refine ⟨?_, ?_⟩ <;>
        simp only [lowerStep, Lowered.denote, map_cons, mem_cons, ← h.value, ← h.isNull] <;>
        cases acc.isNull <;> simp [hop, @eq_comm _ b]
    simpa using ih hstep

theorem Collects.finish {b : Bool} (finish : Bool → Bool → Bool) (hfinish : ∀ v n, finish v n = ((v != b) && n))
    {l : List Lowered} {acc : Lowered} (h : Collects b l acc) :
    let result : Lowered := { acc with isNull := acc.isNull.map (finish acc.value) }
    (result.denote = some b ↔ some b ∈ l.map Lowered.denote) ∧
      (result.denote = some (!b) ↔ ∀ a ∈ l.map Lowered.denote, a = some (!b)) := by
  rw [forall_eq_iff, Bool.not_not, ← h.value, ← h.isNull]
  obtain rfl : finish = fun v n => (v != b) && n := funext₂ hfinish
  generalize acc.isNull = n, acc.value = v
  rcases n with _ | _ | _ <;> cases v <;> cases b <;> decide

/-- **The lowered connectives are Kleene's.** -/
theorem denote_lowering (x : Lowered) (xs : List Lowered) :
    (andOpLowering x xs).denote = conj ((x :: xs).map Lowered.denote) ∧
      (orOpLowering x xs).denote = disj ((x :: xs).map Lowered.denote) := by
  have hand : Collects false [x] { x with value := x.isNull.elim x.value (· || x.value) } := by
    obtain ⟨_ | _ | _, _ | _⟩ := x <;> exact ⟨by decide, by decide⟩
  have hor : Collects true [x] { x with value := x.isNull.elim x.value fun n => if n then false else x.value } := by
    obtain ⟨_ | _ | _, _ | _⟩ := x <;> exact ⟨by decide, by decide⟩
  have hmem a : a ∈ (xs.reverse ++ [x]).map Lowered.denote ↔ a ∈ (x :: xs).map Lowered.denote := by simp [or_comm]
  obtain ⟨hfalse, htrue⟩ := (hand.foldl (fun x y => x && y) (by decide) xs).finish
    (fun result isNull => result && isNull) (by decide)
  obtain ⟨htrue', hfalse'⟩ := (hor.foldl (fun x y => x || y) (by decide) xs).finish
    (fun result isNull => if result then false else isNull) (by decide)
  simp only [hmem] at hfalse htrue htrue' hfalse'
  exact ⟨ext (htrue.trans conj_eq_true.symm) (hfalse.trans conj_eq_false.symm),
    ext (htrue'.trans disj_eq_true.symm) (hfalse'.trans disj_eq_false.symm)⟩

/-! ## Disjunctions of conjunctions -/

section Or

variable {α : Type} [DecidableEq α] (ands : List (List α))

/-- What `OrOp::canonicalize` leaves: the operation as it is, or the conjunction
of the common conjuncts and the disjunction of the rest. -/
inductive Factored (α : Type) where
  | unchanged
  | conjunction (extracted : List α) (rest : List (List α))

def usage (a : α) : Nat := ands.countP (a ∈ ·)

def keep (l : List α) : List α := l.filter fun a => usage ands a ≠ ands.length

/-- The operands with something left; one from which nothing was taken stays. -/
def newOrOperands : List (List α) :=
  ands.filterMap fun l => if (keep ands l).length = l.length then some l
    else if keep ands l = [] then none else some (keep ands l)

/-- The set of the common conjuncts, here in the order they are found. -/
def extracted : List α := (ands.flatten.filter fun a => usage ands a = ands.length).dedup

/-- A single operand without a common conjunct replaces the disjunction. -/
def canonicalizeOr : Factored α :=
  if extracted ands ≠ [] ∨ (newOrOperands ands).length = 1 then
    .conjunction (extracted ands) (newOrOperands ands)
  else .unchanged

def orValue (ρ : α → Option Bool) : Option Bool := disj (ands.map fun l => conj (l.map ρ))

def Factored.eval (ρ : α → Option Bool) : Factored α → Option Bool
  | unchanged => orValue ands ρ
  | conjunction extracted rest => conj (extracted.map ρ ++ if rest = [] then [] else [orValue rest ρ])

variable {ands}

theorem usage_iff {a : α} : usage ands a = ands.length ↔ ∀ l ∈ ands, a ∈ l := by
  simp [usage, countP_eq_length]

theorem mem_extracted {a : α} : a ∈ extracted ands ↔ (∃ l ∈ ands, a ∈ l) ∧ ∀ l ∈ ands, a ∈ l := by
  simp [extracted, usage_iff, ← and_assoc, exists_and_right]

theorem mem_keep {a : α} {l : List α} : a ∈ keep ands l ↔ a ∈ l ∧ ∃ l' ∈ ands, a ∉ l' := by
  simp [keep, usage_iff]

/-- The operands that stay are those with something left, and empty ones. -/
theorem mem_newOrOperands {k : List α} : k ∈ newOrOperands ands ↔ ∃ l ∈ ands, k = keep ands l ∧ (l = [] ∨ k ≠ []) := by
  rw [newOrOperands, mem_filterMap]
  refine exists_congr fun l => and_congr_right fun _ => ?_
  split
  · next hlength =>
    have hkeep : keep ands l = l := filter_eq_self.2 (length_filter_eq_length_iff.1 hlength)
    rw [hkeep, Option.some.injEq]
    grind
  · next hlength =>
    have hnil : l ≠ [] := fun h => hlength (by rw [h]; rfl)
    grind

theorem conj_eq_and {l : List α} (hl : l ∈ ands) (ρ : α → Option Bool) :
    conj (l.map ρ) = and (conj ((extracted ands).map ρ)) (conj ((keep ands l).map ρ)) := by
  have hmem a : a ∈ l ↔ a ∈ extracted ands ∨ a ∈ keep ands l := by
    rw [mem_extracted, mem_keep]
    grind
  refine ext ?_ ?_ <;> simp [hmem, or_imp, forall_and, or_and_right, exists_or]

/-- **Factoring keeps the truth value** unless a conjunction has only common
conjuncts and another has more: the one absorbs the other, but is dropped. -/
theorem eval_canonicalizeOr_iff : (∀ ρ, (canonicalizeOr ands).eval ands ρ = orValue ands ρ) ↔
    ¬ ((∃ l ∈ ands, l ≠ [] ∧ ∀ a ∈ l, ∀ l' ∈ ands, a ∈ l') ∧ ∃ l ∈ ands, ∃ a ∈ l, ∃ l' ∈ ands, a ∉ l') := by
  unfold canonicalizeOr
  constructor
  · rintro h ⟨⟨l, hl, hne, hcommon⟩, l', hl', a, ha, hother⟩
    obtain ⟨c, hc⟩ := exists_mem_of_ne_nil l hne
    have hextracted : extracted ands ≠ [] := ne_nil_of_mem (mem_extracted.2 ⟨⟨l, hl, hc⟩, hcommon c hc⟩)
    have hrest : newOrOperands ands ≠ [] :=
      ne_nil_of_mem (mem_newOrOperands.2 ⟨l', hl', rfl, .inr (ne_nil_of_mem (mem_keep.2 ⟨ha, hother⟩))⟩)
    -- The common conjuncts are true and the others false.
    have h := h fun a => some (usage ands a = ands.length)
    rw [if_pos (.inl hextracted), Factored.eval, if_neg hrest, conj_append_singleton] at h
    have htrue : orValue ands (fun a => some (usage ands a = ands.length)) = some true :=
      disj_eq_true.2 (mem_map.2 ⟨l, hl, by simpa [usage_iff] using hcommon⟩)
    rw [htrue, and_eq_true, orValue, disj_eq_true, mem_map] at h
    obtain ⟨-, k, hk, htrue⟩ := h
    obtain ⟨l'', hl'', rfl, hnil | hnil⟩ := mem_newOrOperands.1 hk
    · exact absurd (hcommon c hc l'' hl'') (by simp [hnil])
    · obtain ⟨a, ha⟩ := exists_mem_of_ne_nil _ hnil
      have hfalse := conj_eq_true.1 htrue _ (mem_map_of_mem ha)
      simp only [Option.some.injEq, decide_eq_true_eq, usage_iff] at hfalse
      obtain ⟨-, m, hm, hnot⟩ := mem_keep.1 ha
      exact hnot (hfalse m hm)
  · intro h ρ
    split
    · next hchanged =>
      have hne : ands ≠ [] := by
        rintro rfl
        simp [extracted, newOrOperands] at hchanged
      have hvalue : orValue ands ρ = and (conj ((extracted ands).map ρ)) (orValue (ands.map (keep ands)) ρ) := by
        rw [orValue, orValue, map_map, map_congr_left fun l hl => conj_eq_and hl ρ]
        exact disj_map_and hne _
      rw [Factored.eval, hvalue]
      split
      · next hnil =>
        obtain ⟨l, hl⟩ := exists_mem_of_ne_nil ands hne
        have hkeep : keep ands l = [] := by
          by_contra hk
          simpa [hnil] using mem_newOrOperands.2 ⟨l, hl, rfl, .inr hk⟩
        have htrue : orValue (ands.map (keep ands)) ρ = some true :=
          disj_eq_true.2 (mem_map.2 ⟨_, mem_map_of_mem hl, by rw [hkeep]; rfl⟩)
        rw [append_nil, htrue, Kleene.and_true]
      · next hrest =>
        have hmem k : k ∈ newOrOperands ands ↔ k ∈ ands.map (keep ands) := by
          rw [mem_newOrOperands, mem_map]
          refine exists_congr fun l => and_congr_right fun hl => ⟨fun hk => hk.1.symm, fun hk => ⟨hk.symm, ?_⟩⟩
          by_contra hnot
          obtain ⟨hne, hkeep⟩ := not_or.1 hnot
          have hcommon : ∀ a ∈ l, ∀ l' ∈ ands, a ∈ l' := fun a ha l' hl' => by
            by_contra hother
            exact hkeep (hk ▸ ne_nil_of_mem (mem_keep.2 ⟨ha, l', hl', hother⟩))
          obtain ⟨c, hc⟩ := exists_mem_of_ne_nil l hne
          obtain ⟨k', hk'⟩ := exists_mem_of_ne_nil _ hrest
          obtain ⟨l', hl', rfl, hnil | hnil⟩ := mem_newOrOperands.1 hk'
          · exact absurd (hcommon c hc l' hl') (by simp [hnil])
          · obtain ⟨a, ha⟩ := exists_mem_of_ne_nil _ hnil
            exact h ⟨⟨l, hl, hne, hcommon⟩, l', hl', a, mem_keep.1 ha⟩
        rw [conj_append_singleton]
        exact congrArg _ (ext (by simp [orValue, hmem]) (by simp [orValue, hmem]))
    · rfl

/-- `a` absorbs `a ∧ b`. -/
theorem eval_canonicalizeOr_absorbed :
    let ρ : Nat → Option Bool := fun a => some (a = 0)
    orValue [[0], [0, 1]] ρ = some true ∧ (canonicalizeOr [[0], [0, 1]]).eval [[0], [0, 1]] ρ = some false := by
  decide

end Or

/-! ## Lists of constants -/

/-- `OneOfOp::canonicalize`, on constants of 64 bits: the bounds of a `BETWEEN`
if as many numbers lie between the least and the greatest as the list is long. -/
def canonicalizeOneOf (vals : List (BitVec 64)) : Option (Int × Int) := do
  let front ← (vals.map (·.toInt)).min?
  let back ← (vals.map (·.toInt)).max?
  let diff := BitVec.ofInt 64 (back - front)
  if diff.toNat = vals.length - 1 then some (front, back) else none

/-- `OneOfLowering`: the input is compared with every constant. -/
def oneOf (vals : List (BitVec 64)) (x : Option (BitVec 64)) : Option Bool :=
  disj (vals.map fun c => x.map fun x => x.toInt = c.toInt)

/-- `BetweenLowering`, both bounds inclusive. -/
def between (lower upper : Int) (x : Option (BitVec 64)) : Option Bool :=
  conj [x.map fun x => lower ≤ x.toInt, x.map fun x => x.toInt ≤ upper]

variable {vals : List (BitVec 64)} {lower upper : Int}

theorem canonicalizeOneOf_eq_some (h : canonicalizeOneOf vals = some (lower, upper)) :
    (∃ l ∈ vals, l.toInt = lower) ∧ (∃ u ∈ vals, u.toInt = upper) ∧ (∀ c ∈ vals, lower ≤ c.toInt ∧ c.toInt ≤ upper) ∧
      (upper + 1 - lower).toNat = vals.length := by
  unfold canonicalizeOneOf at h
  simp only [Option.bind_eq_bind, Option.bind_eq_some_iff, Option.ite_none_right_eq_some, Option.some.injEq, Prod.mk.injEq,
    min?_eq_some_iff, max?_eq_some_iff, mem_map] at h
  obtain ⟨_, ⟨⟨l, hl, rfl⟩, hmin⟩, _, ⟨⟨u, hu, rfl⟩, hmax⟩, hdiff, rfl, rfl⟩ := h
  refine ⟨⟨l, hl, rfl⟩, ⟨u, hu, rfl⟩, fun c hc => ⟨hmin _ ⟨c, hc, rfl⟩, hmax _ ⟨c, hc, rfl⟩⟩, ?_⟩
  have hle := hmin _ ⟨u, hu, rfl⟩
  have hlo := l.le_toInt
  have hhi := u.toInt_lt
  have hpos := length_pos_of_mem hl
  rw [BitVec.toNat_ofInt, Int.emod_eq_of_lt (by omega) (by omega)] at hdiff
  omega

/-- **A range stands for a list of constants** just if the list repeats none. -/
theorem between_eq_oneOf_iff (h : canonicalizeOneOf vals = some (lower, upper)) :
    (∀ x, between lower upper x = oneOf vals x) ↔ vals.Nodup := by
  obtain ⟨⟨l, hl, rfl⟩, ⟨u, hu, rfl⟩, hbounds, hcard⟩ := canonicalizeOneOf_eq_some h
  have hsub : (vals.map (·.toInt)).toFinset ⊆ Finset.Icc l.toInt u.toInt := fun i hi => by
    obtain ⟨c, hc, rfl⟩ := mem_map.1 (mem_toFinset.1 hi)
    exact Finset.mem_Icc.2 (hbounds c hc)
  -- The list has as many entries as the range has numbers.
  have hnodup : vals.Nodup ↔ Finset.Icc l.toInt u.toInt ⊆ (vals.map (·.toInt)).toFinset := by
    rw [← nodup_map_iff fun _ _ => BitVec.toInt_inj.1, ← dedup_eq_self]
    constructor
    · intro hdedup
      refine (Finset.eq_of_subset_of_card_le hsub ?_).superset
      rw [card_toFinset, hdedup, length_map, Int.card_Icc, hcard]
    · intro hrange
      have hle := Finset.card_le_card hrange
      rw [card_toFinset, Int.card_Icc, hcard] at hle
      exact (dedup_sublist _).eq_of_length_le (by simpa using hle)
  have hbetween x : between l.toInt u.toInt (some x) = some (decide (x.toInt ∈ Finset.Icc l.toInt u.toInt)) :=
    ext (by simp [between]) (by simp [between, imp_iff_not_or])
  have honeOf x : oneOf vals (some x) = some (decide (x.toInt ∈ (vals.map (·.toInt)).toFinset)) :=
    ext (by simp [oneOf, @eq_comm _ x.toInt]) (by simp [oneOf, @eq_comm _ x.toInt])
  have hnull : between l.toInt u.toInt none = oneOf vals none :=
    ext (by simp [between, oneOf]) (by simp [between, oneOf, ne_nil_of_mem hl])
  simp only [hnodup, Option.forall, hnull, hbetween, honeOf, Option.some.injEq, decide_eq_decide, true_and]
  constructor
  · intro hx i hi
    have hrange := Finset.mem_Icc.1 hi
    have hlo := l.le_toInt
    have hhi := u.toInt_lt
    have hi' : (BitVec.ofInt 64 i).toInt = i := BitVec.toInt_ofInt_eq_self (by decide) (by omega) (by omega)
    exact hi' ▸ (hx (BitVec.ofInt 64 i)).1 (hi'.symm ▸ hi)
  · exact fun hrange x => ⟨fun hx => hrange hx, fun hx => hsub hx⟩

theorem between_eq_oneOf_pair : canonicalizeOneOf [2, 1] = some (1, 2) ∧ ∀ x, between 1 2 x = oneOf [2, 1] x :=
  ⟨by decide, (@between_eq_oneOf_iff [2, 1] _ _ (by decide)).2 (by decide)⟩

theorem between_repeated : canonicalizeOneOf [1, 1, 3] = some (1, 3) ∧ between 1 3 (some 2) = some true ∧
    oneOf [1, 1, 3] (some 2) = some false := by
  decide

end GengoDB.BoolOps
