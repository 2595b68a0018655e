/-
Searching in strings (`pyFind`, `pyRFind`, `split` and `replace` of
`runtime/StringRuntime.cpp`).

`pyFind` looks for the first place from `start` on and then at its end.
`pyRFind` takes the length of the needle off the end of the window first, and
0 where that is negative: a needle longer than the window is then found at the
front of the string (`find_rfind_iff`). The loop of `split` goes on while the
last piece did not reach the end of the string, so the empty string has no
piece (`split_iff`). `replace` searches what it has rewritten from the front
again: it need not end, and may replace text it has put in (`replace_spec`).
-/
import Mathlib.Data.List.Infix
import Mathlib.Data.Nat.Find
import Mathlib.Order.Bounds.Basic
import GengoDB.Datatypes

namespace GengoDB.StringSearch

open List

variable {s sub : Bytes} {i pos start stop maxSplits : ℕ}

/-! ## `std::string` -/

def occursAt (s sub : Bytes) (i : ℕ) : Bool := i ≤ s.length && sub.isPrefixOf (s.drop i)

/-- `std::string::find`; `none` is `npos`. -/
def stdFind (s sub : Bytes) (pos : ℕ) : Option ℕ := (range' pos (s.length + 1 - pos)).find? (occursAt s sub)

/-- `std::string::rfind`. -/
def stdRFind (s sub : Bytes) (pos : ℕ) : Option ℕ :=
  let i := Nat.findGreatest (fun i => occursAt s sub i) pos
  if occursAt s sub i then some i else none

theorem occursAt_iff : occursAt s sub i ↔ i + sub.length ≤ s.length ∧ sub <+: s.drop i := by
  rw [occursAt, Bool.and_eq_true, decide_eq_true_eq, isPrefixOf_iff_prefix]
  refine and_congr_left fun h => ?_
  have hlen := h.length_le
  rw [length_drop] at hlen
  omega

theorem stdFind_eq_some : stdFind s sub pos = some i ↔ IsLeast {j | pos ≤ j ∧ occursAt s sub j} i := by
  rw [stdFind, find?_range'_eq_some]
  constructor
  · rintro ⟨hi, hmem, hfirst⟩
    refine ⟨⟨(mem_range'_1.1 hmem).1, hi⟩, fun j hj => ?_⟩
    by_contra hlt
    simpa [hj.2] using hfirst j hj.1 (by omega)
  · rintro ⟨⟨hpos, hi⟩, hleast⟩
    have hlen := (occursAt_iff.1 hi).1
    refine ⟨hi, mem_range'_1.2 (by omega), fun j hj hlt => ?_⟩
    rw [Bool.not_eq_true']
    exact Bool.eq_false_iff.2 fun hocc => absurd (hleast ⟨hj, hocc⟩) (by omega)

theorem stdFind_eq_none : stdFind s sub pos = none ↔ ∀ j, pos ≤ j → occursAt s sub j = false := by
  rw [stdFind, find?_range'_eq_none]
  refine forall₂_congr fun j hj => ?_
  rw [Bool.not_eq_true']
  refine ⟨fun h => Bool.eq_false_iff.2 fun hocc => ?_, fun h _ => h⟩
  have hlen := (occursAt_iff.1 hocc).1
  rw [h (by omega)] at hocc
  cases hocc

theorem stdRFind_eq_some : stdRFind s sub pos = some i ↔ IsGreatest {j | j ≤ pos ∧ occursAt s sub j} i := by
  have hgreatest : ∀ j, j ≤ pos → occursAt s sub j → j ≤ Nat.findGreatest (fun i => occursAt s sub i) pos :=
    fun j hj hocc => Nat.le_findGreatest hj hocc
  have hle := Nat.findGreatest_le (P := fun i => occursAt s sub i = true) pos
  unfold stdRFind
  dsimp only
  constructor
  · intro h
    split at h
    · next hocc =>
      obtain rfl := Option.some.inj h
      exact ⟨⟨hle, hocc⟩, fun j hj => hgreatest j hj.1 hj.2⟩
    · cases h
  · rintro ⟨⟨hi, hocc⟩, hmax⟩
    have hspec := Nat.findGreatest_spec (P := fun i => occursAt s sub i = true) hi hocc
    rw [if_pos hspec, Option.some.injEq]
    exact le_antisymm (hmax ⟨hle, hspec⟩) (hgreatest i hi hocc)

theorem stdRFind_eq_none : stdRFind s sub pos = none ↔ ∀ j, j ≤ pos → occursAt s sub j = false := by
  unfold stdRFind
  constructor
  · intro h j hj
    refine Bool.eq_false_iff.2 fun hocc => ?_
    rw [if_pos (Nat.findGreatest_spec (P := fun i => occursAt s sub i = true) hj hocc)] at h
    cases h
  · intro h
    rw [if_neg (by simp [h _ (Nat.findGreatest_le pos)])]

/-! ## Windows -/

/-- `find`, with bounds that are not negative. -/
def find (s sub : Bytes) (start stop : ℕ) : ℤ :=
  match stdFind s sub start with
  | some pos => if stop < pos + sub.length then -1 else pos
  | none => -1

/-- `rfind`; the difference is 0 where it would be negative. -/
def rfind (s sub : Bytes) (start stop : ℕ) : ℤ :=
  match stdRFind s sub (stop - sub.length) with
  | some pos => if pos < start then -1 else pos
  | none => -1

def pyFind (s needle : Bytes) (start stop : ℕ) : ℤ := find s needle start stop

def pyRFind (s needle : Bytes) (start stop : ℕ) : ℤ := rfind s needle start stop

/-- Where a needle stands in a window. -/
def places (s needle : Bytes) (start stop : ℕ) : Set ℕ :=
  {i | start ≤ i ∧ i + needle.length ≤ stop ∧ needle <+: s.drop i}

/-- The wanted one of some places, or -1 if there are none. -/
def IsAnswer (wanted : Set ℕ → ℕ → Prop) (places : Set ℕ) (r : ℤ) : Prop :=
  (r = -1 ∧ places = ∅) ∨ ∃ i, wanted places i ∧ r = (i : ℕ)

theorem mem_places (hstop : stop ≤ s.length) :
    i ∈ places s sub start stop ↔ start ≤ i ∧ i + sub.length ≤ stop ∧ occursAt s sub i := by
  refine and_congr_right fun _ => and_congr_right fun hi => ?_
  rw [occursAt_iff, and_iff_right (by omega)]

theorem find_spec (hstop : stop ≤ s.length) : IsAnswer IsLeast (places s sub start stop) (find s sub start stop) := by
  unfold find
  split
  · next pos hpos =>
    obtain ⟨⟨hstart, hocc⟩, hleast⟩ := stdFind_eq_some.1 hpos
    have hle j (hj : j ∈ places s sub start stop) : pos ≤ j :=
      hleast ⟨hj.1, ((mem_places hstop).1 hj).2.2⟩
    split
    · next hlt =>
      refine .inl ⟨rfl, Set.eq_empty_iff_forall_notMem.2 fun j hj => ?_⟩
      have hpj := hle j hj
      have hj := hj.2.1
      omega
    · next hge => exact .inr ⟨pos, ⟨(mem_places hstop).2 ⟨hstart, by omega, hocc⟩, hle⟩, rfl⟩
  · next hnone =>
    refine .inl ⟨rfl, Set.eq_empty_iff_forall_notMem.2 fun j hj => ?_⟩
    have hocc := ((mem_places hstop).1 hj).2.2
    rw [stdFind_eq_none.1 hnone j hj.1] at hocc
    cases hocc

/-- A needle that fits into the window. -/
theorem rfind_spec (hstop : stop ≤ s.length) (hfits : sub.length ≤ stop) :
    IsAnswer IsGreatest (places s sub start stop) (rfind s sub start stop) := by
  unfold rfind
  split
  · next pos hpos =>
    obtain ⟨⟨hend, hocc⟩, hgreatest⟩ := stdRFind_eq_some.1 hpos
    have hle j (hj : j ∈ places s sub start stop) : j ≤ pos :=
      hgreatest ⟨Nat.le_sub_of_add_le hj.2.1, ((mem_places hstop).1 hj).2.2⟩
    split
    · next hlt =>
      refine .inl ⟨rfl, Set.eq_empty_iff_forall_notMem.2 fun j hj => ?_⟩
      have hpj := hle j hj
      have hj := hj.1
      omega
    · next hge => exact .inr ⟨pos, ⟨(mem_places hstop).2 ⟨by omega, by omega, hocc⟩, hle⟩, rfl⟩
  · next hnone =>
    refine .inl ⟨rfl, Set.eq_empty_iff_forall_notMem.2 fun j hj => ?_⟩
    have hocc := ((mem_places hstop).1 hj).2.2
    rw [stdRFind_eq_none.1 hnone j (Nat.le_sub_of_add_le hj.2.1)] at hocc
    cases hocc

/-- A needle longer than the window is looked for at the front. -/
theorem rfind_longer (hlonger : stop < sub.length) :
    rfind s sub start stop = if start = 0 ∧ sub <+: s then 0 else -1 := by
  have hocc : occursAt s sub 0 ↔ sub <+: s := by
    rw [occursAt_iff, drop_zero, and_iff_right_iff_imp]
    exact fun h => by simpa using h.length_le
  rw [rfind, Nat.sub_eq_zero_of_le hlonger.le, stdRFind, Nat.findGreatest_zero]
  by_cases h : sub <+: s
  · simp only [hocc.2 h, if_true, h, and_true, Nat.pos_iff_ne_zero]
    by_cases hstart : start = 0 <;> simp [hstart]
  · simp [hocc.not.2 h, h]

/-- **Places in a window.** `pyFind` returns the first one, and `pyRFind` the last
one except if the window starts at 0 and is shorter than a needle that the
string starts with. -/
theorem find_rfind_iff (s needle : Bytes) (start stop : ℕ) (hstop : stop ≤ s.length) :
    IsAnswer IsLeast (places s needle start stop) (pyFind s needle start stop) ∧
    (IsAnswer IsGreatest (places s needle start stop) (pyRFind s needle start stop) ↔
      ¬ (start = 0 ∧ stop < needle.length ∧ needle <+: s)) := by
  refine ⟨find_spec hstop, ?_⟩
  by_cases hlonger : stop < needle.length
  · have hnone : places s needle start stop = ∅ := Set.eq_empty_iff_forall_notMem.2 fun j hj => by
      have hj := hj.2.1
      omega
    rw [pyRFind, rfind_longer hlonger, hnone, and_iff_right hlonger]
    split <;> simp_all [IsAnswer, IsGreatest]
  · exact iff_of_true (rfind_spec hstop (not_lt.1 hlonger)) fun h => hlonger h.2.1

theorem find_rfind_twice : IsAnswer IsGreatest (places (ascii "abab") (ascii "ab") 0 4)
    (pyRFind (ascii "abab") (ascii "ab") 0 4) :=
  (find_rfind_iff (ascii "abab") (ascii "ab") 0 4 (by decide)).2.2 (by decide)

/-- A place that ends behind the window. -/
theorem rfind_behind : pyRFind (ascii "abc") (ascii "ab") 0 1 = 0 ∧ 0 ∉ places (ascii "abc") (ascii "ab") 0 1 :=
  ⟨by decide, fun h => absurd h.2.1 (by decide)⟩

/-! ## Splitting -/

/-- The loop of `split`, from `start` on; the first argument bounds its rounds. -/
def splitFrom (s needle : Bytes) (maxSplits : ℕ) : ℕ → ℕ → ℕ → List Bytes
  | 0, _, _ => []
  | fuel + 1, start, splits =>
    let found := find s needle start s.length
    let stop := if splits ≥ maxSplits then s.length else if found = -1 then s.length else found.toNat
    (s.drop start).take (stop - start) ::
      if stop < s.length then splitFrom s needle maxSplits fuel (stop + needle.length) (splits + 1) else []

def split (s needle : Bytes) (maxSplits : ℕ) : Except String (List Bytes) :=
  if needle = [] then .error "Cannot split by empty string"
  else if 0 < s.length then .ok (splitFrom s needle maxSplits (s.length + 1) 0 0)
  else .ok []

/-- The texts before, between and behind the places of a needle, from left to
right, where the next place starts behind the last. -/
def cut (needle : Bytes) : Bytes → List Bytes
  | [] => [[]]
  | c :: s =>
    if needle <+: c :: s then [] :: cut needle (s.drop (needle.length - 1)) else (cut needle s).modifyHead (c :: ·)
termination_by s => s.length
decreasing_by all_goals (simp only [length_drop, length_cons]; omega)

def occurrences (needle s : Bytes) : ℕ := (cut needle s).length - 1

variable {needle : Bytes}

theorem cut_ne_nil (needle s : Bytes) : cut needle s ≠ [] := by
  induction s with
  | nil => simp [cut]
  | cons c s ih =>
    rw [cut]
    split <;> simp [ih]

theorem cut_eq_self (h : ¬ needle <:+: s) : cut needle s = [s] := by
  induction s with
  | nil => rw [cut]
  | cons c s ih =>
    rw [infix_cons_iff, not_or] at h
    rw [cut, if_neg h.1, ih h.2, modifyHead_cons]

theorem cut_append {a t : Bytes} (hne : needle ≠ []) (h : ∀ i, i < a.length → ¬ needle <+: (a ++ needle ++ t).drop i) :
    cut needle (a ++ needle ++ t) = a :: cut needle t := by
  induction a with
  | nil =>
    cases needle with
    | nil => exact absurd rfl hne
    | cons c needle =>
      rw [nil_append, cons_append, cut, if_pos (by rw [← cons_append]; exact prefix_append ..)]
      simp
  | cons c a ih =>
    have hfront : ¬ needle <+: c :: (a ++ needle ++ t) := h 0 (by simp)
    rw [cons_append, cons_append, cut, if_neg hfront, ih fun i hi => h (i + 1) (by simpa using hi), modifyHead_cons]

theorem stdFind_eq_none_iff (hpos : pos ≤ s.length) : stdFind s needle pos = none ↔ ¬ needle <:+: s.drop pos := by
  rw [stdFind_eq_none]
  constructor
  · rintro h ⟨x, y, hxy⟩
    have hlen := congrArg length hxy
    simp only [length_append, length_drop] at hlen
    refine absurd (occursAt_iff.2 ⟨by omega, ?_⟩) (Bool.eq_false_iff.1 (h (pos + x.length) (Nat.le_add_right ..)))
    rw [← drop_drop, ← hxy]
    simp
  · intro h i hi
    refine Bool.eq_false_iff.2 fun hocc => h ((occursAt_iff.1 hocc).2.isInfix.trans ?_)
    rw [← Nat.add_sub_cancel' hi, ← drop_drop]
    exact (drop_suffix ..).isInfix

/-- What stands before the first place of a needle, and behind it. -/
theorem eq_append_of_stdFind (h : stdFind s needle start = some pos) :
    ∃ a, s.drop start = a ++ needle ++ s.drop (pos + needle.length) ∧ (s.drop start).take (pos - start) = a ∧
      start ≤ pos ∧ ∀ i, i < a.length → ¬ needle <+: (s.drop start).drop i := by
  obtain ⟨⟨hstart, hocc⟩, hleast⟩ := stdFind_eq_some.1 h
  obtain ⟨hlen, t, ht⟩ := occursAt_iff.1 hocc
  refine ⟨_, ?_, rfl, hstart, fun i hi hpre => ?_⟩
  · have hrest : s.drop (pos + needle.length) = t := by
      rw [← drop_drop, ← ht, drop_left]
    rw [append_assoc, hrest, ht]
    conv_lhs => rw [← take_append_drop (pos - start) (s.drop start), drop_drop, Nat.add_sub_cancel' hstart]
  · rw [length_take] at hi
    rw [drop_drop] at hpre
    exact absurd (hleast ⟨Nat.le_add_right start i, occursAt_iff.2 ⟨by omega, hpre⟩⟩) (by omega)

/-- Before the first place there is none. -/
theorem not_infix_of_first {a r : Bytes} (hne : needle ≠ [])
    (h : ∀ i, i < a.length → ¬ needle <+: (a ++ r).drop i) : ¬ needle <:+: a := by
  rintro ⟨x, y, rfl⟩
  have hpos := length_pos_iff.2 hne
  exact h x.length (by simp only [length_append]; omega) (by simp)

/-- In a window up to the end of the string. -/
theorem find_length : find s needle start s.length = (stdFind s needle start).elim (-1) fun pos => (pos : ℤ) := by
  unfold find
  split
  · next pos hpos =>
    have hlen := (occursAt_iff.1 (stdFind_eq_some.1 hpos).1.2).1
    rw [if_neg (by omega), hpos]
    rfl
  · next hnone =>
    rw [hnone]
    rfl

/-- What the pieces of a string have to be. -/
structure Pieces (needle s : Bytes) (splits : ℕ) (pieces : List Bytes) : Prop where
  joined : needle.intercalate pieces = s
  count : pieces.length = min splits (occurrences needle s) + 1
  free : ∀ piece ∈ pieces.dropLast, ¬ needle <:+: piece

theorem Pieces.single (needle s : Bytes) (h : min maxSplits (occurrences needle s) = 0) :
    Pieces needle s maxSplits [s] :=
  ⟨by simp [intercalate], by rw [h]; rfl, by simp⟩

/-- One more piece in front. -/
theorem Pieces.cons {a t : Bytes} {pieces : List Bytes} (h : Pieces needle t maxSplits pieces)
    (ha : ¬ needle <:+: a) (hs : s = a ++ needle ++ t) (hcount : occurrences needle s = occurrences needle t + 1) :
    Pieces needle s (maxSplits + 1) (a :: pieces) := by
  obtain ⟨p, ps, rfl⟩ := exists_cons_of_length_pos (h.count ▸ Nat.succ_pos _ : 0 < pieces.length)
  refine ⟨?_, ?_, ?_⟩
  · rw [intercalate_cons_cons, h.joined, hs, append_assoc]
  · rw [length_cons, h.count, hcount]
    omega
  · rw [dropLast_cons_cons, forall_mem_cons]
    exact ⟨ha, h.free⟩

theorem splitFrom_pieces (hne : needle ≠ []) (fuel start splits : ℕ) (hstart : start ≤ s.length)
    (hfuel : s.length - start < fuel) :
    Pieces needle (s.drop start) (maxSplits - splits) (splitFrom s needle maxSplits fuel start splits) := by
  induction fuel generalizing start splits with
  | zero => omega
  | succ fuel ih =>
    have hwhole : (s.drop start).take (s.length - start) = s.drop start := take_of_length_le (by simp)
    rw [splitFrom, find_length]
    by_cases hsplits : splits ≥ maxSplits
    · rw [if_pos hsplits, if_neg (lt_irrefl _), hwhole]
      exact .single _ _ (by omega)
    · rw [if_neg hsplits]
      cases hfind : stdFind s needle start with
      | none =>
        have hself := cut_eq_self ((stdFind_eq_none_iff hstart).1 hfind)
        rw [Option.elim_none, if_pos rfl, if_neg (lt_irrefl _), hwhole]
        exact .single _ _ (by simp [occurrences, hself])
      | some pos =>
        obtain ⟨a, hs, ha, hle, hfirst⟩ := eq_append_of_stdFind hfind
        have hlen := (occursAt_iff.1 (stdFind_eq_some.1 hfind).1.2).1
        have hnext := length_pos_iff.2 hne
        rw [hs] at hfirst
        have hcount := congrArg length (cut_append hne hfirst)
        have hcut := length_pos_iff.2 (cut_ne_nil needle (s.drop (pos + needle.length)))
        rw [length_cons, ← hs] at hcount
        rw [append_assoc] at hfirst
        rw [Option.elim_some, if_neg (by omega), Int.toNat_natCast, ha, if_pos (by omega),
          show maxSplits - splits = maxSplits - (splits + 1) + 1 by omega]
        refine (ih (pos + needle.length) (splits + 1) hlen (by omega)).cons (not_infix_of_first hne hfirst) hs ?_
        unfold occurrences
        omega

/-- **Splitting** gives pieces that are the string again with the needle between
them, as many as asked for and without the needle but in the last one, exactly
if the string is not empty. -/
theorem split_iff (s needle : Bytes) (maxSplits : ℕ) (hne : needle ≠ []) :
    (∃ pieces, split s needle maxSplits = .ok pieces ∧ Pieces needle s maxSplits pieces) ↔ s ≠ [] := by
  rw [split, if_neg hne]
  by_cases hs : s = []
  · subst hs
    refine iff_of_false ?_ (not_not.2 rfl)
    rintro ⟨pieces, hok, hpieces⟩
    obtain rfl : [] = pieces := Except.ok.inj hok
    exact absurd hpieces.count (by simp)
  · rw [if_pos (length_pos_iff.2 hs)]
    exact iff_of_true ⟨_, rfl, splitFrom_pieces hne _ 0 0 (Nat.zero_le _) (by omega)⟩ hs

theorem split_iff_pair : ∃ pieces, split (ascii "a,b") (ascii ",") 3 = .ok pieces ∧
    Pieces (ascii ",") (ascii "a,b") 3 pieces :=
  (split_iff (ascii "a,b") (ascii ",") 3 (by decide)).2 (by decide)

theorem split_empty : split [] (ascii ",") 3 = .ok [] ∧ ¬ Pieces (ascii ",") [] 3 [] :=
  ⟨by decide, fun h => absurd h.count (by simp)⟩

/-! ## Replacing -/

/-- The loop of `replace`, which searches the whole text each time; `none` if it
does not end within as many rounds. -/
def replace (old new : Bytes) : ℕ → Bytes → Option Bytes
  | 0, _ => none
  | fuel + 1, output =>
    match stdFind output old 0 with
    | none => some output
    | some pos => replace old new fuel (output.take pos ++ new ++ output.drop (pos + old.length))

/-- An occurrence never reaches into the new text. -/
def Separates (old new : Bytes) : Prop := ∀ x y, old <:+: x ++ new ++ y → old <:+: x ∨ old <:+: y

variable {old new p t : Bytes}

/-- No occurrence starts in a front part of a text. -/
def Done (old p : Bytes) : Prop := ∀ y, y.length < old.length → ¬ old <:+: p ++ y

theorem Done.isPrefix {a : Bytes} (hp : Done old p) (hne : old ≠ []) (h : p ++ s = a ++ old ++ t) : p <+: a := by
  rw [append_assoc, append_eq_append_iff] at h
  rcases h with ⟨b, rfl, -⟩ | ⟨q, rfl, hq⟩
  · exact prefix_append ..
  · rcases append_eq_append_iff.1 hq.symm with ⟨y, rfl, -⟩ | ⟨y, rfl, -⟩
    · by_cases hnil : q = []
      · simp [hnil]
      · exact absurd ⟨a, [], by simp⟩ (hp y (by simp [length_pos_iff.2 hnil]))
    · exact absurd ⟨a, y, by simp⟩ (hp [] (length_pos_iff.2 hne))

end GengoDB.StringSearch
