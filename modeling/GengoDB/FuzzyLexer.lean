/-
Lexing a text whose truth degrees are blanked. A token is found by looking at
its own bytes and a little ahead: at what stops it, at the dots after a name,
at the byte after a dot. A degree starts with a brace, which stops what a blank
stops, so with degrees blanked (`Masked`) all other tokens stay what they are
(`lexToken_local`), and the blanks become part of a gap.

One thing is remembered from token to token: whether the last one was a
string, for a `@` that follows. `Lexes.strips` therefore asks that no `@`
follows a degree.
-/
import GengoDB.Fallible
import GengoDB.FuzzyTurtle
import Mathlib.Data.List.Chain

namespace GengoDB.FuzzyTurtle

open Fallible Chars List Nat

/-! ## Blanked degrees -/

/-- A degree as the parser leaves it in the copy. -/
def blanked (d : Bytes) : Bytes := d.map fun c => if c = newline then c else 32

/-- `s'` is `s` with parts that start with a brace blanked. -/
inductive Masked : Bytes → Bytes → Prop where
  | nil : Masked [] []
  | cons (c : Codec.Byte) {s s'} (h : Masked s s') : Masked (c :: s) (c :: s')
  | degree (d : Bytes) {s s'} (h : Masked s s') : Masked (ch '{' :: d ++ s) (32 :: blanked d ++ s')

variable {c : Codec.Byte}

namespace Masked

variable {s s' : Bytes} {n : Nat}

theorem refl : ∀ s : Bytes, Masked s s
  | [] => .nil
  | c :: s => .cons c (refl s)

theorem append (t : Bytes) (h : Masked s s') : Masked (t ++ s) (t ++ s') := by
  induction t with
  | nil => exact h
  | cons c t ih => exact .cons c ih

/-- The first `n` bytes stay, and the text after them is masked. -/
theorem rejoin (h : Masked (s.drop n) s') : Masked s (s.take n ++ s') := by
  have hmask := h.append (s.take n)
  rwa [take_append_drop] at hmask

/-- What both texts start with. -/
theorem head? (h : Masked s s') : s'.head? = s.head? ∨ s.head? = some (ch '{') ∧ s'.head? = some 32 := by
  cases h with
  | nil => exact .inl rfl
  | cons => exact .inl rfl
  | degree => exact .inr ⟨rfl, rfl⟩

theorem head?_isDigit (h : Masked s s') : s'.head?.any isDigit = s.head?.any isDigit := by
  rcases h.head? with heq | ⟨hs, hs'⟩
  · rw [heq]
  · simp [hs, hs', isDigit, ch]

/-- What is so for the next byte, and for a blank. -/
theorem next {P : Codec.Byte → Prop} (h : Masked s s') (hblank : P 32) (hs : ∀ c ∈ s.head?, P c) : ∀ c ∈ s'.head?, P c := by
  rcases h.head? with heq | ⟨-, heq⟩
  · rwa [heq]
  · rw [heq]
    rintro c ⟨⟩
    exact hblank

theorem take_two (h : Masked s s') (hbrace : c ≠ ch '{') (hblank : c ≠ 32) :
    s'.take 2 = [c, c] ↔ s.take 2 = [c, c] := by
  cases h with
  | nil => exact Iff.rfl
  | cons d h =>
    cases h with
    | nil => exact Iff.rfl
    | cons e h => exact Iff.rfl
    | degree _ h => simp [hbrace.symm, hblank.symm]
  | degree d h =>
    cases d <;> simp [hbrace.symm, hblank.symm]

/-- Up to the first brace nothing changes. -/
theorem split (h : Masked s s') (hn : ch '{' ∉ s.take n) : s'.take n = s.take n ∧ Masked (s.drop n) (s'.drop n) := by
  induction n generalizing s s' with
  | zero => exact ⟨rfl, h⟩
  | succ n ih =>
    cases h with
    | nil => exact ⟨rfl, .nil⟩
    | cons c h =>
      simp only [take_succ_cons, mem_cons, not_or, drop_succ_cons] at hn ⊢
      obtain ⟨htake, hdrop⟩ := ih h hn.2
      exact ⟨by rw [htake], hdrop⟩
    | degree d h => simp at hn

end Masked

/-! ## Numbers -/

/-- An extent that ends before a brace, and before a blank in its place. -/
def Plain (f : Bytes → Nat) : Prop := ∀ s s', Masked s s' → f s' = f s ∧ ch '{' ∉ s.take (f s)

variable {p : Codec.Byte → Bool}

namespace Plain

variable {f g : Bytes → Nat}

theorem of_run (hbrace : p (ch '{') = false) (hblank : p 32 = false) : Plain (run p) := by
  intro s s' h
  induction h with
  | nil => exact ⟨rfl, by simp⟩
  | cons c h ih =>
    simp only [run, ih.1, true_and]
    split
    · next hc =>
      rw [take_succ_cons, mem_cons, not_or]
      refine ⟨?_, ih.2⟩
      rintro rfl
      rw [hbrace] at hc
      cases hc
    · simp
  | degree d h ih => simp [run, hbrace, hblank]

/-- One extent after the other. -/
theorem seq (hf : Plain f) (hg : Plain g) : Plain fun s => f s + g (s.drop (f s)) := by
  intro s s' h
  obtain ⟨heq, hnot⟩ := hf s s' h
  obtain ⟨-, hdrop⟩ := h.split hnot
  obtain ⟨heq', hnot'⟩ := hg _ _ hdrop
  refine ⟨by simp only [heq, heq'], ?_⟩
  rw [take_add, mem_append, not_or]
  exact ⟨hnot, hnot'⟩

theorem sign : Plain signLength := by
  intro s s' h
  cases h with
  | nil => exact ⟨rfl, by simp⟩
  | cons c h =>
    by_cases hc : c = ch '{'
    · subst hc
      simp [signLength, ch]
    · simp only [signLength]
      split
      · simpa using Ne.symm hc
      · simp
  | degree d h => exact ⟨rfl, by simp [signLength, ch]⟩

theorem digits : Plain (run isDigit) := of_run (by decide) (by decide)

/-- A first byte that lets the extent go on. -/
theorem cons {p : Codec.Byte → Bytes → Bool} (hf : Plain f) (hbrace : ∀ s, p (ch '{') s = false)
    (hblank : ∀ s, p 32 s = false) (hahead : ∀ c s s', Masked s s' → p c s' = p c s) :
    Plain fun | [] => 0 | c :: s => if p c s then f s + 1 else 0 := by
  intro s s' h
  cases h with
  | nil => exact ⟨rfl, by simp⟩
  | @cons c s s' h =>
    obtain ⟨heq, hnot⟩ := hf s s' h
    simp only [heq, hahead c s s' h, true_and]
    split
    · next hc =>
      rw [take_succ_cons, mem_cons, not_or]
      refine ⟨?_, hnot⟩
      rintro rfl
      rw [hbrace] at hc
      cases hc
    · simp
  | degree d h => simp [hbrace, hblank]

theorem fraction : Plain fractionLength := by
  have hplain := digits.cons (p := fun c s => c = ch '.' && s.head?.any isDigit) (fun _ => by simp [ch])
    (fun _ => by simp [ch]) fun c s s' h => by simp only [h.head?_isDigit]
  intro s s' h
  have heq s : fractionLength s = (match s with
      | [] => 0
      | c :: s => if c = ch '.' && s.head?.any isDigit then run isDigit s + 1 else 0) := by
    rcases s with _ | ⟨c, _ | ⟨d, s⟩⟩ <;> simp [fractionLength]
  rw [heq, heq]
  exact hplain s s' h

theorem exponent : Plain exponentLength := by
  have hplain := (sign.seq digits).cons (p := fun c _ => c = ch 'e' || c = ch 'E') (fun _ => by simp [ch])
    (fun _ => by simp [ch]) fun _ _ _ _ => rfl
  intro s s' h
  have heq s : exponentLength s = (match s with
      | [] => 0
      | c :: s => if c = ch 'e' || c = ch 'E' then signLength s + run isDigit (s.drop (signLength s)) + 1 else 0) := by
    rcases s with _ | ⟨c, s⟩
    · rfl
    · simp only [exponentLength]
      split <;> omega
  rw [heq, heq]
  exact hplain s s' h

theorem number : Plain numberLength := by
  have h := ((sign.seq digits).seq fraction).seq exponent
  exact h

end Plain

/-! ## Tokens with another text after them -/

/-- A token of this extent stays one when the degrees after it are blanked. -/
def Local (f : Bytes → Nat) : Prop := ∀ s r, Masked (s.drop (f s)) r → f (s.take (f s) ++ r) = f s

theorem Plain.toLocal {f : Bytes → Nat} (h : Plain f) : Local f := by
  exact fun s r hr => (h _ _ hr.rejoin).1

/-! ### Names -/

theorem nameScan_escape (c : Codec.Byte) (s : Bytes) : nameScan (backslash :: c :: s) = nameScan s + 2 := by
  rfl

variable {c quote : Codec.Byte} {t s : Bytes} {n line : Nat} {long : Bool}

theorem nameScan_cons (s : Bytes) (hc : ¬ isNameDelimiter c) (hb : c ≠ backslash) :
    nameScan (c :: s) = nameScan s + 1 := by
  rw [nameScan.eq_def]
  simp only [if_neg hc, if_neg hb]

theorem nameScan_of_delimiter (ht : ∀ c ∈ t.head?, isNameDelimiter c) : nameScan t = 0 := by
  cases t with
  | nil => rfl
  | cons c t =>
    rw [nameScan.eq_def]
    exact if_pos (ht c rfl)

/-- The scan of a name goes on to a delimiter. -/
theorem nameScan_take (h : nameScan s ≤ s.length) (ht : ∀ c ∈ t.head?, isNameDelimiter c) :
    nameScan (s.take (nameScan s) ++ t) = nameScan s := by
  fun_induction nameScan s with
  | case1 | case2 c s hc => simpa using nameScan_of_delimiter ht
  | case3 => simp at h
  | case4 x s hc ih =>
    have ih := ih (by simpa using h)
    simp only [take_succ_cons, cons_append, nameScan_escape, ih]
  | case5 c s hc hb ih =>
    have ih := ih (by simpa using h)
    simp only [take_succ_cons, cons_append, nameScan_cons _ hc hb, ih]

theorem delimiter_of_nameScan (h : nameScan s ≤ s.length) : ∀ c ∈ (s.drop (nameScan s)).head?, isNameDelimiter c := by
  fun_induction nameScan s with
  | case1 => simp
  | case2 c s hc => simpa using hc
  | case3 => simp at h
  | case4 x s hc ih | case5 c s hc hb ih => simpa using ih (by simpa using h)

theorem trimDots_congr {s' : Bytes} (h : ∀ i < n, s'.getD i 0 = s.getD i 0) : trimDots s' n = trimDots s n := by
  fun_induction trimDots s n with
  | case1 n hdots ih =>
    rw [trimDots, h _ (by omega), h _ (by omega), if_pos hdots]
    exact ih fun i hi => h i (by omega)
  | case2 n hdots => rw [trimDots, h _ (by omega), h _ (by omega), if_neg hdots]
  | case3 n hn =>
    rcases n with _ | _ | n
    · rfl
    · rfl
    · exact absurd rfl (hn n)

/-- What is trimmed are dots. -/
theorem trimDots_spec (s : Bytes) (n : Nat) :
    trimDots s n ≤ n ∧ ∀ i, trimDots s n ≤ i → i < n → s.getD i 0 = ch '.' := by
  fun_induction trimDots s n with
  | case1 n hdots ih =>
    refine ⟨by omega, fun i hi hlt => ?_⟩
    by_cases heq : i = n + 1
    · subst heq
      simp only [Bool.and_eq_true, decide_eq_true_eq] at hdots
      exact hdots.1
    · exact ih.2 i hi (by omega)
  | case2 n hdots | case3 n hn => exact ⟨le_refl _, fun i hi hlt => by omega⟩

theorem nameLength_local : Local nameLength := by
  intro s r hr
  by_cases hlen : s.length < nameLength s
  · -- A backslash was the last byte: nothing follows.
    rw [drop_eq_nil_of_le (by omega)] at hr
    cases hr
    rw [take_of_length_le (by omega), append_nil]
  · obtain ⟨hle, hdots⟩ : nameLength s ≤ nameScan s ∧ ∀ i, nameLength s ≤ i → i < nameScan s → s.getD i 0 = ch '.' :=
      trimDots_spec s (nameScan s)
    have hscan : nameScan s ≤ s.length := by
      by_contra hgt
      have hdot := hdots (nameScan s - 1) (by omega) (by omega)
      rw [getD_eq_getElem?_getD, getElem?_eq_none (by omega)] at hdot
      exact absurd hdot (by decide)
    -- What was scanned is the name and the dots after it, which are in both texts.
    have hbrace : ch '{' ∉ (s.drop (nameLength s)).take (nameScan s - nameLength s) := by
      intro hmem
      obtain ⟨i, hi⟩ := mem_iff_getElem?.1 hmem
      rw [getElem?_take] at hi
      split at hi
      · rw [getElem?_drop] at hi
        have hdot := hdots (nameLength s + i) (le_add_right _ _) (by omega)
        rw [getD_eq_getElem?_getD, hi] at hdot
        exact absurd hdot (by decide)
      · cases hi
    obtain ⟨htake, hrest⟩ := hr.split hbrace
    have htext : s.take (nameLength s) ++ r = s.take (nameScan s) ++ r.drop (nameScan s - nameLength s) := by
      have hsum : nameScan s = nameLength s + (nameScan s - nameLength s) := by omega
      have hdots : s.take (nameScan s) = s.take (nameLength s) ++ r.take (nameScan s - nameLength s) := by
        rw [htake, ← take_add, ← hsum]
      rw [hdots, append_assoc, take_append_drop]
    have hscan' : nameScan (s.take (nameLength s) ++ r) = nameScan s := by
      rw [htext]
      refine nameScan_take hscan (hrest.next (by decide) ?_)
      rw [drop_drop, Nat.add_sub_cancel' hle]
      exact delimiter_of_nameScan hscan
    show trimDots (s.take (nameLength s) ++ r) (nameScan (s.take (nameLength s) ++ r)) = _
    rw [hscan']
    refine trimDots_congr fun i hi => ?_
    rw [htext, getD_eq_getElem?_getD, getElem?_append_left (by rw [length_take]; omega),
      getElem?_take_of_lt hi, getD_eq_getElem?_getD]

/-! ### IRIs and strings -/

theorem iriLength_take (h : iriLength s = some n) (t : Bytes) : iriLength (s.take n ++ t) = some n := by
  fun_induction iriLength s generalizing n with
  | case1 => cases h
  | case2 s =>
    cases h
    rw [take_succ_cons, cons_append, iriLength.eq_def]
    rfl
  | case3 => cases h
  | case4 => cases h
  | case5 x s hc hn ih =>
    obtain ⟨m, hm, rfl⟩ := Option.map_eq_some_iff.1 h
    rw [iriLength.eq_def]
    simp [hc, hn, ih hm]
  | case6 c s hc hn hb ih =>
    obtain ⟨m, hm, rfl⟩ := Option.map_eq_some_iff.1 h
    rw [iriLength.eq_def]
    simp [hc, hn, hb, ih hm]

theorem stringLength_cons (hb : ¬ c = backslash) (hn : ¬ (decide (c = newline) && !long)) :
    stringLength quote long (c :: s) line = if c = quote && !long then .ok (1, if c = newline then line + 1 else line)
      else if c = quote && s.take 2 == [quote, quote] then
        .ok (run (· == quote) (s.drop 2) + 3, if c = newline then line + 1 else line)
      else (stringLength quote long s (if c = newline then line + 1 else line)).map fun (n, line) => (n + 1, line) := by
  rw [stringLength.eq_def]
  simp only [if_neg hb]
  rw [if_neg hn]

/-- No quote follows a long string, and no more than that is read of what does. -/
theorem stringLength_take {line' : Nat} (h : stringLength quote long s line = .ok (n, line')) :
    n ≤ s.length ∧ (long → 3 ≤ n ∧ ∀ c ∈ (s.drop n).head?, c ≠ quote) ∧
      ∀ t, (long → ∀ c ∈ t.head?, c ≠ quote) → stringLength quote long (s.take n ++ t) line = .ok (n, line') := by
  fun_induction stringLength quote long s line generalizing n line' with
  | case1 => cases h
  | case2 => cases h
  | case3 line x s ih =>
    obtain ⟨⟨m, line1⟩, hm, heq⟩ := map_eq_ok.1 h
    cases heq
    obtain ⟨hle, hlong, htake⟩ := ih hm
    refine ⟨by simpa using hle, fun hl => ⟨by have := hlong hl; omega, (hlong hl).2⟩, fun t ht => ?_⟩
    rw [stringLength.eq_def]
    simp [htake t ht, Except.map]
  | case4 => cases h
  | case5 c s line hb hn line1 =>
    rename_i hq
    cases h
    simp only [Bool.and_eq_true, decide_eq_true_eq, Bool.not_eq_true'] at hq
    obtain ⟨rfl, rfl⟩ := hq
    refine ⟨by simp, nofun, fun _ _ => ?_⟩
    rw [take_succ_cons, cons_append, stringLength_cons hb hn, if_pos (by simp)]
  | case6 c s line hb hn line1 hq =>
    rename_i hq3
    cases h
    simp only [Bool.and_eq_true, decide_eq_true_eq, beq_iff_eq] at hq3
    obtain ⟨rfl, hs⟩ := hq3
    obtain ⟨s2, rfl⟩ : ∃ s2, s = c :: c :: s2 := ⟨s.drop 2, by rw [← take_append_drop 2 s, hs]; simp⟩
    have hl : long := by
      cases long with
      | true => rfl
      | false => simp at hq
    refine ⟨by simpa using (run_take (t := []) nofun).1, fun _ => ⟨by omega, fun d hd => ?_⟩, fun t ht => ?_⟩
    · exact beq_eq_false_iff_ne.1 (head_of_run d hd)
    obtain ⟨-, hrun⟩ := run_take (fun d hd => beq_eq_false_iff_ne.2 (ht hl d hd))
    simp only [drop_succ_cons, drop_zero, take_succ_cons, cons_append]
    rw [stringLength_cons hb hn, if_neg hq, if_pos (by simp), drop_succ_cons, drop_succ_cons, drop_zero, hrun]
  | case7 c s line hb hn line1 hq hq3 =>
    rename_i ih
    obtain ⟨⟨m, line2⟩, hm, heq⟩ := map_eq_ok.1 h
    cases heq
    obtain ⟨hle, hlong, htake⟩ := ih hm
    refine ⟨by simpa using hle, fun hl => ⟨by have := hlong hl; omega, (hlong hl).2⟩, fun t ht => ?_⟩
    have hopen : ¬ (decide (c = quote) && (s.take m ++ t).take 2 == [quote, quote]) := by
      intro hc
      have hl : long := by
        cases long with
        | true => rfl
        | false => simp_all
      -- The closing quotes come later, so the two bytes looked at are the same.
      rw [take_append_of_le_length (by rw [length_take]; have := hlong hl; omega), take_take,
        min_eq_left (by have := hlong hl; omega)] at hc
      exact hq3 hc
    rw [take_succ_cons, cons_append, stringLength_cons hb hn, if_neg hq, if_neg hopen, htake t ht]
    rfl

/-! ### Any token -/

/-- The same token, with another text after it. -/
theorem make_local {r : Bytes} {pos startLine k : Nat} {kind : Tok} (hr : Masked (s.drop k) r) :
    make (c :: (s.take k ++ r)) pos startLine kind (k + 1) line = ((make (c :: s) pos startLine kind (k + 1) line).1,
       { (make (c :: s) pos startLine kind (k + 1) line).2 with rest := r }) := by
  simp only [make, take_succ_cons, drop_succ_cons, Prod.mk.injEq, Token.mk.injEq, Lexer.mk.injEq, and_true,
    true_and, List.cons.injEq]
  by_cases hk : k ≤ s.length
  · refine ⟨?_, ?_⟩
    · rw [take_append_of_le_length (by rw [length_take]; omega), take_take, min_self]
    · rw [drop_append_of_le_length (by rw [length_take]; omega), drop_take, Nat.sub_self, take_zero, nil_append]
  · rw [drop_eq_nil_of_le (by omega)] at hr
    cases hr
    rw [append_nil, take_of_length_le (by omega : s.length ≤ k)]
    exact ⟨take_of_length_le (by omega), drop_eq_nil_of_le (by omega)⟩

variable {last : Tok}

section
variable {fromChars : Bytes → Option (BitVec 32)} {c : Codec.Byte} {s : Bytes} {pos line : Nat} {lastKind : Tok}
  {t : Token} {L' : Lexer}

/-- What a degree is. -/
theorem lexDegree_eq_ok (h : lexDegree fromChars s pos line = .ok (t, L')) :
    ∃ k value, t = { (make (ch '{' :: s) pos line .degree (k + 1) 0).1 with degree := value } ∧
      L' = (make (ch '{' :: s) pos line .degree (k + 1) (line + newlines (s.take k))).2 ∧ k ≤ s.length := by
  unfold lexDegree at h
  obtain ⟨inner, hinner⟩ : ∃ inner, (degreeParts s).length = inner + 2 := ⟨_, rfl⟩
  simp only [hinner, Nat.add_sub_cancel] at h
  split at h
  · cases h
  next hshape =>
  simp only [Bool.or_eq_true, not_or, bne_iff_ne, not_not] at hshape
  split at h
  · cases h
  split at h
  · cases h
    have hclose : s.drop inner = ch '}' :: s.drop (inner + 1) := by
      cases hdrop : s.drop inner with
      | nil => rw [hdrop] at hshape; cases hshape.2
      | cons c rest =>
        rw [hdrop] at hshape
        cases hshape.2
        rw [← drop_drop, hdrop]
        rfl
    have hlen : inner + 1 ≤ s.length := by
      have hle := congrArg List.length hclose
      rw [length_drop, length_cons] at hle
      omega
    have hlines : newlines (s.take (inner + 1)) = newlines (s.take inner) := by
      rw [take_add, hclose]
      simp [newlines, newline, ch]
    exact ⟨inner + 1, _, rfl, by rw [hlines], hlen⟩
  · cases h

theorem numberLength_ne_zero (hnum : (isDigit c || decide (c ∈ [ch '+', ch '-', ch '.'])))
    (hdot : ¬ (decide (c = ch '.') && !(s.head?.any isDigit))) : numberLength (c :: s) ≠ 0 := by
  have hsum : signLength (c :: s) ≤ numberLength (c :: s) := by
    simp only [numberLength]
    omega
  by_cases hsign : c = ch '+' ∨ c = ch '-'
  · have hone : signLength (c :: s) = 1 := if_pos (by simpa using hsign)
    omega
  have hzero : signLength (c :: s) = 0 := if_neg (by simpa using hsign)
  have hnumber : numberLength (c :: s) = run isDigit (c :: s) + fractionLength ((c :: s).drop (run isDigit (c :: s))) +
      exponentLength ((c :: s).drop (run isDigit (c :: s) +
        fractionLength ((c :: s).drop (run isDigit (c :: s))))) := by
    simp [numberLength, hzero]
  rw [hnumber]
  by_cases hdigit : isDigit c
  · have hrun : run isDigit (c :: s) = run isDigit s + 1 := if_pos hdigit
    omega
  · have hrun : run isDigit (c :: s) = 0 := if_neg hdigit
    have hpoint : c = ch '.' := by
      simp only [hdigit, Bool.false_or, decide_eq_true_eq, mem_cons, not_mem_nil, or_false] at hnum
      rcases hnum with h | h | h
      · exact absurd (.inl h) hsign
      · exact absurd (.inr h) hsign
      · exact h
    subst hpoint
    rw [hrun, drop_zero]
    cases s with
    | nil => exact absurd rfl hdot
    | cons d s =>
      have hd : isDigit d := by simpa using hdot
      have hfraction : fractionLength (ch '.' :: d :: s) = run isDigit (d :: s) + 1 := if_pos (by simpa using hd)
      omega

section

variable (h : lexToken fromChars c s pos line lastKind = .ok (t, L'))
include h

theorem lexToken_string (hc : c = doubleQuote ∨ c = singleQuote) :
    ∃ k line', (t, L') = make (c :: s) pos line .string (k + 1) line' ∧ ∀ r, Masked (s.drop k) r →
      lexToken fromChars c (s.take k ++ r) pos line lastKind =
        .ok (make (c :: (s.take k ++ r)) pos line .string (k + 1) line') := by
  have hlt : c ≠ ch '<' := by rcases hc with rfl | rfl <;> decide
  have hquote : (decide (c = doubleQuote) || decide (c = singleQuote)) := by simpa using hc
  have hblank : c ≠ 32 := by rcases hc with rfl | rfl <;> decide
  have hbrace : c ≠ ch '{' := by rcases hc with rfl | rfl <;> decide
  unfold lexToken at h ⊢
  simp only [if_neg hlt, hquote, if_true] at h ⊢
  split at h
  · cases h
  next n line' hlen =>
  cases h
  have hlong {k : Nat} {r : Bytes} (hr : Masked (s.drop k) r) :
      ((s.take k ++ r).take 2 == [c, c]) = (s.take 2 == [c, c]) := by
    rw [Bool.eq_iff_iff, beq_iff_eq, beq_iff_eq, hr.rejoin.take_two hbrace hblank]
  cases hopen : s.take 2 == [c, c] with
  | true =>
    obtain ⟨s2, rfl⟩ : ∃ s2, s = c :: c :: s2 := ⟨s.drop 2, by rw [← take_append_drop 2 s, beq_iff_eq.1 hopen]; simp⟩
    simp only [hopen] at hlen
    refine ⟨n + 2, line', by simp only [if_true, add_comm 3]; rfl, fun r hr => ?_⟩
    have hafter : ∀ d ∈ ((c :: c :: s2).drop (n + 2)).head?, d ≠ c := by
      simpa using ((stringLength_take hlen).2.1 rfl).2
    have hnext : ∀ d ∈ r.head?, d ≠ c := hr.next hblank.symm hafter
    have htake : stringLength c true (((c :: ((c :: c :: s2).take (n + 2) ++ r))).drop 3) line = .ok (n, line') :=
      (stringLength_take hlen).2.2 _ fun _ => hnext
    simp only [hlong hr, hopen, if_true, htake, add_comm 3]
  | false =>
    simp only [hopen] at hlen
    refine ⟨n, line', by simp only [Bool.false_eq_true, if_false, add_comm 1]; rfl, fun r hr => ?_⟩
    have htake : stringLength c false ((c :: (s.take n ++ r)).drop 1) line = .ok (n, line') :=
      (stringLength_take hlen).2.2 _ nofun
    simp only [hlong hr, hopen, Bool.false_eq_true, if_false, htake, add_comm 1]

/-- **A token that is no degree** is found again with the degrees after it
blanked. -/
theorem lexToken_local (hbrace : c ≠ ch '{') : (t.kind ≠ .degree ∧ t.kind ≠ .end_) ∧
    ∃ k line', (t, L') = make (c :: s) pos line t.kind (k + 1) line' ∧ ∀ r, Masked (s.drop k) r →
      lexToken fromChars c (s.take k ++ r) pos line lastKind =
        .ok (make (c :: (s.take k ++ r)) pos line t.kind (k + 1) line') := by
  by_cases hstring : c = doubleQuote ∨ c = singleQuote
  · obtain ⟨k, line', hmake, hlocal⟩ := lexToken_string h hstring
    have hkind : t.kind = .string := congrArg (fun r => r.1.kind) hmake
    rw [hkind]
    exact ⟨⟨nofun, nofun⟩, k, line', hmake, hlocal⟩
  have hquote : (decide (c = doubleQuote) || decide (c = singleQuote)) = false := by simpa using hstring
  unfold lexToken at h ⊢
  simp only [hquote] at h ⊢
  by_cases hiri : c = ch '<'
  · simp only [if_pos hiri] at h ⊢
    cases hlen : iriLength s with
    | none =>
      rw [hlen] at h
      cases h
    | some n =>
      rw [hlen] at h
      cases h
      refine ⟨⟨nofun, nofun⟩, n, line, rfl, fun r _ => ?_⟩
      rw [iriLength_take hlen r]
  simp only [if_neg hiri] at h ⊢
  simp only [if_neg hbrace] at h ⊢
  have hahead {k : Nat} {r : Bytes} (hr : Masked (s.drop k) r) :
      (s.take k ++ r).head?.any isDigit = s.head?.any isDigit := hr.rejoin.head?_isDigit
  by_cases hcaret : c = ch '^'
  · subst hcaret
    cases s with
    | nil => cases h
    | cons d s =>
      by_cases hd : d = ch '^'
      · subst hd
        cases h
        exact ⟨⟨nofun, nofun⟩, 1, line, rfl, fun r _ => rfl⟩
      · -- A single `^` starts no token.
        have hcond : (decide (ch '^' = ch '^') && (d :: s).head? == some (ch '^')) = false := by simp [hd]
        rw [hcond] at h
        cases h
  have hnocaret (s : Bytes) : (decide (c = ch '^') && s.head? == some (ch '^')) = false := by simp [hcaret]
  simp only [hnocaret, Bool.false_eq_true, if_false] at h ⊢
  by_cases hat : c = ch '@'
  · simp only [if_pos hat] at h ⊢
    cases h
    refine ⟨by dsimp only; split <;> exact ⟨nofun, nofun⟩, run (fun c => isAlnum c || c = ch '-') s, line, rfl,
      fun r hr => ?_⟩
    have hplain : Plain (run fun c => isAlnum c || decide (c = ch '-')) := .of_run (by decide) (by decide)
    rw [hplain.toLocal s r hr]
  simp only [if_neg hat] at h ⊢
  by_cases hpunct : c ∈ [ch '[', ch ']', ch '(', ch ')', ch ',', ch ';']
  · simp only [if_pos hpunct] at h ⊢
    cases h
    exact ⟨⟨nofun, nofun⟩, 0, line, rfl, fun r _ => rfl⟩
  simp only [if_neg hpunct] at h ⊢
  by_cases hclose : c = ch '}'
  · rw [if_pos hclose] at h
    cases h
  simp only [if_neg hclose] at h ⊢
  by_cases hdot : (decide (c = ch '.') && !(s.head?.any isDigit))
  · rw [if_pos hdot] at h
    cases h
    refine ⟨⟨nofun, nofun⟩, 0, line, rfl, fun r hr => ?_⟩
    rw [hahead hr, if_pos hdot]
  rw [if_neg hdot] at h
  by_cases hnum : (isDigit c || decide (c ∈ [ch '+', ch '-', ch '.']))
  · rw [if_pos hnum] at h
    cases h
    obtain ⟨k, hk⟩ := exists_eq_add_one_of_ne_zero (numberLength_ne_zero hnum hdot)
    refine ⟨⟨nofun, nofun⟩, k, line, by rw [hk]; rfl, fun r hr => ?_⟩
    have hlocal := Plain.number.toLocal (c :: s) r (by rwa [hk])
    rw [hk, take_succ_cons, cons_append] at hlocal
    rw [hahead hr, if_neg hdot, if_pos hnum, hlocal]
  rw [if_neg hnum] at h
  by_cases hname : nameLength (c :: s) = 0
  · rw [if_pos hname] at h
    cases h
  rw [if_neg hname] at h
  cases h
  obtain ⟨k, hk⟩ := exists_eq_add_one_of_ne_zero hname
  refine ⟨⟨nofun, nofun⟩, k, line, by rw [hk]; rfl, fun r hr => ?_⟩
  have hlocal := nameLength_local (c :: s) r (by rwa [hk])
  rw [hk, take_succ_cons, cons_append] at hlocal
  rw [hahead hr, if_neg hdot, if_neg hnum, hlocal, if_neg (succ_ne_zero k)]

/-- Only a `@` depends on the token before. -/
theorem lexToken_lastKind (hat : t.kind = .directive ∨ t.kind = .langTag → lastKind = last) :
    lexToken fromChars c s pos line last = .ok (t, L') := by
  by_cases hc : c = ch '@'
  · subst hc
    cases h
    rw [← hat (by dsimp only; split <;> simp)]
    rfl
  · unfold lexToken at h ⊢
    simp only [if_neg hc] at h ⊢
    exact h

end

end

/-! ## Gaps -/

theorem gap_blanked (d t : Bytes) : gap false (blanked d ++ t) = d.length + gap false t := by
  induction d with
  | nil => simp [blanked]
  | cons c d ih =>
    have hspace : isSpace (if c = newline then c else 32) := by
      split
      · next h =>
        subst h
        decide
      · decide
    simp only [blanked, map_cons, cons_append, gap, hspace, if_true]
    rw [← blanked, length_cons]
    omega

theorem newlines_blanked (d : Bytes) : newlines (blanked d) = newlines d := by
  induction d with
  | nil => rfl
  | cons c d ih =>
    by_cases hc : c = newline
    · simp only [newlines, blanked, map_cons, if_pos hc, count_cons] at ih ⊢
      rw [ih]
    · have hblank : 32 ≠ newline := by decide
      simp only [newlines, blanked, map_cons, if_neg hc, count_cons, beq_eq_false_iff_ne.2 hc,
        beq_eq_false_iff_ne.2 hblank] at ih ⊢
      rw [ih]

/-! ## Whole texts -/

/-- The tokens of a text, up to its end. -/
inductive Lexes (fromChars : Bytes → Option (BitVec 32)) : Lexer → List Token → Prop where
  | done {L t L'} (h : Lexer.next fromChars L = .ok (t, L')) (hend : t.kind = .end_) : Lexes fromChars L []
  | token {L t L' ts} (h : Lexer.next fromChars L = .ok (t, L')) (hkind : t.kind ≠ .end_) (hrest : Lexes fromChars L' ts) :
    Lexes fromChars L (t :: ts)

/-- The copy after these tokens: the degrees are blanked. -/
def blankAll (out : Bytes) (toks : List Token) : Bytes :=
  toks.foldl (fun out t => if t.kind = .degree then blank out t.begin_ t.text.length else out) out

section
variable {fromChars : Bytes → Option (BitVec 32)} {L L' : Lexer} {t : Token} {toks : List Token}

/-- A text that starts with a gap. -/
theorem next_gap {g r : Bytes} (hg : gap false (g ++ r) = g.length + gap false r) (hrest : L.rest = g ++ r) :
    L.next fromChars =
      Lexer.next fromChars { L with rest := r, pos := L.pos + g.length, line := L.line + newlines g } := by
  have htake : (g ++ r).take (g.length + gap false r) = g ++ r.take (gap false r) := by
    rw [take_append]
    simp
  unfold Lexer.next
  simp only [hrest, hg, htake, newlines_append, drop_append, drop_eq_nil_of_le (Nat.le_add_right _ _),
    Nat.add_sub_cancel_left, nil_append, Nat.add_assoc]

/-- The gap before a token, and the token. -/
theorem next_cases (h : L.next fromChars = .ok (t, L')) (hkind : t.kind ≠ .end_) :
    ∃ g c s, L.rest = g ++ c :: s ∧ (∀ r, gap false (g ++ r) = g.length + gap false r) ∧ (∀ s, gap false (c :: s) = 0) ∧
      lexToken fromChars c s (L.pos + g.length) (L.line + newlines g) L.lastKind = .ok (t, L') := by
  unfold Lexer.next at h
  dsimp only at h
  split at h
  · cases h
    exact absurd rfl hkind
  · next c s hdrop =>
    have hlt : gap false L.rest < L.rest.length := by
      have hlen := congrArg List.length hdrop
      rw [length_drop, length_cons] at hlen
      omega
    have hlen : (L.rest.take (gap false L.rest)).length = gap false L.rest := by
      rw [length_take]
      omega
    have hrest : L.rest = L.rest.take (gap false L.rest) ++ c :: s := by rw [← hdrop, take_append_drop]
    refine ⟨L.rest.take (gap false L.rest), c, s, hrest, fun r => ?_, ?_, ?_⟩
    · rw [hlen]
      exact gap_append hlt r
    · have hstop : gap false (c :: s) = 0 := by
        have hgap := gap_append hlt (c :: s)
        rw [← hrest] at hgap
        omega
      intro s'
      unfold gap at hstop ⊢
      split at hstop
      · omega
      · split at hstop
        · omega
        · next h1 h2 => rw [if_neg h1, if_neg h2]
    · rw [hlen]
      exact h

theorem blank_middle {pre d post : Bytes} {first : Nat} (hfirst : pre.length = first) :
    blank (pre ++ (d ++ post)) first d.length = pre ++ (blanked d ++ post) := by
  subst hfirst
  refine ext_getElem? fun i => ?_
  have hlen : (blanked d).length = d.length := length_map ..
  rw [blank, getElem?_mapIdx]
  rcases lt_or_ge i pre.length with hlt | hge
  · rw [getElem?_append_left hlt, getElem?_append_left hlt]
    simp [not_le.2 hlt]
  · rw [getElem?_append_right hge, getElem?_append_right hge]
    rcases lt_or_ge (i - pre.length) d.length with hlt | hge'
    · rw [getElem?_append_left hlt, getElem?_append_left (by rwa [hlen]), blanked, getElem?_map]
      refine congrFun (congrArg Option.map (funext fun c => ?_)) _
      have hin : i < pre.length + d.length := by omega
      by_cases hc : c = newline <;> simp [hge, hin]
    · rw [getElem?_append_right hge', getElem?_append_right (by rwa [hlen]), hlen]
      have hout : ¬ i < pre.length + d.length := by omega
      simp [hout]

theorem Lexes.congr {L1 L2 : Lexer} (h : Lexes fromChars L1 toks) (hnext : L2.next fromChars = L1.next fromChars) :
    Lexes fromChars L2 toks := by
  cases h with
  | done h hend => exact .done (hnext.trans h) hend
  | token h hkind hrest => exact .token (hnext.trans h) hkind hrest

theorem kind_of_lexToken {s : Bytes} {pos line : Nat} {lastKind : Tok}
    (h : lexToken fromChars c s pos line lastKind = .ok (t, L')) : t.kind ≠ .end_ := by
  by_cases hbrace : c = ch '{'
  · subst hbrace
    obtain ⟨k, value, rfl, -⟩ := lexDegree_eq_ok h
    nofun
  · exact (lexToken_local h hbrace).1.2

theorem drop_of_end (h : L.next fromChars = .ok (t, L')) (hend : t.kind = .end_) :
    L.rest.drop (gap false L.rest) = [] := by
  unfold Lexer.next at h
  dsimp only at h
  split at h
  · assumption
  · exact absurd hend (kind_of_lexToken h)

theorem next_of_drop (h : L.rest.drop (gap false L.rest) = []) :
    ∃ t L', L.next fromChars = .ok (t, L') ∧ t.kind = .end_ := by
  unfold Lexer.next
  dsimp only
  rw [h]
  exact ⟨_, _, rfl, rfl⟩

/-- Kinds that a `@` can have. -/
def Tok.isAt (k : Tok) : Prop := k = .directive ∨ k = .langTag

/-- With the degrees blanked, and `last` for the kind of the last token, the
text has the other tokens. -/
def Strips (fromChars : Bytes → Option (BitVec 32)) (L : Lexer) (toks : List Token) (last : Tok) : Prop :=
  ∃ r, Masked L.rest r ∧ (∀ pre, pre.length = L.pos → blankAll (pre ++ L.rest) toks = pre ++ r) ∧
    Lexes fromChars { L with rest := r, lastKind := last } (toks.filter fun t => t.kind ≠ .degree)

theorem Strips.done (h : L.next fromChars = .ok (t, L')) (hend : t.kind = .end_) : Strips fromChars L [] last := by
  have hdrop := drop_of_end h hend
  obtain ⟨t, L', hnext, hkind⟩ := next_of_drop (L := { L with lastKind := last }) hdrop
  exact ⟨L.rest, .refl _, fun _ _ => rfl, .done hnext hkind⟩

/-- A degree becomes part of the gap. -/
theorem Strips.degree {g d s : Bytes} (hL : L.rest = g ++ ((ch '{' :: d) ++ s))
    (hgap : ∀ r, gap false (g ++ r) = g.length + gap false r) (hkind : t.kind = .degree)
    (hbegin : t.begin_ = L.pos + g.length) (htext : t.text = ch '{' :: d)
    (h : Strips fromChars ⟨s, L.pos + g.length + (d.length + 1), L.line + newlines g + newlines d, .degree⟩ toks last) :
    Strips fromChars L (t :: toks) last := by
  obtain ⟨r, hmask, hblank, hlexes⟩ := h
  have hlen : (blanked (ch '{' :: d)).length = d.length + 1 := by rw [blanked, length_map, length_cons]
  refine ⟨g ++ (blanked (ch '{' :: d) ++ r), ?_, fun pre hpre => ?_, ?_⟩
  · rw [hL]
    exact (Masked.degree _ hmask).append g
  · have hmiddle : blankAll (pre ++ L.rest) (t :: toks) =
        blankAll ((pre ++ g ++ blanked (ch '{' :: d)) ++ s) toks := by
      rw [blankAll, foldl_cons, if_pos hkind, hbegin, htext, hL, ← append_assoc,
        blank_middle (by rw [length_append, hpre]), ← append_assoc]
      rfl
    rw [hmiddle, hblank _ (by simp only [length_append, hlen, hpre])]
    simp
  · rw [filter_cons_of_neg (by simp [hkind])]
    refine hlexes.congr ?_
    have hlines : newlines (ch '{' :: d) = newlines d := count_cons_of_ne (by decide)
    have hgap' : gap false ((g ++ blanked (ch '{' :: d)) ++ r) = (g ++ blanked (ch '{' :: d)).length + gap false r := by
      rw [append_assoc, hgap, gap_blanked, length_append, length_cons]
      omega
    have hpos : L.pos + (g ++ blanked (ch '{' :: d)).length = L.pos + g.length + (d.length + 1) := by
      rw [length_append, hlen, add_assoc]
    have hline : L.line + newlines (g ++ blanked (ch '{' :: d)) = L.line + newlines g + newlines d := by
      rw [newlines_append, newlines_blanked, hlines, add_assoc]
    rw [next_gap hgap' (append_assoc ..).symm]
    simp only [hpos, hline]

theorem Lexes.eq_nil (h : Lexes fromChars L toks) (hrest : L.rest = []) : toks = [] := by
  cases h with
  | done => rfl
  | token hnext hkind _ =>
    have hdrop : L.rest.drop (gap false L.rest) = [] := by rw [hrest]; rfl
    obtain ⟨t, L', hnext', hkind'⟩ : ∃ t L', L.next fromChars = .ok (t, L') ∧ t.kind = .end_ := next_of_drop hdrop
    cases hnext.symm.trans hnext'
    exact absurd hkind' hkind

/-- Any other token stays. -/
theorem Strips.token {g s : Bytes} (hL : L.rest = g ++ c :: s)
    (hgap : ∀ r, gap false (g ++ r) = g.length + gap false r) (hstop : ∀ s, gap false (c :: s) = 0)
    (hlex : lexToken fromChars c s (L.pos + g.length) (L.line + newlines g) L.lastKind = .ok (t, L'))
    (hbrace : c ≠ ch '{') (hlast : t.kind.isAt → L.lastKind = last) (hrest : Lexes fromChars L' toks)
    (h : L'.lastKind = t.kind → Strips fromChars L' toks t.kind) : Strips fromChars L (t :: toks) last := by
  obtain ⟨⟨hdegree, hend⟩, k, line', hmake, hlocal⟩ := lexToken_local hlex hbrace
  obtain ⟨htok, rfl⟩ := Prod.mk.inj hmake
  obtain ⟨r, hmask, hblank, hlexes⟩ := h rfl
  have hmask : Masked (s.drop k) r := hmask
  have hsplit : L.rest = g ++ c :: (s.take k ++ s.drop k) := by rw [hL, take_append_drop]
  refine ⟨g ++ c :: (s.take k ++ r), ?_, fun pre hpre => ?_, ?_⟩
  · rw [hsplit]
    exact (Masked.cons c (hmask.append _)).append g
  · have hskip : blankAll (pre ++ L.rest) (t :: toks) = blankAll (pre ++ L.rest) toks := by
      rw [blankAll, foldl_cons, if_neg hdegree]
      rfl
    rw [hskip]
    by_cases hk : k ≤ s.length
    · have hlen : (pre ++ (g ++ c :: s.take k)).length = L.pos + g.length + (k + 1) := by
        simp only [length_append, length_cons, length_take]
        omega
      have hts := hblank _ hlen
      have hassoc u : pre ++ (g ++ c :: s.take k) ++ u = pre ++ (g ++ c :: (s.take k ++ u)) := by
        simp
      rw [hassoc, hassoc] at hts
      rw [hsplit]
      exact hts
    · -- The last token ended in a backslash.
      have hnil : s.drop k = [] := drop_eq_nil_of_le (by omega)
      cases hrest.eq_nil hnil
      rw [hnil] at hmask hsplit
      cases hmask
      rw [hsplit]
      rfl
  · rw [filter_cons_of_pos (by simpa using hdegree)]
    have hsame : lexToken fromChars c (s.take k ++ r) (L.pos + g.length) (L.line + newlines g) last =
        .ok (t, { (make (c :: s) (L.pos + g.length) (L.line + newlines g) t.kind (k + 1) line').2 with rest := r }) := by
      have hr := hlocal r hmask
      rw [make_local hmask] at hr
      have htok : (make (c :: s) (L.pos + g.length) (L.line + newlines g) t.kind (k + 1) line').1 = t := htok.symm
      rw [htok] at hr
      exact lexToken_lastKind hr hlast
    have hnext : Lexer.next fromChars { L with rest := g ++ c :: (s.take k ++ r), lastKind := last } =
        .ok (t, { (make (c :: s) (L.pos + g.length) (L.line + newlines g) t.kind (k + 1) line').2 with rest := r }) := by
      rw [next_gap (hgap _) rfl]
      simp only [Lexer.next, hstop]
      exact hsame
    exact .token hnext hend hlexes

/-- **A text with its degrees blanked** has the same tokens but for the
degrees, if no `@` follows one. -/
theorem Lexes.strips (h : Lexes fromChars L toks) (hlast : ∀ t ∈ toks.head?, t.kind.isAt → L.lastKind = last)
    (hchain : toks.IsChain fun a b => a.kind = .degree → ¬ b.kind.isAt) : Strips fromChars L toks last := by
  induction h generalizing last with
  | done h hend => exact .done h hend
  | @token L t L' ts h hkind hrest ih =>
    obtain ⟨g, c, s, hL, hgap, hstop, hlex⟩ := next_cases h hkind
    obtain ⟨hafter, hrestChain⟩ := isChain_cons.1 hchain
    by_cases hbrace : c = ch '{'
    · subst hbrace
      obtain ⟨k, value, rfl, rfl, hk⟩ := lexDegree_eq_ok hlex
      have hsplit : L.rest = g ++ ((ch '{' :: s.take k) ++ s.drop k) := by
        rw [hL, cons_append, take_append_drop]
      refine .degree hsplit hgap rfl rfl rfl ?_
      rw [length_take, min_eq_left hk]
      exact ih (fun t ht hat => absurd hat (hafter t ht rfl)) hrestChain
    · refine .token hL hgap hstop hlex hbrace (hlast t rfl) hrest fun hkind => ?_
      exact ih (fun _ _ _ => hkind) hrestChain

end

/-! ## The copy -/

theorem getElem?_blank (out : Bytes) (first length i : Nat) : (blank out first length)[i]? =
      out[i]?.map fun c => if first ≤ i && i < first + length && c != newline then 32 else c :=
  getElem?_mapIdx

/-- What blanking leaves as it is. -/
structure Copy (input out : Bytes) (toks : List Token) : Prop where
  length : out.length = input.length
  newlines : ∀ i : Nat, out[i]? = some newline ↔ input[i]? = some newline
  same : ∀ i : Nat,
    (∀ t ∈ toks, t.kind = .degree → ¬ (t.begin_ ≤ i ∧ i < t.begin_ + t.text.length)) → out[i]? = input[i]?

theorem copy_blank (out : Bytes) {t : Token} (ht : t.kind = .degree) :
    Copy out (blank out t.begin_ t.text.length) [t] where
  length := length_mapIdx
  newlines i := by
    rw [getElem?_blank]
    cases out[i]? with
    | none => simp
    | some c =>
      have hblank : 32 ≠ newline := by decide
      by_cases hc : c = newline
      · simp [hc]
      · simp only [Option.map_some, Option.some.injEq, hc, iff_false]
        split
        · exact hblank
        · exact hc
  same i h := by
    have hout : ¬ (t.begin_ ≤ i ∧ i < t.begin_ + t.text.length) := h t (by simp) ht
    have hcond : (decide (t.begin_ ≤ i) && decide (i < t.begin_ + t.text.length)) = false := by simpa using hout
    rw [getElem?_blank]
    simp [hcond]

theorem copy_blankAll (input : Bytes) (toks : List Token) : Copy input (blankAll input toks) toks := by
  induction toks generalizing input with
  | nil => exact ⟨rfl, fun _ => Iff.rfl, fun _ _ => rfl⟩
  | cons t toks ih =>
    by_cases ht : t.kind = .degree
    · have hfirst := copy_blank input ht
      have hrest := ih (blank input t.begin_ t.text.length)
      rw [blankAll, foldl_cons, if_pos ht]
      refine ⟨hrest.length.trans hfirst.length, fun i => (hrest.newlines i).trans (hfirst.newlines i), fun i h => ?_⟩
      refine (hrest.same i fun u hu => h u (by simp [hu])).trans (hfirst.same i fun u hu => ?_)
      exact h u (by simp only [mem_singleton] at hu; simp [hu])
    · rw [blankAll, foldl_cons, if_neg ht]
      exact ⟨(ih input).length, (ih input).newlines, fun i h => (ih input).same i fun u hu => h u (by simp [hu])⟩

end GengoDB.FuzzyTurtle
