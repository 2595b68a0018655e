/-
`StringRuntime::substr` (`runtime/StringRuntime.cpp`). A string is UTF-8: its
characters are lists of bytes, a first byte and continuation bytes. A scan
counts the first bytes up to a character; the second one goes on from where
the first stopped.
-/
import GengoDB.Chars

namespace GengoDB.Substring

open List

/-- A byte `10xxxxxx`. -/
def isContinuation (c : Codec.Byte) : Bool := c.val / 64 = 2

/-- The bytes of a character. -/
def IsCharacter (c : Bytes) : Prop :=
  ∃ first rest, c = first :: rest ∧ isContinuation first = false ∧ ∀ d ∈ rest, isContinuation d = true

/-- `charIndexToByteIndex` on the bytes left: how many come before the
character `charIndex`, the next one being `knownCharIndex`. -/
def charIndexToByteIndex (charIndex : ℕ) : ℕ → Bytes → ℕ
  | _, [] => 0
  | knownCharIndex, c :: s =>
    if isContinuation c then charIndexToByteIndex charIndex knownCharIndex s + 1
    else if knownCharIndex = charIndex then 0
    else charIndexToByteIndex charIndex (knownCharIndex + 1) s + 1

def substr (s : Bytes) (start len : ℤ) : Bytes :=
  let legalizedLength := max 0 len
  let legalizedFrom := max start 1
  let legalizedTo := max (start + legalizedLength) legalizedFrom
  let charFrom := (legalizedFrom - 1).toNat
  let byteFrom := charIndexToByteIndex charFrom 0 s
  let byteTo := byteFrom + charIndexToByteIndex (legalizedTo - 1).toNat charFrom (s.drop byteFrom)
  (s.drop byteFrom).take (byteTo - byteFrom)

variable {cs : List Bytes}

theorem charIndexToByteIndex_rest {k known : ℕ} {rest s : Bytes} (h : ∀ d ∈ rest, isContinuation d) :
    charIndexToByteIndex k known (rest ++ s) = rest.length + charIndexToByteIndex k known s := by
  induction rest with
  | nil => simp
  | cons d rest ih =>
    rw [cons_append, charIndexToByteIndex, if_pos (h d (by simp)), ih fun e he => h e (by simp [he]), length_cons]
    omega

/-- A scan stops at the first byte of the character. -/
theorem charIndexToByteIndex_eq {k known : ℕ} (hcs : ∀ c ∈ cs, IsCharacter c) (hk : known ≤ k) :
    charIndexToByteIndex k known cs.flatten = (cs.take (k - known)).flatten.length := by
  induction cs generalizing known with
  | nil => simp [charIndexToByteIndex]
  | cons c cs ih =>
    obtain ⟨first, rest, rfl, hfirst, hrest⟩ := hcs c (by simp)
    rw [flatten_cons, cons_append, charIndexToByteIndex, hfirst, if_neg Bool.false_ne_true]
    rcases Nat.lt_or_eq_of_le hk with hlt | rfl
    · have hsub : k - known = k - (known + 1) + 1 := by omega
      have ih := @ih (known + 1) (fun c hc => hcs c (by simp [hc])) hlt
      rw [if_neg (by omega), charIndexToByteIndex_rest hrest, ih, hsub, take_succ_cons, flatten_cons, length_append,
        length_cons]
      omega
    · simp

/-- The characters at the positions from `start` up to `stop`, counted from `i`. -/
theorem filter_zipIdx (start stop : ℤ) (i : ℕ) : ((cs.zipIdx i).filter fun x => start ≤ x.2 ∧ x.2 < stop).map Prod.fst =
      (cs.drop ((max start i).toNat - i)).take (stop - max start i).toNat := by
  induction cs generalizing i with
  | nil => simp
  | cons c cs ih =>
    have ih := ih (i + 1)
    rw [zipIdx_cons, filter_cons]
    rcases Int.lt_or_le i start with hlt | hle
    · have hdrop : (max start i).toNat - i = (max start ↑(i + 1)).toNat - (i + 1) + 1 := by omega
      have hmax : max start ↑(i + 1) = max start i := by omega
      rw [if_neg (by simp; omega), ih, hdrop, drop_succ_cons, hmax]
    · have hdrop : (max start i).toNat - i = 0 := by omega
      have hdrop' : (max start ↑(i + 1)).toNat - (i + 1) = 0 := by omega
      rw [hdrop, drop_zero]
      rw [hdrop', drop_zero] at ih
      by_cases hstop : (i : ℤ) < stop
      · have htake : (stop - max start i).toNat = (stop - max start ↑(i + 1)).toNat + 1 := by omega
        rw [if_pos (by simp; omega), map_cons, ih, htake, take_succ_cons]
      · have htake : (stop - max start i).toNat = 0 := by omega
        have htake' : (stop - max start ↑(i + 1)).toNat = 0 := by omega
        rw [if_neg (by simp; omega), ih, htake, htake', take_zero, take_zero]

/-- **Substrings** are the characters at the positions asked for that exist,
counted from 1. -/
theorem substr_eq (cs : List Bytes) (hcs : ∀ c ∈ cs, IsCharacter c) (start len : ℤ) : substr cs.flatten start len =
      (((cs.zipIdx 1).filter fun x => start ≤ x.2 ∧ x.2 < start + max len 0).map Prod.fst).flatten := by
  rw [filter_zipIdx]
  unfold substr
  dsimp only
  obtain ⟨a, ha⟩ : ∃ a, a = (max start 1 - 1).toNat := ⟨_, rfl⟩
  obtain ⟨b, hb⟩ : ∃ b, b = (max (start + max 0 len) (max start 1) - 1).toNat := ⟨_, rfl⟩
  have hfirst : (max start ((1 : ℕ) : ℤ)).toNat - 1 = a := by omega
  have hcount : (start + max len 0 - max start ((1 : ℕ) : ℤ)).toNat = b - a := by omega
  rw [← ha, ← hb, hfirst, hcount, charIndexToByteIndex_eq hcs (Nat.zero_le a), Nat.sub_zero, Nat.add_sub_cancel_left]
  have hdrop : cs.flatten.drop (cs.take a).flatten.length = (cs.drop a).flatten := by
    rw [← take_append_drop a cs, flatten_append, take_append_drop, drop_left]
  rw [hdrop, charIndexToByteIndex_eq (fun c hc => hcs c (mem_of_mem_drop hc)) (by omega)]
  rw [← take_append_drop (b - a) (cs.drop a), flatten_append, take_append_drop, take_left]

/-- From the position 0 on, two of them: `é` (two bytes) of `éa`. -/
theorem substr_eq_accent : substr [[195, 169], [97]].flatten 0 2 = [195, 169] :=
  (substr_eq [[195, 169], [97]] (forall_mem_cons.2 ⟨⟨195, [169], rfl, by decide, by decide +kernel⟩,
    forall_mem_cons.2 ⟨⟨97, [], rfl, by decide, by simp⟩, by simp⟩⟩) 0 2).trans (by decide +kernel)

end GengoDB.Substring
