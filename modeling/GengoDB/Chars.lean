/-
Bytes of a text as the scanners of the program see them: the character classes
of the C locale, how many bytes at the front satisfy a predicate (`run`), and
white space with comments (`gap`).
-/
import GengoDB.Codec
import GengoDB.Variant

namespace GengoDB.Chars

/-- A character of the basic set. -/
def ch (c : Char) : Codec.Byte := Fin.ofNat 256 c.toNat

def newline : Codec.Byte := 10
def doubleQuote : Codec.Byte := 34
def singleQuote : Codec.Byte := 39
def backslash : Codec.Byte := 92
def backtick : Codec.Byte := 96

variable (c : Codec.Byte)

def isSpace : Bool := c.val = 32 || (9 ≤ c.val && c.val ≤ 13)
def isDigit : Bool := 48 ≤ c.val && c.val ≤ 57
def isAlpha : Bool := (65 ≤ c.val && c.val ≤ 90) || (97 ≤ c.val && c.val ≤ 122)
def isAlnum : Bool := isDigit c || isAlpha c
def toUpper : Codec.Byte := if 97 ≤ c.val && c.val ≤ 122 then c - 32 else c

/-- Bytes at the front that satisfy a predicate. -/
def run (p : Codec.Byte → Bool) : Bytes → Nat
  | [] => 0
  | c :: s => if p c then run p s + 1 else 0

/-- White space, and comments up to the end of the line; the flag is set inside
a comment. -/
def gap : Bool → Bytes → Nat
  | _, [] => 0
  | true, c :: s => gap (c != newline) s + 1
  | false, c :: s => if isSpace c then gap false s + 1 else if c = ch '#' then gap true s + 1 else 0

def newlines (s : Bytes) : Nat := s.count newline

variable {p : Codec.Byte → Bool} {s : Bytes}

theorem run_take {t : Bytes} (ht : ∀ c ∈ t.head?, p c = false) :
    run p s ≤ s.length ∧ run p (s.take (run p s) ++ t) = run p s := by
  induction s with
  | nil =>
    refine ⟨le_refl _, ?_⟩
    cases t with
    | nil => rfl
    | cons c t => simp [run, ht c rfl]
  | cons c s ih =>
    by_cases hc : p c
    · simp [run, hc, ih]
    · refine ⟨by simp [run, hc], ?_⟩
      simp only [run, if_neg hc]
      cases t with
      | nil => rfl
      | cons d t => simp [run, ht d rfl]

theorem head_of_run : ∀ c ∈ (s.drop (run p s)).head?, p c = false := by
  induction s with
  | nil => simp
  | cons c s ih =>
    by_cases hc : p c
    · simpa [run, hc] using ih
    · simp [run, hc]

theorem gap_append {comment : Bool} (h : gap comment s < s.length) (t : Bytes) :
    gap comment (s.take (gap comment s) ++ t) = gap comment s + gap false t := by
  induction s generalizing comment with
  | nil => simp at h
  | cons c s ih =>
    cases comment with
    | true =>
      simp only [gap, List.length_cons, Nat.add_lt_add_iff_right] at h
      simp only [gap, List.take_succ_cons, List.cons_append, ih h]
      omega
    | false =>
      by_cases hspace : isSpace c
      · simp only [gap, hspace, if_true, List.length_cons, Nat.add_lt_add_iff_right] at h
        simp only [gap, hspace, if_true, List.take_succ_cons, List.cons_append, ih h]
        omega
      · by_cases hhash : c = ch '#'
        · have hgap s : gap false (c :: s) = gap true s + 1 := by
            simp only [gap, if_neg hspace, if_pos hhash]
          rw [hgap, List.length_cons, Nat.add_lt_add_iff_right] at h
          rw [hgap, List.take_succ_cons, List.cons_append, hgap, ih h]
          omega
        · simp [gap, hspace, hhash]

theorem newlines_append (s t : Bytes) : newlines (s ++ t) = newlines s + newlines t := List.count_append

end GengoDB.Chars
