/-
Readers that throw. A reader consumes a front part of a list of bytes or
fails with an error; one of the errors, `short`, says that the bytes ended too
early.

Besides what it reads (`Codec.Reads`), a format needs `Stable short r`: if the
reader did not miss any bytes, then more bytes at the end change nothing but
what is left over. Together they give that a reader misses bytes on every
proper front part of what it reads (`Stable.truncated`). Both are closed under
`pure` and `bind`.
-/
import Mathlib.Data.List.Infix
import GengoDB.Codec

namespace GengoDB.Wire

open Codec (Byte Reads putLE rawOr leOr foldN fields)

abbrev Reader (ε α : Type) := StateT (List Byte) (Except ε) α

variable {ε α β : Type} {short : ε} {r : Reader ε α} {f : α → Reader ε β} {bs : List Byte} {a : α}

/-! ## More bytes at the end -/

/-- More bytes at the end matter only to a reader that misses some. -/
def Stable (short : ε) (r : Reader ε α) : Prop :=
  ∀ bs more, r.run bs = .error short ∨ r.run (bs ++ more) = (r.run bs).map fun x => (x.1, x.2 ++ more)

theorem Stable.pure (a : α) : Stable short (Pure.pure a : Reader ε α) := fun _ _ => .inr rfl

theorem Stable.throw (e : ε) : Stable short (throw e : Reader ε α) := fun _ _ => .inr rfl

theorem Stable.bind (hr : Stable short r) (hf : ∀ a, Stable short (f a)) : Stable short (r >>= f) := by
  intro bs more
  rw [StateT.run_bind, StateT.run_bind]
  obtain h | h := hr bs more
  · exact .inl (by rw [h]; rfl)
  · rw [h]
    cases r.run bs with
    | error e => exact .inr rfl
    | ok x => exact hf x.1 x.2 more

theorem Stable.ite {s : Reader ε α} {p : Prop} [Decidable p] (hr : Stable short r) (hs : Stable short s) :
    Stable short (if p then r else s) := by
  split
  · exact hr
  · exact hs

/-- **Truncation.** On a proper front part of what it reads, a reader misses
bytes. -/
theorem Stable.truncated {front : List Byte} (hs : Stable short r) (h : Reads r bs a) (hfront : front <+: bs)
    (hne : front ≠ bs) : r.run front = .error short := by
  obtain ⟨more, rfl⟩ := hfront
  obtain herr | heq := hs front more
  · exact herr
  · have hall : r.run (front ++ more) = Pure.pure (a, []) := by simpa using h []
    rw [hall] at heq
    cases hrun : r.run front with
    | error e =>
      rw [hrun] at heq
      cases heq
    | ok x =>
      rw [hrun] at heq
      have hrest : x.2 ++ more = [] := (congrArg Prod.snd (Except.ok.inj heq)).symm
      rw [(List.append_eq_nil_iff.1 hrest).2, List.append_nil] at hne
      exact absurd rfl hne

/-! ## Bytes and words -/

/-- The next `n` bytes. -/
def take (short : ε) (n : ℕ) : Reader ε (List Byte) := rawOr (.error short) n

theorem reads_take (short : ε) (bs : List Byte) : Reads (take short bs.length) bs bs := .rawOr _ bs

theorem Stable.take (n : ℕ) : Stable short (take short n) := by
  intro bs more
  show (if _ then _ else _) = _ ∨ (if _ then _ else _) = Except.map _ (if _ then _ else _)
  by_cases hn : n ≤ bs.length
  · right
    rw [if_pos hn, if_pos (by rw [List.length_append]; omega), List.take_append_of_le_length hn,
      List.drop_append_of_le_length hn]
    rfl
  · exact .inl (if_neg hn)

theorem Stable.map (f : α → β) (hr : Stable short r) : Stable short (f <$> r) := by
  rw [map_eq_pure_bind]
  exact hr.bind fun _ => .pure _

/-- A little-endian word of `n` bytes. -/
def word (short : ε) (n : ℕ) : Reader ε ℕ := leOr (.error short) n

theorem reads_word (short : ε) {n x : ℕ} (hx : x < 256 ^ n) : Reads (word short n) (putLE n x) x := .leOr _ hx

theorem Stable.word (n : ℕ) : Stable short (word short n) := (Stable.take n).map _

/-! ## Loops -/

theorem Stable.foldN (put : β → α → β) (hr : Stable short r) : ∀ (n : ℕ) (acc : β), Stable short (foldN r put n acc)
  | 0, _ => .pure _
  | n + 1, _ => hr.bind fun _ => Stable.foldN put hr n _

theorem Stable.fields {κ : Type} {r : κ → Reader ε α} (hr : ∀ k, Stable short (r k)) : ∀ ks, Stable short (fields r ks)
  | [] => .pure _
  | k :: ks => (hr k).bind fun _ => (Stable.fields hr ks).bind fun _ => .pure _

end GengoDB.Wire
