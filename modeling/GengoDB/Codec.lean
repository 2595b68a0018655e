/-
Sequential binary files. A writer is the list of bytes it appends; a reader
consumes a front part of a list of bytes, and fails in the way of its monad.
`Reads r bs a` says that `r` consumes exactly `bs`, whatever follows, and
returns `a`: it is the whole interface between a writer and its reader.
`Reads.bind` puts two fields after one another, `Reads.repeated`, `Reads.foldN`
and `Reads.fields` a run of them, and `Reads.leOr` is the little-endian word at
the bottom.
-/
import Mathlib.Data.List.Basic
import Mathlib.Algebra.GroupWithZero.Nat
import Mathlib.Algebra.Order.Group.Nat

namespace GengoDB.Codec

abbrev Byte := Fin 256

-- By name, so that a byte written as a numeral carries no proof of its own.
instance neZero_byte : NeZero 256 := ⟨by decide⟩
instance lawfulBEq_byte : LawfulBEq Byte := inferInstance

section
variable {m : Type → Type} [Monad m] {α β : Type} {r : StateT (List Byte) m α} {f : α → StateT (List Byte) m β}
  {bs cs : List Byte} {a : α} {b : β}

/-- `r` consumes exactly `bs` and returns `a`. -/
def Reads (r : StateT (List Byte) m α) (bs : List Byte) (a : α) : Prop :=
  ∀ rest, r.run (bs ++ rest) = Pure.pure (a, rest)

theorem Reads.pure (a : α) : Reads (Pure.pure a : StateT (List Byte) m α) [] a := StateT.run_pure a

variable [LawfulMonad m]

theorem Reads.bind (hr : Reads r bs a) (hf : Reads (f a) cs b) : Reads (r >>= f) (bs ++ cs) b := by
  intro rest
  rw [StateT.run_bind, List.append_assoc, hr, pure_bind]
  exact hf rest

theorem Reads.map (f : α → β) (h : Reads r bs a) : Reads (f <$> r) bs (f a) := by
  intro rest
  rw [StateT.run_map, h rest, map_pure]

/-- The bytes of two fields, read by a reader that ends with the second. -/
theorem Reads.seq {ds : List Byte} (hr : Reads r bs a) (hf : Reads (f a) cs b) (hd : ds = bs ++ cs) :
    Reads (r >>= f) ds b :=
  hd ▸ hr.bind hf

/-- A last step that reads nothing. -/
theorem Reads.last (hr : Reads r bs a) (hf : Reads (f a) [] b) : Reads (r >>= f) bs b :=
  hr.seq hf (List.append_nil _).symm

theorem Reads.ret (hr : Reads r bs a) (f : α → β) : Reads (r >>= fun a => Pure.pure (f a)) bs (f a) :=
  hr.last (.pure (f a))

end

/-- `none` is a file that ends early. -/
abbrev Reader := StateT (List Byte) Option

section
variable {α : Type}

theorem Reads.run {r : Reader α} {bs : List Byte} {a : α} (h : Reads r bs a) : r.run bs = some (a, []) := by
  simpa using h []

/-- A field whose value has to make sense. -/
def check (a : Option α) : Reader α := fun s => a.map (·, s)

theorem Reads.check {a : Option α} {b : α} (h : a = some b) : Reads (check a) [] b := by
  intro rest
  simp [Codec.check, StateT.run, h]

end

/-! ## Raw bytes -/

section
variable {m : Type → Type} [Monad m]

/-- The next `n` bytes, or `short` if there are not so many. -/
def rawOr (short : m (List Byte × List Byte)) (n : Nat) : StateT (List Byte) m (List Byte) := fun s =>
  if n ≤ s.length then Pure.pure (s.take n, s.drop n) else short

theorem Reads.rawOr (short : m (List Byte × List Byte)) (bs : List Byte) : Reads (rawOr short bs.length) bs bs := by
  intro rest
  simp [Codec.rawOr, StateT.run]

end

/-- `fread` of `n` bytes. -/
def raw (n : Nat) : Reader (List Byte) := rawOr none n

theorem Reads.raw (bs : List Byte) : Reads (raw bs.length) bs bs := .rawOr none bs

/-! ## Little-endian words -/

/-- The low `n` bytes of `x`, the least significant first. -/
def putLE : Nat → Nat → List Byte
  | 0, _ => []
  | n + 1, x => ⟨x % 256, Nat.mod_lt _ (by decide)⟩ :: putLE n (x / 256)

def valueLE : List Byte → Nat
  | [] => 0
  | b :: bs => b.val + 256 * valueLE bs

@[simp] theorem length_putLE (n x : Nat) : (putLE n x).length = n := by
  induction n generalizing x with
  | zero => rfl
  | succ n ih => simp [putLE, ih]

/-- A word read back is what was written, cut to its width. -/
theorem valueLE_putLE (n x : Nat) : valueLE (putLE n x) = x % 256 ^ n := by
  induction n generalizing x with
  | zero => simp [putLE, valueLE, Nat.mod_one]
  | succ n ih => rw [putLE, valueLE, ih, Nat.pow_succ', Nat.mod_mul]

section
variable {m : Type → Type} [Monad m]

def leOr (short : m (List Byte × List Byte)) (n : Nat) : StateT (List Byte) m Nat := valueLE <$> rawOr short n

theorem Reads.leOr [LawfulMonad m] (short : m (List Byte × List Byte)) {n x : Nat} (hx : x < 256 ^ n) :
    Reads (leOr short n) (putLE n x) x := by
  have h := (Reads.rawOr short (putLE n x)).map valueLE
  rw [length_putLE, valueLE_putLE, Nat.mod_eq_of_lt hx] at h
  exact h

end

def le (n : Nat) : Reader Nat := leOr none n

theorem Reads.le {n x : Nat} (hx : x < 256 ^ n) : Reads (le n) (putLE n x) x := .leOr none hx

/-! ## Counted runs -/

section
variable {m : Type → Type} [Monad m] {α β κ : Type}

/-- Run a reader `n` times. -/
def repeated (r : StateT (List Byte) m α) : Nat → StateT (List Byte) m (List α)
  | 0 => Pure.pure []
  | n + 1 => do
    let a ← r
    let as ← repeated r n
    return a :: as

/-- Read `n` times, and put what is read to what there is. -/
def foldN (r : StateT (List Byte) m α) (put : β → α → β) : Nat → β → StateT (List Byte) m β
  | 0, acc => pure acc
  | n + 1, acc => do
    let a ← r
    foldN r put n (put acc a)

/-- Fields of different kinds, one after the other. -/
def fields (r : κ → StateT (List Byte) m α) : List κ → StateT (List Byte) m (List α)
  | [] => pure []
  | k :: ks => do
    let a ← r k
    let as ← fields r ks
    return a :: as

variable [LawfulMonad m]

/-- A run of records, each read as what `f` makes of it. -/
theorem Reads.repeated {r : StateT (List Byte) m β} {f : α → β} {w : α → List Byte} :
    ∀ {l : List α}, (∀ a ∈ l, Reads r (w a) (f a)) → Reads (repeated r l.length) (l.flatMap w) (l.map f)
  | [], _ => .pure []
  | a :: as, h => by
    have ha := h a (by simp)
    have has := Reads.repeated (l := as) fun b hb => h b (by simp [hb])
    exact ha.bind (has.ret _)

theorem Reads.foldN {r : StateT (List Byte) m α} {w : α → List Byte} (put : β → α → β) :
    ∀ (acc : β) {as : List α}, (∀ a ∈ as, Reads r (w a) a) →
      Reads (foldN r put as.length acc) (as.flatMap w) (as.foldl put acc)
  | acc, [], _ => .pure acc
  | acc, a :: as, h => by
    exact (h a (by simp)).bind (Reads.foldN put _ fun a' ha' => h a' (by simp [ha']))

theorem Reads.fields {r : κ → StateT (List Byte) m α} {w : κ → α → List Byte} :
    ∀ {ks : List κ} {as : List α}, as.length = ks.length → (∀ x ∈ as.zip ks, Reads (r x.2) (w x.2 x.1) x.1) →
      Reads (fields r ks) ((as.zip ks).flatMap fun x => w x.2 x.1) as
  | [], [], _, _ => .pure _
  | k :: ks, a :: as, hlen, h => by
    refine (h (a, k) (by simp)).bind ?_
    exact (Reads.fields (by simpa using hlen) fun x hx => h x (by simp [hx])).ret (a :: ·)

end

section
variable {α β : Type} {w : α → List Byte}

/-- A vector after its length in four bytes. A length that does not fit is
cut, and only so many elements are written. -/
def putVec (w : α → List Byte) (as : List α) : List Byte :=
  putLE 4 as.length ++ (as.take (as.length % 256 ^ 4)).flatMap w

def vec (r : Reader α) : Reader (List α) := le 4 >>= repeated r

theorem Reads.vec {r : Reader β} {f : α → β} {as : List α} (hlen : as.length < 256 ^ 4)
    (h : ∀ a ∈ as, Reads r (w a) (f a)) : Reads (vec r) (putVec w as) (as.map f) := by
  rw [putVec, Nat.mod_eq_of_lt hlen, List.take_length]
  exact (Reads.le hlen).bind (Reads.repeated h)

end

end GengoDB.Codec
