/-
Binary floating-point words and the values they stand for.

A finite value is an integer number of units of `2^-1074`, the smallest
step of binary64, so that values of both formats compare as integers and no
rational arithmetic is needed.
-/
import Mathlib.Algebra.Order.Ring.Int
import Mathlib.Algebra.Order.Ring.Nat

namespace GengoDB.Binary

/-- Field widths of a format, and its smallest step as a power of two times
the common unit. -/
structure Format where
  expBits : Nat
  manBits : Nat
  step : Nat

def binary32 : Format := ⟨8, 23, 925⟩

def binary64 : Format := ⟨11, 52, 0⟩

inductive Value where
  | nan
  | inf (neg : Bool)
  | fin (scaled : Int)
  deriving DecidableEq, Repr

section
variable (f : Format)

/-- The magnitude, in steps of the format, of a word without its sign bit. -/
def Format.magnitude (k : Nat) : Nat :=
  if k / 2 ^ f.manBits = 0 then k % 2 ^ f.manBits
  else (2 ^ f.manBits + k % 2 ^ f.manBits) * 2 ^ (k / 2 ^ f.manBits - 1)

/-- The sign bit and the rest of a word. -/
def Format.neg (w : Nat) : Bool := w / 2 ^ (f.expBits + f.manBits) % 2 = 1

def Format.unsigned (w : Nat) : Nat := w % 2 ^ (f.expBits + f.manBits)

/-- The number a word with a finite value stands for, and its absolute value. -/
def Format.units (w : Nat) : Nat := f.magnitude (f.unsigned w) * 2 ^ f.step

def Format.scaled (w : Nat) : Int := if f.neg w then -f.units w else f.units w

/-- The value of a word. -/
def Format.decode (w : Nat) : Value :=
  if f.unsigned w / 2 ^ f.manBits = 2 ^ f.expBits - 1 then
    if f.unsigned w % 2 ^ f.manBits = 0 then .inf (f.neg w) else .nan
  else .fin (f.scaled w)

/-- Where a value stands: negative infinity, the numbers, positive infinity. -/
def Value.place : Value → Option (Int × Int)
  | .nan => none
  | .inf true => some (-1, 0)
  | .fin x => some (0, x)
  | .inf false => some (1, 0)

/-- The comparison of values; a NaN is unordered. -/
def Value.compare (x y : Value) : Option Ordering :=
  match x.place, y.place with
  | some (a, x), some (b, y) => some ((Ord.compare a b).then (Ord.compare x y))
  | _, _ => none

@[simp] theorem Value.compare_fin (x y : Int) : (Value.fin x).compare (.fin y) = some (Ord.compare x y) := rfl

theorem Value.compare_nan (x : Value) : x.compare .nan = none := by
  rw [Value.compare]
  cases x.place <;> rfl

end

/-- The word of a value from its fields. -/
def Format.word (f : Format) (neg : Bool) (e m : Nat) : Nat :=
  (if neg then 2 ^ (f.expBits + f.manBits) else 0) + (e * 2 ^ f.manBits + m)

/-- A binary32 word as a binary64 word: the exponent is rebiased, and a
subnormal normalized. -/
def widen (w : Nat) : Nat :=
  let e := binary32.unsigned w / 2 ^ 23
  let m := binary32.unsigned w % 2 ^ 23
  if e = 255 then binary64.word (binary32.neg w) 2047 (m * 2 ^ 29)
  else if e ≠ 0 then binary64.word (binary32.neg w) (e + 896) (m * 2 ^ 29)
  else if m = 0 then binary64.word (binary32.neg w) 0 0
  else binary64.word (binary32.neg w) (m.log2 + 874) (m * 2 ^ (52 - m.log2) - 2 ^ 52)

end GengoDB.Binary
