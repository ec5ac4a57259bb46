/-! # Numbers in text

Unsigned numbers as they stand in headers and on command lines: at least one digit of the base,
possibly after a plus sign, nothing else.
-/
namespace PlaneArchive.Digits

/-- The value of one digit of a base up to ten. -/
def value? (base : Nat) (char : Char) : Option Nat :=
  if '0' ≤ char ∧ char.toNat < '0'.toNat + base then some (char.toNat - '0'.toNat) else none

/-- The number that the digits continue from `n`. -/
def continue? (base : Nat) (n : Nat) (digits : List Char) : Option Nat :=
  digits.foldlM (fun n char => (value? base char).map (n * base + ·)) n

def bare? (base : Nat) (digits : List Char) : Option Nat :=
  if digits.isEmpty then none else continue? base 0 digits

def unsigned? (base : Nat) : List Char → Option Nat
  | '+' :: digits => bare? base digits
  | digits => bare? base digits

def signed? (base : Nat) : List Char → Option Int
  | '-' :: digits => (bare? base digits).map fun n => -(n : Int)
  | digits => (unsigned? base digits).map Int.ofNat

end PlaneArchive.Digits
