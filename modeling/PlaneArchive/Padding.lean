/-! # Padding to whole pages

A record occupies a whole number of pages in its block. A writer computes the padded length on
64-bit words, where it does not exist for a page of no bytes, nor beyond the last word; a reader
rounds up the sizes that it finds.
-/
namespace PlaneArchive

/-- The least number of pieces of `size` that cover `total`. -/
def pieces (total size : Nat) : Nat := (total + size - 1) / size

/-- The least multiple of `unit` that is at least `len`, without a bound on the result. -/
def roundUp (len unit : Nat) : Nat := pieces len unit * unit

def checkedAdd (a b : UInt64) : Option UInt64 :=
  let sum := a + b
  if sum < a then none else some sum

def paddedLen (len page : UInt64) : Option UInt64 :=
  if page = 0 then none
  else
    let excess := len % page
    if excess = 0 then some len else checkedAdd len (page - excess)

end PlaneArchive
