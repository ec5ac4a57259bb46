import PlaneArchive.Tar.Header

/-! # Extended attributes

The content of an attribute entry is lines of the form `length key=value`, where `length` counts
the whole line with its line feed. A line of another form is malformed; an empty line ends the
list.
-/
namespace PlaneArchive.Tar

structure Attribute where
  key : Bytes
  value : Bytes
  deriving DecidableEq, Repr

namespace Attribute

/-- The digits as text; bytes outside ASCII become characters that are no digits. -/
def decimal? (bytes : Bytes) : Option Nat :=
  Digits.unsigned? 10 (bytes.map fun byte => Char.ofNat byte.toNat)

def ofLine? (line : Bytes) : Option Attribute :=
  let length := line.takeWhile (· != ' '.toUInt8)
  match line.drop length.length with
  | [] => none
  | _ :: body =>
    let key := body.takeWhile (· != '='.toUInt8)
    match body.drop key.length with
    | [] => none
    | _ :: value => if decimal? length = some (line.length + 1) then some ⟨key, value⟩ else none

/-- The lines of an attribute entry; a malformed one is `none`. -/
def lines (content : Bytes) : List (Option Attribute) :=
  ((content.splitOn '\n'.toUInt8).takeWhile fun line => !line.isEmpty).map ofLine?

/-- The size that the attributes declare. A malformed line before it hides it, and so does a value
that is no 64-bit number. -/
def size? (content : Bytes) : Option Nat :=
  match (lines content).find? fun line => line.all (·.key == Utf8.encode "size") with
  | some (some found) => (decimal? found.value).filter (· < UInt64.size)
  | _ => none

/-- The path that the attributes declare; malformed lines are passed over. -/
def path? (content : Bytes) : Option Bytes :=
  ((lines content).filterMap id).find? (·.key == Utf8.encode "path") |>.map (·.value)

end Attribute
end PlaneArchive.Tar
