/-! # Matches

Dictionary coding replaces bytes by a match: a copy of what came a distance before. A match may
reach into itself, so it is copied byte by byte.
-/
namespace PlaneArchive.History

/-- Appends `count` bytes, each a copy of the one `distance` back. What lies before the start
counts as zeros. -/
def copyMatch (distance : Nat) : (count : Nat) → Array UInt8 → Array UInt8
  | 0, out => out
  | count + 1, out =>
    let byte := if out.size < distance then 0 else out.getD (out.size - distance) 0
    copyMatch distance count (out.push byte)

end PlaneArchive.History
