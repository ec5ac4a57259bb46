import PlaneArchive.Bytes

/-! # Records -/
namespace PlaneArchive

/-- One input file under its name, with its whole content. Names need not be distinct. -/
structure FileRecord where
  name : String
  content : Bytes
  deriving DecidableEq, Repr

end PlaneArchive
