import PlaneArchive.FileTree.Path
import PlaneArchive.Gzip.Member
import PlaneArchive.Scan.Basic
import PlaneArchive.Tar.Entry

/-! # Expanding one path

A directory is replaced by the paths of its entries that are not directories themselves. A file
whose name ends in `.tar` is replaced by the plain files in it. Whatever is named `.gz` is
decompressed under its name without that ending, and any other file is taken as it is. What
cannot be read is dropped and counted, and nothing else is affected.
-/
namespace PlaneArchive

inductive Item where
  | record (record : FileRecord)
  /-- Gzip data, still to be decompressed. -/
  | compressed (name : String) (content : Bytes)
  deriving DecidableEq, Repr

namespace Item

def gzipEnding : Bytes := Utf8.encode ".gz"

def tarEnding : Bytes := Utf8.encode ".tar"

def isGzip (name : String) : Bool := Bytes.endsWith gzipEnding (Utf8.encode name)

def isTar (name : String) : Bool := Bytes.endsWith tarEnding (Utf8.encode name)

/-- Content under a name, to be decompressed if the name says so. -/
def ofContent (name : String) (content : Bytes) : Item :=
  if isGzip name then .compressed name content else .record ⟨name, content⟩

def stripGzip (name : String) : String :=
  if isGzip name then String.ofList (name.toList.take (name.length - 3)) else name

/-- The record that an item becomes; gzip data that is not whole becomes none. -/
def deliver? (decoder : Gzip.MemberDecoder) : Item → Option FileRecord
  | .record r => some r
  | .compressed name content =>
    (decoder.contents? content).map fun content => ⟨stripGzip name, content⟩

def outcome (decoder : Gzip.MemberDecoder) (item : Item) : ScanOutcome :=
  match item.deliver? decoder with
  | some delivered => { records := [delivered] }
  | none => { skipped := 1 }

end Item

structure Expansion where
  items : List Item := []
  found : List Path := []
  /-- Has the path, or the rest of it, been dropped? -/
  failed : Bool := false
  deriving DecidableEq, Repr

namespace Expansion

def failure : Expansion := { failed := true }

/-- The plain files of a tar file up to the first fault. -/
def ofTar (content : Bytes) : Expansion :=
  let extraction := Tar.extract content
  { items := extraction.entries.map fun entry =>
      Item.ofContent (Utf8.lossy entry.path) entry.content
    failed := extraction.fault?.isSome }

def ofFile (path : Path) (content : Bytes) : Expansion :=
  let name := path.display
  if Item.isTar name then ofTar content else { items := [Item.ofContent name content] }

/-- The entries of a directory that are not directories themselves. -/
def ofDirectory (path : Path) (entries : List (Name × Bool)) : Expansion where
  found := (entries.filter fun entry => !entry.2).map fun entry => path.join entry.1

def ofSight (path : Path) : Except IoError FileTree.Sight → Expansion
  | .ok (.directory entries) => ofDirectory path entries
  | .ok (.file content) => ofFile path content
  | .error _ => failure

def ofPath (tree : FileTree) (path : Path) : Expansion := ofSight path (tree.look path)

/-- The outcome of what an expansion hands on, not counting the paths it found. -/
def outcome (decoder : Gzip.MemberDecoder) (expansion : Expansion) : ScanOutcome :=
  expansion.items.foldr (fun item rest => item.outcome decoder ++ rest)
    { skipped := if expansion.failed then 1 else 0 }

end Expansion
end PlaneArchive
