import PlaneArchive.FileTree.Basic

/-! # Paths

A path is a sequence of names between slashes. It is followed name by name through the tree;
links on the way are replaced by their targets, at most forty times.
-/
namespace PlaneArchive

namespace Path

def slash : UInt8 := '/'.toUInt8

def here : Name := ['.'.toUInt8]

def above : Name := ['.'.toUInt8, '.'.toUInt8]

def nameLimit : Nat := 255

/-- The longest path, with the zero byte that ends it. -/
def pathLimit : Nat := 4096

def isAbsolute (path : Path) : Bool := path.head? == some slash

def endsInSlash (path : Path) : Bool := path.getLast? == some slash

/-- The names of a path; empty ones do not count. -/
def names (path : Path) : List Name := (path.splitOn slash).filter fun name => !name.isEmpty

/-- The names to follow: a slash at the end asks for a directory. -/
def steps (path : Path) : List Name :=
  if path.endsInSlash then path.names ++ [here] else path.names

def check (path : Path) : Except IoError Unit :=
  if path.contains 0 then .error .interiorZero
  else if path.isEmpty then .error .noSuchFile
  else if pathLimit ≤ path.length then .error .nameTooLong
  else .ok ()

def join (path : Path) (name : Name) : Path :=
  if path.endsInSlash then path ++ name else path ++ slash :: name

end Path

structure Target where
  location : Location
  node : Node
  linksLeft : Nat
  deriving DecidableEq, Repr

namespace FileTree

def linkLimit : Nat := 40

def start (tree : FileTree) (path : Path) : Location := if path.isAbsolute then [] else tree.base

/-- Follows `steps` from a location, through at most `links` links. -/
def follow (tree : FileTree) (links : Nat) (location : Location) (steps : List Name) :
    Except IoError Target :=
  match tree.node? location, steps with
  | none, _ => .error .noSuchFile
  | some node, [] => .ok ⟨location, node, links⟩
  | some .directory, name :: steps =>
    if name = Path.here then tree.follow links location steps
    else if name = Path.above then tree.follow links location.tail steps
    else if Path.nameLimit < name.length then .error .nameTooLong
    else
      match tree.node? (name :: location) with
      | some (.link target) =>
        match links with
        | 0 => .error .tooManyLinks
        | links + 1 =>
          let location := if target.isAbsolute then [] else location
          tree.follow links location (target.steps ++ steps)
      | _ => tree.follow links (name :: location) steps
  | some _, _ :: _ => .error .notADirectory
termination_by (links, steps.length)

def resolve (tree : FileTree) (path : Path) : Except IoError Target := do
  path.check
  tree.follow linkLimit (tree.start path) path.steps

/-- What is seen of a path when it is opened for reading. -/
inductive Sight where
  /-- A directory: the names in it, each with whether the entry itself is a directory. Links count
  as what they are, not as what they lead to. -/
  | directory (entries : List (Name × Bool))
  | file (content : Bytes)
  deriving DecidableEq, Repr

/-- What is seen of a target that can be read; a fault hides directories and files alike. -/
def sight (tree : FileTree) (target : Target) : Except IoError Sight :=
  match tree.fault? target.location, target.node with
  | some cause, _ => .error cause
  | none, .directory =>
    .ok (.directory
      ((tree.children target.location).map fun child => (child.1, child.2.isDirectory)))
  | none, .file content => .ok (.file content)
  | none, .link _ => .error .tooManyLinks

def look (tree : FileTree) (path : Path) : Except IoError Sight := do
  let target ← tree.resolve path
  tree.sight target

section Looking

variable {tree : FileTree} {path : Path} {target : Target} {cause : IoError}

theorem look_of_resolve (h : tree.resolve path = .ok target) :
    tree.look path = tree.sight target := by
  rw [look, h]
  rfl

theorem look_of_unresolved (h : tree.resolve path = .error cause) :
    tree.look path = .error cause := by
  rw [look, h]
  rfl

theorem sight_of_fault {location : Location} (h : tree.fault? location = some cause) (node : Node)
    (left : Nat) : tree.sight ⟨location, node, left⟩ = .error cause := by
  rw [sight, h]

theorem look_eq_ok {seen : Sight} (h : tree.look path = .ok seen) :
    ∃ target, tree.resolve path = .ok target ∧ tree.sight target = .ok seen := by
  cases hresolve : tree.resolve path with
  | error e =>
    rw [look_of_unresolved hresolve] at h
    cases h
  | ok target =>
    rw [look_of_resolve hresolve] at h
    exact ⟨target, rfl, h⟩

theorem look_eq_directory {entries : List (Name × Bool)}
    (h : tree.look path = .ok (.directory entries)) :
    ∃ location left, tree.resolve path = .ok ⟨location, .directory, left⟩ ∧
      entries = (tree.children location).map fun child => (child.1, child.2.isDirectory) := by
  obtain ⟨⟨location, node, left⟩, hresolve, hsight⟩ := look_eq_ok h
  rw [sight] at hsight
  split at hsight
  · cases hsight
  · next hnode =>
    cases hnode
    cases hsight
    exact ⟨location, left, hresolve, rfl⟩
  · cases hsight
  · cases hsight

end Looking

/-- The content of the file that a path leads to, whether it can be read or not. -/
def content? (tree : FileTree) (path : Path) : Option Bytes :=
  match tree.resolve path with
  | .ok ⟨_, .file content, _⟩ => some content
  | _ => none

/-- The location of the plain file that is written under a path. The file need not exist, but its
directory must; a link to nothing leads to where its target would be. -/
def placeOf (tree : FileTree) (links : Nat) (location : Location) (path : Path) :
    Except IoError Location :=
  match path.names.getLast? with
  | none => .error .isADirectory
  | some name =>
    match tree.follow links location (path.names.dropLast ++ [Path.here]) with
    | .error e => .error e
    | .ok ⟨location, _, linksLeft⟩ =>
      if path.endsInSlash ∨ name = Path.here ∨ name = Path.above then .error .isADirectory
      else if Path.nameLimit < name.length then .error .nameTooLong
      else
        match tree.node? (name :: location) with
        | some .directory => .error .isADirectory
        | some (.link target) =>
          match _h : min links linksLeft with
          | 0 => .error .tooManyLinks
          | links + 1 =>
            tree.placeOf links (if target.isAbsolute then [] else location) target
        | _ => .ok (name :: location)
termination_by links
decreasing_by omega

/-- Opens the file under a path for writing: the tree with the file in it, and its location. Its
content is kept if `keep` is set, and dropped otherwise. -/
def openForWriting (tree : FileTree) (keep : Bool) (path : Path) :
    Except IoError (FileTree × Location) := do
  path.check
  let location ← tree.placeOf linkLimit (tree.start path) path
  let content :=
    match tree.node? location with
    | some (.file content) => if keep then content else []
    | _ => []
  return (tree.put location (.file content), location)

end FileTree
end PlaneArchive
