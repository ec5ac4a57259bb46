import PlaneArchive.Error

/-! # File trees

A file tree holds directories, plain files and symbolic links. Each has one location, the list of
names from the root down to it; links give a file many paths, but no second location. A directory or
file may be there and yet refuse to be read.
-/
namespace PlaneArchive

abbrev Name := Bytes

/-- The names that lead from the root to a place, innermost first. -/
abbrev Location := List Name

inductive Node where
  | directory
  | file (content : Bytes)
  /-- A symbolic link, with the text of its target. -/
  | link (target : Path)
  deriving DecidableEq, Repr

namespace Node

def isDirectory : Node → Bool
  | directory => true
  | _ => false

end Node

/-- All places of a file system below its root, and the place where relative paths start. -/
structure FileTree where
  nodes : List (Location × Node) := []
  base : Location := []
  /-- The locations that cannot be opened for reading, and why. -/
  faults : List (Location × IoError) := []
  deriving DecidableEq, Repr

namespace FileTree

/-- What is at a location; the root is always a directory. -/
def node? (tree : FileTree) (location : Location) : Option Node :=
  if location = [] then some .directory
  else (tree.nodes.find? fun place => place.1 == location).map (·.2)

/-- Why what is at a location cannot be read, if it cannot. -/
def fault? (tree : FileTree) (location : Location) : Option IoError := tree.faults.lookup location

def children (tree : FileTree) (location : Location) : List (Name × Node) :=
  tree.nodes.filterMap fun
    | (name :: parent, node) => if parent = location then some (name, node) else none
    | ([], _) => none

def put (tree : FileTree) (location : Location) (node : Node) : FileTree :=
  if tree.nodes.any fun place => place.1 == location then
    { tree with
      nodes := tree.nodes.map fun place => if place.1 = location then (location, node) else place }
  else { tree with nodes := tree.nodes ++ [(location, node)] }

end FileTree
end PlaneArchive
