import Mathlib.Data.List.Nodup
import PlaneArchive.Proofs.FileTree.Resolution

/-! # The paths of directory entries

The path of an entry is followed as the path of its directory is, and then through the entry. So if
an entry that is not a directory leads to one after all, it is a link, and more links are followed
on the way to it than on the way to the directory that it was found in.
-/
namespace PlaneArchive

namespace Path

/-- What can be the name of an entry: a part of a path that stands for itself. -/
structure EntryName (name : Name) : Prop where
  ne_nil : name ≠ []
  no_slash : slash ∉ name
  ne_here : name ≠ here
  ne_above : name ≠ above

instance (name : Name) : Decidable (EntryName name) :=
  decidable_of_iff (name ≠ [] ∧ slash ∉ name ∧ name ≠ here ∧ name ≠ above)
    ⟨fun ⟨hnil, hslash, hhere, habove⟩ => ⟨hnil, hslash, hhere, habove⟩,
      fun h => ⟨h.ne_nil, h.no_slash, h.ne_here, h.ne_above⟩⟩

variable {path : Path} {name : Name}

theorem names_append_slash (path more : Path) :
    (path ++ slash :: more).names = path.names ++ more.names := by
  rw [names, List.splitOn_append_cons_self, List.filter_append]
  rfl

theorem names_nil : names [] = [] := rfl

theorem EntryName.names_eq (h : EntryName name) : names name = [name] := by
  rw [names, List.splitOn_eq_singleton h.no_slash]
  refine List.filter_eq_self.mpr fun other hother => ?_
  rw [List.mem_singleton.mp hother, Bool.not_eq_true', List.isEmpty_eq_false_iff]
  exact h.ne_nil

theorem eq_append_slash_of_endsInSlash (h : path.endsInSlash = true) :
    ∃ front, path = front ++ [slash] := by
  rw [endsInSlash, beq_iff_eq, List.getLast?_eq_some_iff] at h
  exact h

theorem EntryName.names_join (h : EntryName name) (path : Path) :
    (path.join name).names = path.names ++ [name] := by
  unfold join
  split
  · next hslash =>
    obtain ⟨front, rfl⟩ := eq_append_slash_of_endsInSlash hslash
    rw [List.append_assoc, List.singleton_append, names_append_slash, names_append_slash, names_nil,
      List.append_nil, h.names_eq]
  · rw [names_append_slash, h.names_eq]

theorem EntryName.endsInSlash_join (h : EntryName name) (path : Path) :
    (path.join name).endsInSlash = false := by
  have hlast : ∀ front : Path, (front ++ name).endsInSlash = false := by
    intro front
    rw [endsInSlash, List.getLast?_append_of_ne_nil _ h.ne_nil, beq_eq_false_iff_ne]
    intro hslash
    exact h.no_slash (List.mem_of_getLast? hslash)
  unfold join
  split
  · exact hlast path
  · have := hlast (path ++ [slash])
    rw [List.append_assoc, List.singleton_append] at this
    exact this

theorem EntryName.steps_join (h : EntryName name) (path : Path) :
    (path.join name).steps = path.names ++ [name] := by
  rw [steps, h.endsInSlash_join, if_neg Bool.false_ne_true, h.names_join]

theorem isAbsolute_join (hsome : path ≠ []) (name : Name) :
    (path.join name).isAbsolute = path.isAbsolute := by
  have hhead : ∀ more : Path, (path ++ more).isAbsolute = path.isAbsolute := by
    intro more
    rw [isAbsolute, List.head?_append_of_ne_nil _ hsome, isAbsolute]
  unfold join
  split
  · exact hhead name
  · exact hhead (slash :: name)

theorem ne_nil_of_check (h : path.check = .ok ()) : path ≠ [] := by
  rintro rfl
  cases h

end Path

namespace FileTree

/-- As a file system keeps its trees: entries have names, and no place is taken twice. -/
structure WellFormed (tree : FileTree) : Prop where
  names : ∀ place ∈ tree.nodes, ∀ name ∈ place.1, Path.EntryName name
  unique : (tree.nodes.map Prod.fst).Nodup

variable {tree : FileTree} {links left : ℕ} {location stop place : Location}
  {steps more : List Name} {name : Name} {path : Path} {node : Node} {target : Target}

theorem WellFormed.child (h : tree.WellFormed) (hmem : (name, node) ∈ tree.children location) :
    Path.EntryName name ∧ tree.node? (name :: location) = some node := by
  obtain ⟨⟨found, other⟩, hplace, hchild⟩ := List.mem_filterMap.mp hmem
  have hentry : found = name :: location ∧ other = node := by
    cases found with
    | nil => cases hchild
    | cons first parent =>
      dsimp only at hchild
      split at hchild
      · next hparent =>
        cases hchild
        exact ⟨congrArg (List.cons name) hparent, rfl⟩
      · cases hchild
  obtain ⟨rfl, rfl⟩ := hentry
  refine ⟨h.names _ hplace name List.mem_cons_self, ?_⟩
  rw [node?, if_neg (List.cons_ne_nil _ _)]
  cases hfind : tree.nodes.find? fun entry => entry.1 == name :: location with
  | none =>
    have hnot := List.find?_eq_none.mp hfind _ hplace
    exact absurd (beq_self_eq_true (name :: location)) hnot
  | some entry =>
    have hsame : entry.1 = name :: location := by simpa using List.find?_some hfind
    have heq := List.inj_on_of_nodup_map h.unique (List.mem_of_find?_eq_some hfind) hplace hsame
    rw [heq]
    rfl

/-- Steps are followed one group after another. -/
theorem Leads.append (h : tree.Leads links location steps ⟨stop, node, left⟩)
    (hmore : tree.Leads left stop more target) :
    tree.Leads links location (steps ++ more) target := by
  generalize hmid : (⟨stop, node, left⟩ : Target) = mid at h
  induction h with
  | arrive _ =>
    cases hmid
    exact hmore
  | here hdir _ ih => exact .here hdir (ih hmid)
  | above hdir _ ih => exact .above hdir (ih hmid)
  | link hdir hname hlink _ ih =>
    rw [List.append_assoc] at ih
    exact .link hdir hname hlink (ih hmid)
  | enter hdir hname hlink _ ih => exact .enter hdir hname hlink (ih hmid)

theorem resolve_eq_ok (h : tree.resolve path = .ok target) :
    path.check = .ok () ∧ tree.Leads linkLimit (tree.start path) path.steps target := by
  unfold resolve at h
  cases hcheck : path.check with
  | error e =>
    rw [hcheck] at h
    cases h
  | ok _ =>
    rw [hcheck] at h
    exact ⟨rfl, leads_of_follow h⟩

theorem linksLeft_le_of_resolve (h : tree.resolve path = .ok target) :
    target.linksLeft ≤ linkLimit := (resolve_eq_ok h).2.linksLeft_le

/-- The path of an entry is followed as the path of its directory is, and then through the entry. -/
theorem resolve_join (hname : Path.EntryName name)
    (h : tree.resolve path = .ok ⟨location, .directory, left⟩) :
    tree.resolve (path.join name) =
      (path.join name).check.bind fun _ => tree.follow left location [name] := by
  obtain ⟨hcheck, hleads⟩ := resolve_eq_ok h
  have hdir : tree.node? location = some .directory := hleads.node_eq
  have hhere : tree.Leads linkLimit (tree.start path) (path.names ++ [Path.here])
      ⟨location, .directory, left⟩ := by
    rw [Path.steps] at hleads
    split at hleads
    · exact hleads
    · exact hleads.append (.here hdir (.arrive hdir))
  have hstart : tree.start (path.join name) = tree.start path := by
    rw [start, start, Path.isAbsolute_join (Path.ne_nil_of_check hcheck)]
  rw [resolve, hname.steps_join, hstart, hhere.through.2]
  rfl

/-- What the path of an entry leads to is the entry, unless that is a link. -/
theorem resolve_join_of_not_link (hname : Path.EntryName name)
    (h : tree.resolve path = .ok ⟨location, .directory, left⟩)
    (hnode : tree.node? (name :: location) = some node) (hlink : ∀ text, node ≠ .link text)
    (hentry : tree.resolve (path.join name) = .ok target) : target.node = node := by
  rw [resolve_join hname h] at hentry
  cases hcheck : (path.join name).check with
  | error e =>
    rw [hcheck] at hentry
    cases hentry
  | ok _ =>
    rw [hcheck] at hentry
    cases leads_of_follow hentry with
    | here _ _ => exact absurd rfl hname.ne_here
    | above _ _ => exact absurd rfl hname.ne_above
    | link _ _ htext _ =>
      rw [hnode] at htext
      exact absurd (Option.some.inj htext) (hlink _)
    | enter _ _ _ hrest =>
      cases hrest with
      | arrive hfound =>
        rw [hnode] at hfound
        exact (Option.some.inj hfound).symm

/-- On the way through a link, at least this link is followed on top. -/
theorem linksLeft_lt_of_link (hname : Path.EntryName name)
    (h : tree.resolve path = .ok ⟨location, .directory, left⟩) {text : Path}
    (hlink : tree.node? (name :: location) = some (.link text))
    (hentry : tree.resolve (path.join name) = .ok target) : target.linksLeft < left := by
  rw [resolve_join hname h] at hentry
  cases hcheck : (path.join name).check with
  | error e =>
    rw [hcheck] at hentry
    cases hentry
  | ok _ =>
    rw [hcheck] at hentry
    cases leads_of_follow hentry with
    | here _ _ => exact absurd rfl hname.ne_here
    | above _ _ => exact absurd rfl hname.ne_above
    | link _ _ _ hrest => exact Nat.lt_succ_of_le hrest.linksLeft_le
    | enter _ _ hnot _ => exact absurd hlink (hnot text)

/-- What is listed in a directory and is no directory itself leads to a directory only if it is a
link, and then more links are followed than on the way to the directory. -/
theorem WellFormed.relisted (hwf : tree.WellFormed)
    (h : tree.resolve path = .ok ⟨location, .directory, left⟩)
    (hmem : (name, node) ∈ tree.children location) (hown : node.isDirectory = false)
    (hagain : tree.resolve (path.join name) = .ok target) (hdir : target.node = .directory) :
    (∃ text, node = .link text) ∧ target.linksLeft < left := by
  obtain ⟨hname, hnode⟩ := hwf.child hmem
  cases node with
  | directory => cases hown
  | file content =>
    have hfile := resolve_join_of_not_link hname h hnode (fun _ => Node.noConfusion) hagain
    rw [hdir] at hfile
    cases hfile
  | link text => exact ⟨⟨text, rfl⟩, linksLeft_lt_of_link hname h hnode hagain⟩

/-- The links that are followed on the way to what a path leads to, if it leads anywhere. -/
def linksFollowed? (tree : FileTree) (path : Path) : Option ℕ :=
  match tree.resolve path with
  | .ok target => some (linkLimit - target.linksLeft)
  | .error _ => none

/-- The path goes through a link in its last step. -/
def EndsInLink (tree : FileTree) (path : Path) (name : Name) : Prop :=
  ∃ target text, tree.resolve path = .ok target ∧
    tree.node? (name :: target.location) = some (.link text)

theorem exists_child_of_entry {isDirectory : Bool}
    (h : (name, isDirectory) ∈
      (tree.children location).map fun child => (child.1, child.2.isDirectory)) :
    ∃ node, (name, node) ∈ tree.children location ∧ node.isDirectory = isDirectory := by
  obtain ⟨⟨found, node⟩, hchild, hentry⟩ := List.mem_map.mp h
  obtain rfl : found = name := congrArg Prod.fst hentry
  exact ⟨node, hchild, congrArg Prod.snd hentry⟩

end FileTree

end PlaneArchive
