import Mathlib.Data.List.Basic
import PlaneArchive.FileTree.Path

/-! # Where paths lead

A path that leads somewhere is followed through directories and links only. What is in the files of
a tree, and whether more files come to be, therefore makes no difference to it.
-/
namespace PlaneArchive

/-- A name that is looked up in a directory. -/
structure Path.Plain (name : Name) : Prop where
  ne_here : name ≠ Path.here
  ne_above : name ≠ Path.above
  length_le : name.length ≤ Path.nameLimit

/-- The same node, but for what a file holds. -/
def Node.Alike (first second : Node) : Prop :=
  first = second ∨ ∃ content other, first = .file content ∧ second = .file other

namespace Node.Alike

variable {first second : Node}

theorem directory (h : Node.directory.Alike second) : second = .directory := by
  rcases h with rfl | ⟨_, _, hfile, _⟩
  · rfl
  · cases hfile

theorem link {text : Path} (h : (Node.link text).Alike second) : second = .link text := by
  rcases h with rfl | ⟨_, _, hfile, _⟩
  · rfl
  · cases hfile

theorem symm (h : first.Alike second) : second.Alike first := by
  rcases h with rfl | ⟨content, other, hfirst, hsecond⟩
  · exact .inl rfl
  · exact .inr ⟨other, content, hsecond, hfirst⟩

end Node.Alike

namespace FileTree

variable {tree first second : FileTree} {links left : ℕ} {location place : Location}
  {steps more : List Name} {name : Name} {path : Path} {node : Node} {target : Target}

/-- The steps that lead to a target, one link or directory after another. -/
inductive Leads (tree : FileTree) : ℕ → Location → List Name → Target → Prop
  | arrive {links : ℕ} {location : Location} {node : Node}
      (h : tree.node? location = some node) : Leads tree links location [] ⟨location, node, links⟩
  | here {links : ℕ} {location : Location} {steps : List Name} {target : Target}
      (hdir : tree.node? location = some .directory)
      (rest : Leads tree links location steps target) :
      Leads tree links location (Path.here :: steps) target
  | above {links : ℕ} {location : Location} {steps : List Name} {target : Target}
      (hdir : tree.node? location = some .directory)
      (rest : Leads tree links location.tail steps target) :
      Leads tree links location (Path.above :: steps) target
  | link {links : ℕ} {location : Location} {name : Name} {steps : List Name} {text : Path}
      {target : Target} (hdir : tree.node? location = some .directory) (hname : Path.Plain name)
      (hlink : tree.node? (name :: location) = some (.link text))
      (rest : Leads tree links (if text.isAbsolute then [] else location) (text.steps ++ steps)
        target) :
      Leads tree (links + 1) location (name :: steps) target
  | enter {links : ℕ} {location : Location} {name : Name} {steps : List Name} {target : Target}
      (hdir : tree.node? location = some .directory) (hname : Path.Plain name)
      (hlink : ∀ text, tree.node? (name :: location) ≠ some (.link text))
      (rest : Leads tree links (name :: location) steps target) :
      Leads tree links location (name :: steps) target

theorem leads_of_follow (h : tree.follow links location steps = .ok target) :
    tree.Leads links location steps target := by
  fun_induction follow tree links location steps with
  | case1 links location steps hnone => cases h
  | case2 links location node hnode =>
    cases h
    exact .arrive hnode
  | case3 links location steps hdir ih => exact .here hdir (ih h)
  | case4 links location steps hdir _ ih => exact .above hdir (ih h)
  | case5 links location name steps hdir hhere habove hlong => cases h
  | case6 location name steps hdir hhere habove hlong text hlink => cases h
  | case7 location name steps hdir hhere habove hlong text hlink links next ih =>
    exact .link hdir ⟨hhere, habove, Nat.not_lt.mp hlong⟩ hlink (ih h)
  | case8 links location name steps hdir hhere habove hlong hlink ih =>
    exact .enter hdir ⟨hhere, habove, Nat.not_lt.mp hlong⟩ hlink (ih h)
  | case9 links location node name steps hother hnode => cases h

section Steps

variable (hdir : tree.node? location = some .directory)
include hdir

theorem follow_here : tree.follow links location (Path.here :: steps) =
    tree.follow links location steps := by
  rw [follow.eq_def, hdir]
  dsimp only
  rw [if_pos rfl]

theorem follow_above : tree.follow links location (Path.above :: steps) =
    tree.follow links location.tail steps := by
  rw [follow.eq_def, hdir]
  dsimp only
  rw [if_neg (by decide), if_pos rfl]

variable (hname : Path.Plain name)
include hname

theorem follow_link {text : Path} (hlink : tree.node? (name :: location) = some (.link text)) :
    tree.follow (links + 1) location (name :: steps) =
      tree.follow links (if text.isAbsolute then [] else location) (text.steps ++ steps) := by
  rw [follow.eq_def, hdir]
  dsimp only
  rw [if_neg hname.ne_here, if_neg hname.ne_above, if_neg (Nat.not_lt.mpr hname.length_le), hlink]

theorem follow_enter (hlink : ∀ text, tree.node? (name :: location) ≠ some (.link text)) :
    tree.follow links location (name :: steps) = tree.follow links (name :: location) steps := by
  rw [follow.eq_def, hdir]
  dsimp only
  rw [if_neg hname.ne_here, if_neg hname.ne_above, if_neg (Nat.not_lt.mpr hname.length_le)]
  split
  · next text htext => exact absurd htext (hlink text)
  · rfl

end Steps

theorem follow_of_leads (h : tree.Leads links location steps target) :
    tree.follow links location steps = .ok target := by
  induction h with
  | arrive hnode => rw [follow.eq_def, hnode]
  | here hdir _ ih => exact (follow_here hdir).trans ih
  | above hdir _ ih => exact (follow_above hdir).trans ih
  | link hdir hname hlink _ ih => exact (follow_link hdir hname hlink).trans ih
  | enter hdir hname hlink _ ih => exact (follow_enter hdir hname hlink).trans ih

namespace Leads

theorem node_eq (h : tree.Leads links location steps target) :
    tree.node? target.location = some target.node := by
  induction h with
  | arrive hnode => exact hnode
  | here _ _ ih => exact ih
  | above _ _ ih => exact ih
  | link _ _ _ _ ih => exact ih
  | enter _ _ _ _ ih => exact ih

theorem linksLeft_le (h : tree.Leads links location steps target) : target.linksLeft ≤ links := by
  induction h with
  | arrive _ => exact Nat.le_refl _
  | here _ _ ih => exact ih
  | above _ _ ih => exact ih
  | link _ _ _ _ ih => exact Nat.le_succ_of_le ih
  | enter _ _ _ _ ih => exact ih

/-- Where steps lead to a directory, all further steps are followed from there. -/
theorem through {stop : Location}
    (h : tree.Leads links location (steps ++ [Path.here]) ⟨stop, node, left⟩) :
    tree.node? stop = some .directory ∧
      ∀ more, tree.follow links location (steps ++ more) = tree.follow left stop more := by
  generalize hall : steps ++ [Path.here] = all at h
  generalize hend : (⟨stop, node, left⟩ : Target) = last at h
  induction h generalizing steps with
  | arrive _ => exact absurd hall (List.append_ne_nil_of_right_ne_nil _ (List.cons_ne_nil _ _))
  | @here links location rest last hdir hrest ih =>
    cases steps with
    | nil =>
      cases hall
      subst hend
      cases hrest
      exact ⟨hdir, fun more => rfl⟩
    | cons first steps =>
      cases hall
      obtain ⟨hstop, hall⟩ := ih rfl hend
      exact ⟨hstop, fun more => (follow_here hdir).trans (hall more)⟩
  | @above links location rest last hdir hrest ih =>
    cases steps with
    | nil => cases hall
    | cons first steps =>
      cases hall
      obtain ⟨hstop, hall⟩ := ih rfl hend
      exact ⟨hstop, fun more => (follow_above hdir).trans (hall more)⟩
  | @link links location name rest text last hdir hname hlink hrest ih =>
    cases steps with
    | nil =>
      cases hall
      exact absurd rfl hname.ne_here
    | cons first steps =>
      cases hall
      obtain ⟨hstop, hall⟩ := @ih (text.steps ++ steps) (List.append_assoc _ _ _) hend
      refine ⟨hstop, fun more => (follow_link hdir hname hlink).trans ?_⟩
      have hrest := hall more
      rw [List.append_assoc] at hrest
      exact hrest
  | @enter links location name rest last hdir hname hlink hrest ih =>
    cases steps with
    | nil =>
      cases hall
      exact absurd rfl hname.ne_here
    | cons first steps =>
      cases hall
      obtain ⟨hstop, hall⟩ := ih rfl hend
      exact ⟨hstop, fun more => (follow_enter hdir hname hlink).trans (hall more)⟩

end Leads

/-- How a path leads to the place of a plain file, which may not be there yet. -/
inductive Places (tree : FileTree) : ℕ → Location → Path → Location → Prop
  | free {links left : ℕ} {location stop : Location} {path : Path} {name : Name} {node : Node}
      (hslash : path.endsInSlash = false) (hlast : path.names.getLast? = some name)
      (hleads : tree.Leads links location (path.names.dropLast ++ [Path.here]) ⟨stop, node, left⟩)
      (hname : Path.Plain name) (hdir : tree.node? (name :: stop) ≠ some .directory)
      (hlink : ∀ text, tree.node? (name :: stop) ≠ some (.link text)) :
      Places tree links location path (name :: stop)
  | link {links left : ℕ} {location stop place : Location} {path text : Path} {name : Name}
      {node : Node} (hslash : path.endsInSlash = false) (hlast : path.names.getLast? = some name)
      (hleads : tree.Leads links location (path.names.dropLast ++ [Path.here])
        ⟨stop, node, left + 1⟩)
      (hname : Path.Plain name) (hlink : tree.node? (name :: stop) = some (.link text))
      (rest : Places tree left (if text.isAbsolute then [] else stop) text place) :
      Places tree links location path place

theorem places_of_placeOf (h : tree.placeOf links location path = .ok place) :
    tree.Places links location path place := by
  have hplain : ∀ {path : Path} {name : Name},
      ¬(path.endsInSlash = true ∨ name = Path.here ∨ name = Path.above) →
        ¬Path.nameLimit < name.length → path.endsInSlash = false ∧ Path.Plain name := by
    intro path name hnot hlong
    rw [not_or, not_or] at hnot
    exact ⟨Bool.eq_false_iff.mpr hnot.1, hnot.2.1, hnot.2.2, Nat.not_lt.mp hlong⟩
  fun_induction placeOf tree links location path with
  | case1 links location path hnone => cases h
  | case2 links location path name hlast e hfollow => cases h
  | case3 links location path name hlast stop node left hfollow hbad => cases h
  | case4 links location path name hlast stop node left hfollow hgood hlong => cases h
  | case5 links location path name hlast stop node left hfollow hgood hlong hdir => cases h
  | case6 links location path name hlast stop node left hfollow hgood hlong text hlink hmin =>
    cases h
  | case7 links location path name hlast stop node left hfollow hgood hlong text hlink fewer hmin
      ih =>
    have hleads := leads_of_follow hfollow
    have hle : left ≤ links := hleads.linksLeft_le
    have hleft : left = fewer + 1 := (Nat.min_eq_right hle).symm.trans hmin
    subst hleft
    obtain ⟨hslash, hname⟩ := hplain hgood hlong
    exact .link hslash hlast hleads hname hlink (ih h)
  | case8 links location path name hlast stop node left hfollow hgood hlong hdir hlink =>
    cases h
    obtain ⟨hslash, hname⟩ := hplain hgood hlong
    exact .free hslash hlast (leads_of_follow hfollow) hname hdir hlink

namespace Places

theorem ne_nil (h : tree.Places links location path place) : place ≠ [] := by
  induction h with
  | free _ _ _ _ _ _ => exact List.cons_ne_nil _ _
  | link _ _ _ _ _ _ ih => exact ih

theorem file (h : tree.Places links location path place) (hnode : tree.node? place = some node) :
    ∃ content, node = .file content := by
  induction h with
  | free _ _ _ _ hdir hlink =>
    cases node with
    | directory => exact absurd hnode hdir
    | file content => exact ⟨content, rfl⟩
    | link text => exact absurd hnode (hlink text)
  | link _ _ _ _ _ _ ih => exact ih hnode

theorem steps_eq (hslash : path.endsInSlash = false) (hlast : path.names.getLast? = some name) :
    path.steps = path.names.dropLast ++ [name] := by
  rw [Path.steps, hslash, if_neg Bool.false_ne_true]
  exact (List.dropLast_append_getLast? name hlast).symm

/-- The place of a path is where the path leads, once there is a file. -/
theorem follow_eq (h : tree.Places links location path place) :
    ∃ left, tree.follow links location path.steps = tree.follow left place [] := by
  induction h with
  | free hslash hlast hleads hname hdir hlink =>
    obtain ⟨hstop, hthrough⟩ := hleads.through
    rw [steps_eq hslash hlast, hthrough]
    exact ⟨_, follow_enter hstop hname hlink⟩
  | @link links left location stop place path text name node hslash hlast hleads hname hlink _ ih =>
    obtain ⟨hstop, hthrough⟩ := hleads.through
    obtain ⟨least, hrest⟩ := ih
    rw [steps_eq hslash hlast, hthrough, follow_link hstop hname hlink, List.append_nil]
    exact ⟨least, hrest⟩

end Places

/-- A tree to which files are added, or in which files are rewritten, and nothing else. -/
structure Grows (first second : FileTree) : Prop where
  base_eq : second.base = first.base
  kept : ∀ {location node}, first.node? location = some node →
    ∃ other, second.node? location = some other ∧ node.Alike other
  added : ∀ {location node}, first.node? location = none → second.node? location = some node →
    ∃ content, node = .file content

namespace Grows

variable (h : first.Grows second)
include h

theorem directory (hdir : first.node? location = some .directory) :
    second.node? location = some .directory := by
  obtain ⟨other, hother, halike⟩ := h.kept hdir
  rw [hother, halike.directory]

theorem link {text : Path} (hlink : first.node? location = some (.link text)) :
    second.node? location = some (.link text) := by
  obtain ⟨other, hother, halike⟩ := h.kept hlink
  rw [hother, halike.link]

/-- What is no file has been there before. -/
theorem back (hnode : second.node? location = some node)
    (hother : ∀ content, node ≠ .file content) :
    first.node? location = some node := by
  cases hbefore : first.node? location with
  | none =>
    obtain ⟨content, hfile⟩ := h.added hbefore hnode
    exact absurd hfile (hother content)
  | some before =>
    obtain ⟨after, hafter, halike⟩ := h.kept hbefore
    rw [hnode] at hafter
    cases hafter
    rcases halike with rfl | ⟨_, content, _, hfile⟩
    · rfl
    · exact absurd hfile (hother content)

theorem not_link (hlink : ∀ text, first.node? location ≠ some (.link text)) (text : Path) :
    second.node? location ≠ some (.link text) := by
  intro hnode
  exact hlink text (h.back hnode fun _ => Node.noConfusion)

theorem not_directory (hdir : first.node? location ≠ some .directory) :
    second.node? location ≠ some .directory := by
  intro hnode
  exact hdir (h.back hnode fun _ => Node.noConfusion)

/-- Paths keep leading to where they led. -/
theorem leads (hleads : first.Leads links location steps target) :
    ∃ other, second.Leads links location steps ⟨target.location, other, target.linksLeft⟩ := by
  induction hleads with
  | arrive hnode =>
    obtain ⟨other, hother, _⟩ := h.kept hnode
    exact ⟨other, .arrive hother⟩
  | here hdir _ ih =>
    obtain ⟨other, hrest⟩ := ih
    exact ⟨other, .here (h.directory hdir) hrest⟩
  | above hdir _ ih =>
    obtain ⟨other, hrest⟩ := ih
    exact ⟨other, .above (h.directory hdir) hrest⟩
  | link hdir hname hlink _ ih =>
    obtain ⟨other, hrest⟩ := ih
    exact ⟨other, .link (h.directory hdir) hname (h.link hlink) hrest⟩
  | enter hdir hname hlink _ ih =>
    obtain ⟨other, hrest⟩ := ih
    exact ⟨other, .enter (h.directory hdir) hname (h.not_link hlink) hrest⟩

theorem places (hplaces : first.Places links location path place) :
    second.Places links location path place := by
  induction hplaces with
  | free hslash hlast hleads hname hdir hlink =>
    obtain ⟨other, hother⟩ := h.leads hleads
    refine .free hslash hlast hother hname ?_ (h.not_link hlink)
    exact h.not_directory hdir
  | link hslash hlast hleads hname hlink _ ih =>
    obtain ⟨other, hother⟩ := h.leads hleads
    exact .link hslash hlast hother hname (h.link hlink) ih

theorem start_eq (path : Path) : second.start path = first.start path := by
  rw [start, start, h.base_eq]

end Grows

/-- The file that is found under a path is the one that is written under it. -/
theorem content?_eq_some_iff (hcheck : path.check = .ok ())
    (h : tree.Places linkLimit (tree.start path) path place) {content : Bytes} :
    tree.content? path = some content ↔ tree.node? place = some (.file content) := by
  obtain ⟨left, hfollow⟩ := h.follow_eq
  have hresolve : tree.resolve path = tree.follow left place [] := by
    rw [resolve, hcheck]
    exact hfollow
  rw [content?, hresolve, follow.eq_def]
  cases hnode : tree.node? place with
  | none => simp
  | some node =>
    obtain ⟨other, rfl⟩ := h.file hnode
    simp

section Put

/-- A place list in which one place holds another node. -/
def rewritten (place : Location) (node : Node) (entry : Location × Node) : Location × Node :=
  if entry.1 = place then (place, node) else entry

theorem fst_rewritten (place : Location) (node : Node) (entry : Location × Node) :
    (rewritten place node entry).1 = entry.1 := by
  unfold rewritten
  split
  · next h => exact h.symm
  · rfl

theorem find?_rewritten (place location : Location) (node : Node)
    (nodes : List (Location × Node)) :
    (nodes.map (rewritten place node)).find? (fun entry => entry.1 == location) =
      (nodes.find? fun entry => entry.1 == location).map (rewritten place node) := by
  rw [List.find?_map]
  congr 2
  funext entry
  exact congrArg (· == location) (fst_rewritten place node entry)

theorem put_of_mem (hany : tree.nodes.any (fun entry => entry.1 == place) = true) (node : Node) :
    tree.put place node = { tree with nodes := tree.nodes.map (rewritten place node) } :=
  if_pos hany

theorem put_of_not_mem (hnone : ¬tree.nodes.any (fun entry => entry.1 == place) = true)
    (node : Node) :
    tree.put place node = { tree with nodes := tree.nodes ++ [(place, node)] } := if_neg hnone

theorem find?_eq_none_of_not_any (hnone : ¬tree.nodes.any (fun entry => entry.1 == place) = true) :
    tree.nodes.find? (fun entry => entry.1 == place) = none := by
  rw [List.find?_eq_none]
  intro entry hmem hsame
  exact hnone (List.any_eq_true.mpr ⟨entry, hmem, hsame⟩)

theorem node?_put_self (hplace : place ≠ []) (node : Node) :
    (tree.put place node).node? place = some node := by
  rw [node?, if_neg hplace]
  by_cases hany : tree.nodes.any (fun entry => entry.1 == place) = true
  · rw [put_of_mem hany, find?_rewritten]
    obtain ⟨entry, hentry⟩ := Option.isSome_iff_exists.mp (List.find?_isSome.mpr
      (List.any_eq_true.mp hany))
    have hsame : entry.1 = place := by simpa using List.find?_some hentry
    rw [hentry, Option.map_some, Option.map_some, rewritten, if_pos hsame]
  · rw [put_of_not_mem hany, List.find?_append, find?_eq_none_of_not_any hany]
    simp

theorem node?_put_of_ne (hne : location ≠ place) (node : Node) :
    (tree.put place node).node? location = tree.node? location := by
  rw [node?, node?]
  split
  · rfl
  · by_cases hany : tree.nodes.any (fun entry => entry.1 == place) = true
    · rw [put_of_mem hany, find?_rewritten]
      cases hfind : tree.nodes.find? fun entry => entry.1 == location with
      | none => rfl
      | some entry =>
        have hsame : entry.1 = location := by simpa using List.find?_some hfind
        have hother : entry.1 ≠ place := fun h => hne (hsame.symm.trans h)
        rw [Option.map_some, Option.map_some, rewritten, if_neg hother]
        rfl
    · have hlast : ((place, node).1 == location) = false := beq_false_of_ne (Ne.symm hne)
      rw [put_of_not_mem hany, List.find?_append, List.find?_singleton, hlast]
      simp

theorem grows_put (hplace : place ≠ [])
    (hfile : ∀ node, tree.node? place = some node → ∃ content, node = .file content)
    (content : Bytes) : tree.Grows (tree.put place (.file content)) where
  base_eq := by
    unfold put
    split <;> rfl
  kept := by
    intro location node hnode
    by_cases hsame : location = place
    · subst hsame
      obtain ⟨other, rfl⟩ := hfile node hnode
      exact ⟨_, node?_put_self hplace _, .inr ⟨other, content, rfl, rfl⟩⟩
    · exact ⟨node, (node?_put_of_ne hsame _).trans hnode, .inl rfl⟩
  added := by
    intro location node hnone hnode
    by_cases hsame : location = place
    · subst hsame
      rw [node?_put_self hplace] at hnode
      cases hnode
      exact ⟨content, rfl⟩
    · rw [node?_put_of_ne hsame, hnone] at hnode
      cases hnode

theorem places_put (h : tree.Places linkLimit (tree.start path) path place) (content : Bytes) :
    (tree.put place (.file content)).Places linkLimit
      ((tree.put place (.file content)).start path) path place := by
  have hgrows := grows_put h.ne_nil (fun _ => h.file) content
  rw [hgrows.start_eq]
  exact hgrows.places h

theorem content?_put (hcheck : path.check = .ok ())
    (h : tree.Places linkLimit (tree.start path) path place) (content : Bytes) :
    (tree.put place (.file content)).content? path = some content :=
  (content?_eq_some_iff hcheck (places_put h content)).mpr (node?_put_self h.ne_nil _)

end Put

/-- Where everything can be read, the content of a file is what is seen of it. -/
theorem look_of_content? {content : Bytes} (h : tree.content? path = some content)
    (hread : tree.faults = []) : tree.look path = .ok (.file content) := by
  unfold content? at h
  split at h
  · next location found left hresolve =>
    cases h
    rw [look_of_resolve hresolve, sight, fault?, hread]
    rfl
  · cases h

/-- What is in the file under a path; nothing if there is none. -/
def contentAt (tree : FileTree) (path : Path) : Bytes := (tree.content? path).getD []

theorem contentAt_of_content? {content : Bytes} (h : tree.content? path = some content) :
    tree.contentAt path = content := by
  rw [contentAt, h]
  rfl

theorem contentAt_of_no_file (h : tree.content? path = none) : tree.contentAt path = [] := by
  rw [contentAt, h]
  rfl

/-- Opening for writing finds a place and leaves a file there. -/
theorem places_of_openForWriting {keep : Bool} {opened : FileTree}
    (h : tree.openForWriting keep path = .ok (opened, place)) :
    path.check = .ok () ∧ tree.Places linkLimit (tree.start path) path place ∧
      opened = tree.put place (.file (if keep then tree.contentAt path else [])) := by
  rw [openForWriting] at h
  cases hcheck : path.check with
  | error e =>
    rw [hcheck] at h
    cases h
  | ok _ =>
    cases hplace : tree.placeOf linkLimit (tree.start path) path with
    | error e =>
      rw [hcheck, hplace] at h
      cases h
    | ok found =>
      rw [hcheck, hplace] at h
      cases h
      have hplaces := places_of_placeOf hplace
      refine ⟨rfl, hplaces, ?_⟩
      cases hnode : tree.node? place with
      | none =>
        have hnone : tree.content? path = none := by
          rw [Option.eq_none_iff_forall_ne_some]
          intro content hcontent
          rw [content?_eq_some_iff hcheck hplaces, hnode] at hcontent
          cases hcontent
        rw [contentAt_of_no_file hnone, ite_self]
      | some node =>
        obtain ⟨content, rfl⟩ := hplaces.file hnode
        have hcontent := (content?_eq_some_iff hcheck hplaces).mpr hnode
        rw [contentAt_of_content? hcontent]

end FileTree

end PlaneArchive
