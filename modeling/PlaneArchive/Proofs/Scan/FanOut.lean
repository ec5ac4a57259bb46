import PlaneArchive.Proofs.FileTree.Entries
import PlaneArchive.Proofs.Scan.Expanding
import PlaneArchive.Proofs.Scan.Origins

/-! # Directory fan-out comes to an end

Paths that a directory brings up are expanded as well, and a link may lead back to a directory that
has been listed before, so the same directory is listed under longer and longer paths. Each time
more links are followed on the way to it, and there is a limit to that. So paths have a rank that
falls with every listing, and the path that would go beyond the limit is dropped.
-/
namespace PlaneArchive.Scan

/-- Expanding paths, one by one and in any order, has used up some and left others. -/
inductive Exhausts (tree : FileTree) : Multiset Path → Multiset Path → Multiset Path → Prop where
  | rest (paths : Multiset Path) : Exhausts tree paths 0 paths
  | expand (path : Path) {paths done left : Multiset Path}
      (h : Exhausts tree (↑(Expansion.ofPath tree path).found + paths) done left) :
      Exhausts tree (path ::ₘ paths) (path ::ₘ done) left

/-- How many more times what is found below a path can be listed, the path included. -/
def rank (tree : FileTree) (path : Path) : ℕ :=
  match tree.resolve path with
  | .ok ⟨_, .directory, left⟩ => left + 1
  | _ => 0

/-- A path that is dropped, which counts once, and that brings nothing up. -/
structure Dropped (setup : Setup) (path : Path) : Prop where
  found_eq : (Expansion.ofPath setup.tree path).found = []
  tally_eq : (Expansion.ofPath setup.tree path).tally setup.decoder = (0, 1)

variable {setup : Setup} {tree : FileTree} {inputs : List Path} {state : State}
  {events : List Event} {path found last : Path} {names : List Name} {location : Location}
  {left : ℕ} {paths all done : Multiset Path}

theorem rank_of_directory (h : tree.resolve path = .ok ⟨location, .directory, left⟩) :
    rank tree path = left + 1 := by
  rw [rank, h]

theorem rank_le (tree : FileTree) (path : Path) : rank tree path ≤ FileTree.linkLimit + 1 := by
  unfold rank
  split
  · next left h => exact Nat.succ_le_succ (FileTree.linksLeft_le_of_resolve h)
  · exact Nat.zero_le _

/-- Whatever a path brings up has a lower rank. -/
theorem rank_lt_of_mem_found (hwf : tree.WellFormed)
    (h : found ∈ (Expansion.ofPath tree path).found) : rank tree found < rank tree path := by
  obtain ⟨entries, name, hlook, hentry, rfl⟩ := Expansion.mem_found_iff.mp h
  obtain ⟨location, left, hresolve, rfl⟩ := FileTree.look_eq_directory hlook
  obtain ⟨node, hchild, hown⟩ := FileTree.exists_child_of_entry hentry
  rw [rank_of_directory hresolve]
  unfold rank
  split
  · next place fewer hagain =>
    have hlt := (hwf.relisted hresolve hchild hown hagain rfl).2
    exact Nat.succ_lt_succ hlt
  · exact Nat.succ_pos left

theorem exists_expands_of_forall (h : ∀ path ∈ paths, ∃ all, Expands tree {path} all) :
    ∃ all, Expands tree paths all := by
  induction paths using Multiset.induction_on with
  | empty => exact ⟨0, .nothing⟩
  | cons path paths ih =>
    obtain ⟨first, hfirst⟩ := h path (Multiset.mem_cons_self path paths)
    obtain ⟨others, hothers⟩ := ih fun other hmem => h other (Multiset.mem_cons_of_mem hmem)
    rw [← Multiset.singleton_add]
    exact ⟨first + others, hfirst.add hothers⟩

theorem exists_expands (hwf : tree.WellFormed) (paths : Multiset Path) :
    ∃ all, Expands tree paths all := by
  -- A path is done with once all paths of lower rank are that it brings up.
  have hpath : ∀ bound path, rank tree path < bound → ∃ all, Expands tree {path} all := by
    intro bound
    induction bound with
    | zero => exact fun path hlt => absurd hlt (Nat.not_lt_zero _)
    | succ bound ih =>
      intro path hlt
      obtain ⟨below, hbelow⟩ : ∃ all, Expands tree ↑(Expansion.ofPath tree path).found all := by
        refine exists_expands_of_forall fun found hmem => ih found ?_
        have hlower := rank_lt_of_mem_found hwf (Multiset.mem_coe.mp hmem)
        omega
      rw [← add_zero (↑(Expansion.ofPath tree path).found : Multiset Path)] at hbelow
      exact ⟨_, hbelow.expand path⟩
  exact exists_expands_of_forall fun path _ => hpath _ path (Nat.lt_succ_self _)

/-- What is left over is expanded later. -/
theorem Exhausts.expands {rest later : Multiset Path} (h : Exhausts tree paths done rest)
    (hlater : Expands tree rest later) : Expands tree paths (done + later) := by
  induction h with
  | rest paths =>
    rw [zero_add]
    exact hlater
  | expand path _ ih =>
    rw [Multiset.cons_add]
    exact (ih hlater).expand path

theorem Expands.exhausts (h : Expands tree paths all) : Exhausts tree paths all 0 := by
  induction h with
  | nothing => exact .rest 0
  | expand path _ ih => exact ih.expand path

theorem Expands.ne_zero (h : Expands tree paths all) (hsome : paths ≠ 0) : all ≠ 0 := by
  cases h with
  | nothing => exact absurd rfl hsome
  | expand path _ => exact Multiset.cons_ne_zero

/-- However far some paths have been expanded, and in whatever order, the rest of all is to come. -/
theorem Expands.split_of_exhausts (hwf : tree.WellFormed) (h : Expands tree paths all)
    {rest : Multiset Path} (hdone : Exhausts tree paths done rest) :
    done ≤ all ∧ (rest = 0 ↔ done = all) := by
  obtain ⟨later, hlater⟩ := exists_expands hwf rest
  have hall : all = done + later := h.unique (hdone.expands hlater)
  rw [hall]
  refine ⟨Multiset.le_add_right done later, ?_⟩
  constructor
  · intro hrest
    rw [hlater.eq_zero hrest, add_zero]
  · intro hsame
    by_contra hsome
    exact hlater.ne_zero hsome (add_eq_left.mp hsame.symm)

/-- In a run of the scan, whose expanders interleave, no path is expanded that is not one of all. -/
theorem expanded_le_of_run? (hwf : setup.tree.WellFormed) (hall : Expands setup.tree ↑inputs all)
    (h : (initial setup inputs).run? setup events = some state) :
    ↑((initial setup inputs).expanded setup events) ≤ all := by
  obtain ⟨later, hlater⟩ := exists_expands hwf (state.account setup.decoder).1
  have hexpands := (account_of_run? h).2 later hlater
  rw [account_initial] at hexpands
  rw [hall.unique hexpands]
  exact Multiset.le_add_right _ _

theorem Descends.length_add_rank_le (hwf : tree.WellFormed) (h : Descends tree path names last) :
    names.length + rank tree last ≤ rank tree path := by
  induction h with
  | here path => exact (Nat.zero_add _).le
  | @enter path last entries name names hlook hentry _ ih =>
    have hfound := Expansion.mem_found_iff.mpr ⟨entries, name, hlook, hentry, rfl⟩
    have hlower := rank_lt_of_mem_found hwf hfound
    rw [List.length_cons]
    omega

theorem dropped_of_look_error {e : IoError} (h : setup.tree.look path = .error e) :
    Dropped setup path := by
  constructor
  · rw [Expansion.ofPath, h]
    rfl
  · rw [Expansion.ofPath, h]
    rfl

/-- Where no more link may be followed, a link leads nowhere. -/
theorem dropped_of_no_links_left (hwf : setup.tree.WellFormed)
    (h : setup.tree.resolve path = .ok ⟨location, .directory, 0⟩) {name : Name} {text : Path}
    (hlink : (name, .link text) ∈ setup.tree.children location) :
    Dropped setup (path.join name) := by
  obtain ⟨hname, hnode⟩ := hwf.child hlink
  cases hresolve : setup.tree.resolve (path.join name) with
  | error e =>
    exact dropped_of_look_error (FileTree.look_of_unresolved hresolve)
  | ok target =>
    exact absurd (FileTree.linksLeft_lt_of_link hname h hnode hresolve) (Nat.not_lt_zero _)

/-- Fan-out ends on every tree: in all orders of expansion the inputs bring up the same paths, and
once these have been expanded nothing is left. A directory that is listed again under a path that it
brought up was found as a link, and more links are followed on the way to it; so no chain of
listings is longer than that many links, and one that comes to the limit ends in a dropped path. -/
theorem fan_out_ends (hwf : setup.tree.WellFormed) (inputs : List Path) :
    (∃ all, Exhausts setup.tree ↑inputs all 0 ∧
      (∀ done rest, Exhausts setup.tree ↑inputs done rest → done ≤ all ∧ (rest = 0 ↔ done = all)) ∧
      ∀ events state, (initial setup inputs).run? setup events = some state →
        ↑((initial setup inputs).expanded setup events) ≤ all ∧
        (state.isClosed = true → ↑((initial setup inputs).expanded setup events) = all)) ∧
    (∀ path name entries again, setup.tree.look path = .ok (.directory entries) →
      (name, false) ∈ entries → setup.tree.look (path.join name) = .ok (.directory again) →
        setup.tree.EndsInLink path name ∧ ∃ before after,
          setup.tree.linksFollowed? path = some before ∧
          setup.tree.linksFollowed? (path.join name) = some after ∧
          before < after ∧ after ≤ FileTree.linkLimit) ∧
    (∀ path names last, Descends setup.tree path names last →
      names.length ≤ FileTree.linkLimit + 1) ∧
    (∀ path location name text,
      setup.tree.resolve path = .ok ⟨location, .directory, 0⟩ →
        (name, .link text) ∈ setup.tree.children location → Dropped setup (path.join name)) ∧
    ∀ path e, setup.tree.look path = .error e → Dropped setup path := by
  refine ⟨?_, ?_, ?_, ?_, fun path e => dropped_of_look_error⟩
  · obtain ⟨all, hall⟩ := exists_expands hwf ↑inputs
    refine ⟨all, hall.exhausts, fun done rest => hall.split_of_exhausts hwf, ?_⟩
    intro events state hrun
    refine ⟨expanded_le_of_run? hwf hall hrun, fun hclosed => ?_⟩
    exact (expands_of_closed hrun hclosed).1.unique hall
  · intro path name entries again hlook hentry hagain
    obtain ⟨location, left, hresolve, rfl⟩ := FileTree.look_eq_directory hlook
    obtain ⟨place, fewer, hplace, _⟩ := FileTree.look_eq_directory hagain
    obtain ⟨node, hchild, hown⟩ := FileTree.exists_child_of_entry hentry
    obtain ⟨⟨text, rfl⟩, hlt⟩ := hwf.relisted hresolve hchild hown hplace rfl
    have hleft : left ≤ FileTree.linkLimit := FileTree.linksLeft_le_of_resolve hresolve
    refine ⟨⟨_, text, hresolve, (hwf.child hchild).2⟩, FileTree.linkLimit - left,
      FileTree.linkLimit - fewer, ?_, ?_, ?_, Nat.sub_le _ _⟩
    · rw [FileTree.linksFollowed?, hresolve]
    · rw [FileTree.linksFollowed?, hplace]
    · dsimp only at hlt
      omega
  · intro path names last hpath
    have hlength := hpath.length_add_rank_le hwf
    have hrank := rank_le setup.tree path
    omega
  · intro path location name text hresolve hlink
    exact dropped_of_no_links_left hwf hresolve hlink

/-- A directory `/d` whose only entry `l` is a link to the directory itself. -/
def selfLinked : Setup where
  decoder := Gzip.member
  tree := { nodes := [([[100]], .directory), ([[108], [100]], .link Path.here)] }
  config := {}
  consumers := 1

/-- The path that goes through the link forty times. -/
def selfLinkedPath : Path := [47, 100] ++ (List.replicate 40 [47, 108]).flatten

set_option maxRecDepth 4096 in
theorem fan_out_ends_selfLinked :
    selfLinked.tree.WellFormed ∧ (∃ all, Exhausts selfLinked.tree {[47, 100]} all 0) ∧
      selfLinked.tree.EndsInLink [47, 100] [108] ∧
      selfLinked.tree.resolve selfLinkedPath = .ok ⟨[[100]], .directory, 0⟩ ∧
      Dropped selfLinked (selfLinkedPath.join [108]) := by
  have hwf : selfLinked.tree.WellFormed := ⟨by decide, by decide⟩
  obtain ⟨⟨all, hall, -⟩, hlinks, -, hlimit, -⟩ := fan_out_ends hwf [[47, 100]]
  have hfirst : selfLinked.tree.look [47, 100] = .ok (.directory [([108], false)]) := by cbv
  have hagain : selfLinked.tree.look [47, 100, 47, 108] = .ok (.directory [([108], false)]) := by
    cbv
  have hlast : selfLinked.tree.resolve selfLinkedPath = .ok ⟨[[100]], .directory, 0⟩ := by cbv
  refine ⟨hwf, ⟨all, hall⟩, ?_, hlast, ?_⟩
  · exact (hlinks _ _ _ _ hfirst List.mem_cons_self hagain).1
  · exact hlimit _ _ _ _ hlast List.mem_cons_self

end PlaneArchive.Scan
