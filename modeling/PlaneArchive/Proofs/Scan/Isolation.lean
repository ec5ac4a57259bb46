import PlaneArchive.Proofs.FileTree.Resolution
import PlaneArchive.Proofs.Scan.Expanding

/-! # A broken file breaks nothing else

Two trees that differ in the bytes of one file bring up the same paths, and yield the same for every
path that does not lead to that file. So whatever the file holds, and however two scans go, they
agree on everything that does not come out of it.
-/
namespace PlaneArchive

namespace FileTree

variable {first second : FileTree} {place : Location} {path : Path}

/-- What a directory lists. -/
def entries (tree : FileTree) (location : Location) : List (Name × Bool) :=
  (tree.children location).map fun child => (child.1, child.2.isDirectory)

/-- Two trees with the same names, directories and links, and with the same files but for the bytes
of one, which may also be readable in one tree only. Directories may list their entries in different
orders. -/
structure DiffersOnlyAt (place : Location) (first second : FileTree) : Prop where
  base_eq : second.base = first.base
  first_file : ∃ content, first.node? place = some (.file content)
  second_file : ∃ content, second.node? place = some (.file content)
  elsewhere : ∀ location, location ≠ place → second.node? location = first.node? location
  fault_eq : ∀ location, location ≠ place → second.fault? location = first.fault? location
  entries_perm : ∀ location, (second.entries location).Perm (first.entries location)

/-- What is seen of a file hangs on nothing but the file. -/
theorem sight_eq_of_fault?_eq {location : Location} {node : Node} {left : ℕ}
    (hfault : second.fault? location = first.fault? location) (hdir : node ≠ .directory) :
    second.sight ⟨location, node, left⟩ = first.sight ⟨location, node, left⟩ := by
  rw [sight, sight, hfault]
  cases first.fault? location with
  | some cause => rfl
  | none =>
    cases node with
    | directory => exact absurd rfl hdir
    | file content => rfl
    | link text => rfl

/-- Does the path lead to this place? -/
def leadsTo (tree : FileTree) (place : Location) (path : Path) : Bool :=
  match tree.resolve path with
  | .ok target => target.location == place
  | .error _ => false

namespace DiffersOnlyAt

theorem symm (h : DiffersOnlyAt place first second) : DiffersOnlyAt place second first where
  base_eq := h.base_eq.symm
  first_file := h.second_file
  second_file := h.first_file
  elsewhere := fun location hne => (h.elsewhere location hne).symm
  fault_eq := fun location hne => (h.fault_eq location hne).symm
  entries_perm := fun location => (h.entries_perm location).symm

theorem grows (h : DiffersOnlyAt place first second) : first.Grows second where
  base_eq := h.base_eq
  kept := by
    intro location node hnode
    by_cases hplace : location = place
    · subst hplace
      obtain ⟨content, hfirst⟩ := h.first_file
      obtain ⟨other, hsecond⟩ := h.second_file
      rw [hnode] at hfirst
      cases hfirst
      exact ⟨_, hsecond, .inr ⟨content, other, rfl, rfl⟩⟩
    · exact ⟨node, (h.elsewhere location hplace).trans hnode, .inl rfl⟩
  added := by
    intro location node hnone hnode
    by_cases hplace : location = place
    · subst hplace
      obtain ⟨content, hfirst⟩ := h.first_file
      rw [hnone] at hfirst
      cases hfirst
    · rw [h.elsewhere location hplace, hnone] at hnode
      cases hnode

end DiffersOnlyAt

/-- Paths lead to the same place in both trees, or nowhere in both. -/
theorem Grows.resolve (h : first.Grows second) {target : Target}
    (hresolve : first.resolve path = .ok target) :
    ∃ node, second.resolve path = .ok ⟨target.location, node, target.linksLeft⟩ ∧
      first.node? target.location = some target.node ∧
      second.node? target.location = some node := by
  unfold FileTree.resolve at hresolve ⊢
  cases hcheck : path.check with
  | error e =>
    rw [hcheck] at hresolve
    cases hresolve
  | ok _ =>
    rw [hcheck] at hresolve
    have hleads := leads_of_follow hresolve
    obtain ⟨node, hother⟩ := h.leads hleads
    refine ⟨node, ?_, hleads.node_eq, hother.node_eq⟩
    rw [h.start_eq]
    exact follow_of_leads hother

end FileTree

namespace Expansion

/-- In two trees that differ in one file, a path brings up the same, and it yields the same unless
it leads to that file. -/
structure Agree (decoder : Gzip.MemberDecoder) (place : Location) (first second : FileTree)
    (path : Path) : Prop where
  leads_eq : second.leadsTo place path = first.leadsTo place path
  found_perm : (ofPath second path).found.Perm (ofPath first path).found
  tally_eq : first.leadsTo place path = false →
    (ofPath second path).tally decoder = (ofPath first path).tally decoder

variable {first second : FileTree} {place : Location}

theorem agree_of_same {decoder : Gzip.MemberDecoder} {path : Path}
    (hleads : second.leadsTo place path = first.leadsTo place path)
    (hsame : ofPath second path = ofPath first path) : Agree decoder place first second path where
  leads_eq := hleads
  found_perm := by rw [hsame]
  tally_eq := fun _ => by rw [hsame]

theorem found_of_file {tree : FileTree} {path : Path} {content : Bytes} {left : ℕ}
    (h : tree.resolve path = .ok ⟨place, .file content, left⟩) : (ofPath tree path).found = [] := by
  rw [ofPath, FileTree.look_of_resolve h, FileTree.sight]
  cases tree.fault? place with
  | some cause => rfl
  | none => exact found_ofFile path content

/-- A path that leads to the file itself brings up nothing in either tree. -/
theorem agree_of_place (h : FileTree.DiffersOnlyAt place first second)
    (decoder : Gzip.MemberDecoder) {path : Path} {node other : Node} {left : ℕ}
    (hfirst : first.resolve path = .ok ⟨place, node, left⟩)
    (hsecond : second.resolve path = .ok ⟨place, other, left⟩)
    (hnode : first.node? place = some node) (hother : second.node? place = some other) :
    Agree decoder place first second path := by
  obtain ⟨content, hcontent⟩ := h.first_file
  obtain ⟨changed, hchanged⟩ := h.second_file
  rw [hcontent] at hnode
  rw [hchanged] at hother
  cases hnode
  cases hother
  constructor
  · rw [FileTree.leadsTo, FileTree.leadsTo, hfirst, hsecond]
  · rw [found_of_file hfirst, found_of_file hsecond]
  · intro hnot
    rw [FileTree.leadsTo, hfirst] at hnot
    exact absurd (beq_self_eq_true place) (Bool.eq_false_iff.mp hnot)

theorem agree_of_elsewhere (h : FileTree.DiffersOnlyAt place first second)
    (decoder : Gzip.MemberDecoder) {path : Path} {location : Location} {node : Node} {left : ℕ}
    (hplace : location ≠ place) (hfirst : first.resolve path = .ok ⟨location, node, left⟩)
    (hsecond : second.resolve path = .ok ⟨location, node, left⟩) :
    Agree decoder place first second path := by
  have hleads : second.leadsTo place path = first.leadsTo place path := by
    rw [FileTree.leadsTo, FileTree.leadsTo, hfirst, hsecond]
  have hlook : ∀ tree : FileTree, tree.resolve path = .ok ⟨location, node, left⟩ →
      ofPath tree path = ofSight path (tree.sight ⟨location, node, left⟩) := by
    intro tree hresolve
    rw [ofPath, FileTree.look_of_resolve hresolve]
  have hfault : second.fault? location = first.fault? location := h.fault_eq location hplace
  by_cases hdir : node = .directory
  · subst hdir
    have hperm := (h.entries_perm location).filter fun entry => !entry.2
    constructor
    · exact hleads
    · rw [hlook first hfirst, hlook second hsecond, FileTree.sight, FileTree.sight, hfault]
      cases first.fault? location with
      | some cause => exact .refl _
      | none => exact hperm.map fun entry => path.join entry.1
    · intro _
      rw [hlook first hfirst, hlook second hsecond, FileTree.sight, FileTree.sight, hfault]
      cases first.fault? location with
      | some cause => rfl
      | none => rfl
  · refine agree_of_same hleads ?_
    rw [hlook first hfirst, hlook second hsecond, FileTree.sight_eq_of_fault?_eq hfault hdir]

theorem agree (h : FileTree.DiffersOnlyAt place first second) (decoder : Gzip.MemberDecoder)
    (path : Path) : Agree decoder place first second path := by
  cases hfirst : first.resolve path with
  | error e =>
    cases hsecond : second.resolve path with
    | error other =>
      apply agree_of_same
      · rw [FileTree.leadsTo, FileTree.leadsTo, hfirst, hsecond]
      · rw [ofPath, ofPath, FileTree.look_of_unresolved hfirst,
          FileTree.look_of_unresolved hsecond]
        rfl
    | ok target =>
      obtain ⟨node, hback, _⟩ := h.symm.grows.resolve hsecond
      rw [hfirst] at hback
      cases hback
  | ok target =>
    obtain ⟨other, hsecond, hnode, hother⟩ := h.grows.resolve hfirst
    obtain ⟨location, node, left⟩ := target
    by_cases hplace : location = place
    · subst hplace
      exact agree_of_place h decoder hfirst hsecond hnode hother
    · have hsame : other = node := by
        rw [h.elsewhere location hplace, hnode] at hother
        exact (Option.some.inj hother).symm
      subst hsame
      exact agree_of_elsewhere h decoder hplace hfirst hsecond

end Expansion

namespace Scan

/-- What is yielded by the paths among these that lead to a place. -/
def shareOf (setup : Setup) (place : Location) (paths : List Path) : Tally :=
  tallyOnce setup.decoder setup.tree ↑(paths.filter (setup.tree.leadsTo place))

/-- What is yielded by the others. -/
def othersOf (setup : Setup) (place : Location) (paths : List Path) : Tally :=
  tallyOnce setup.decoder setup.tree ↑(paths.filter fun path => !setup.tree.leadsTo place path)

variable {first second : Setup} {place : Location} {paths others : List Path}

theorem tallyOnce_eq_share_add_others (setup : Setup) (place : Location) (paths : List Path) :
    tallyOnce setup.decoder setup.tree ↑paths =
      shareOf setup place paths + othersOf setup place paths := by
  rw [shareOf, othersOf, ← tallyOnce_add, Multiset.coe_add]
  congr 1
  exact (Multiset.coe_eq_coe.mpr (List.filter_append_perm (setup.tree.leadsTo place) paths)).symm

theorem othersOf_eq (hdiff : FileTree.DiffersOnlyAt place first.tree second.tree)
    (hdecoder : second.decoder = first.decoder) (hperm : others.Perm paths) :
    othersOf second place others = othersOf first place paths := by
  have hleads : (fun path => !second.tree.leadsTo place path) =
      fun path => !first.tree.leadsTo place path := by
    funext path
    rw [(Expansion.agree hdiff first.decoder path).leads_eq]
  have hfilter : (↑(others.filter fun path => !first.tree.leadsTo place path) : Multiset Path) =
      ↑(paths.filter fun path => !first.tree.leadsTo place path) :=
    Multiset.coe_eq_coe.mpr (hperm.filter _)
  rw [othersOf, othersOf, hdecoder, hleads, hfilter, tallyOnce, tallyOnce]
  congr 1
  refine Multiset.map_congr rfl fun path hmem => ?_
  have hnot := (List.mem_filter.mp (Multiset.mem_coe.mp hmem)).2
  exact (Expansion.agree hdiff first.decoder path).tally_eq (Bool.not_eq_true' _ ▸ hnot)

variable {inputs : List Path} {events otherEvents : List Event} {state other : State}

theorem expanded_perm (hdiff : FileTree.DiffersOnlyAt place first.tree second.tree)
    (hfirst : (initial first inputs).run? first events = some state)
    (hclosed : state.isClosed = true)
    (hsecond : (initial second inputs).run? second otherEvents = some other)
    (hotherClosed : other.isClosed = true) :
    ((initial second inputs).expanded second otherEvents).Perm
      ((initial first inputs).expanded first events) := by
  have hpaths := (expands_of_closed hfirst hclosed).1
  have hothers := (expands_of_closed hsecond hotherClosed).1
  refine Multiset.coe_eq_coe.mp (hothers.unique (hpaths.congr fun path => ?_))
  exact Multiset.coe_eq_coe.mpr (Expansion.agree hdiff first.decoder path).found_perm

/-- Whatever the bytes of one file, and however two scans go, they expand the same paths, and what
comes out of them differs only in what the paths to that file yield. -/
theorem differs_only_in_share (hdiff : FileTree.DiffersOnlyAt place first.tree second.tree)
    (hdecoder : second.decoder = first.decoder)
    (hfirst : (initial first inputs).run? first events = some state)
    (hclosed : state.isClosed = true)
    (hsecond : (initial second inputs).run? second otherEvents = some other)
    (hotherClosed : other.isClosed = true) :
    let expanded := (initial first inputs).expanded first events
    let otherExpanded := (initial second inputs).expanded second otherEvents
    let share := shareOf first place expanded
    let otherShare := shareOf second place otherExpanded
    otherExpanded.Perm expanded ∧
      state.produced.tally = share + othersOf first place expanded ∧
      other.produced.tally = otherShare + othersOf first place expanded ∧
      (state.produced.records : Multiset FileRecord) - share.1 =
        (other.produced.records : Multiset FileRecord) - otherShare.1 ∧
      state.skipped - share.2 = other.skipped - otherShare.2 := by
  intro expanded otherExpanded share otherShare
  have hperm : otherExpanded.Perm expanded :=
    expanded_perm hdiff hfirst hclosed hsecond hotherClosed
  have htally : state.produced.tally = share + othersOf first place expanded :=
    (expands_of_closed hfirst hclosed).2.trans (tallyOnce_eq_share_add_others first place _)
  have hother : other.produced.tally = otherShare + othersOf first place expanded := by
    rw [← othersOf_eq hdiff hdecoder hperm]
    exact (expands_of_closed hsecond hotherClosed).2.trans
      (tallyOnce_eq_share_add_others second place _)
  have hrecords : (state.produced.records : Multiset FileRecord) =
      share.1 + (othersOf first place expanded).1 := congrArg Prod.fst htally
  have hotherRecords : (other.produced.records : Multiset FileRecord) =
      otherShare.1 + (othersOf first place expanded).1 := congrArg Prod.fst hother
  have hskipped : state.skipped = share.2 + (othersOf first place expanded).2 :=
    congrArg Prod.snd htally
  have hotherSkipped : other.skipped = otherShare.2 + (othersOf first place expanded).2 :=
    congrArg Prod.snd hother
  refine ⟨hperm, htally, hother, ?_, ?_⟩
  · rw [hrecords, hotherRecords, add_tsub_cancel_left, add_tsub_cancel_left]
  · rw [hskipped, hotherSkipped, Nat.add_sub_cancel_left, Nat.add_sub_cancel_left]

/-- The directory `/d` with the tar file `t.tar`, a link `l` to it, and the file `b`. -/
def tarAndLink (content : Bytes) : FileTree where
  nodes := [([[100]], .directory), ([[116, 46, 116, 97, 114], [100]], .file content),
    ([[108], [100]], .link [116, 46, 116, 97, 114]), ([[98], [100]], .file [9])]

theorem tarAndLink_differsOnlyAt (content other : Bytes) :
    FileTree.DiffersOnlyAt [[116, 46, 116, 97, 114], [100]] (tarAndLink content)
      (tarAndLink other) where
  base_eq := rfl
  first_file := ⟨content, rfl⟩
  second_file := ⟨other, rfl⟩
  elsewhere := by
    intro location hne
    have hother : ([[116, 46, 116, 97, 114], [100]] == location) = false :=
      beq_false_of_ne (Ne.symm hne)
    simp [FileTree.node?, tarAndLink, List.find?_cons, hother]
  fault_eq := fun _ _ => rfl
  entries_perm := by
    intro location
    by_cases hdir : [[100]] = location
    · subst hdir
      exact .refl _
    · simp [FileTree.entries, FileTree.children, tarAndLink, List.filterMap_cons, hdir]

/-- A tar file without entries. -/
def emptyTar : Setup where
  decoder := Gzip.member
  tree := tarAndLink []
  config := { expanders := 2, decompressors := 1 }
  consumers := 1

/-- A tar file that breaks off, and another configuration. -/
def brokenTar : Setup where
  decoder := Gzip.member
  tree := tarAndLink [1, 2, 3]
  config := { expanders := 1, decompressors := 1, outputCapacity? := some 0 }
  consumers := 1

def emptyTarEvents : List Event :=
  [.own, .own, .take 0, .act (.expander 0), .act (.expander 0), .act (.expander 0),
    .act (.expander 0), .act (.expander 0), .act (.expander 0), .act (.expander 0), .take 0,
    .act (.expander 0), .take 0, .act (.expander 0), .act (.expander 0), .take 0,
    .act (.expander 0), .act (.expander 0), .receive 0, .receive 0, .own, .own, .own, .take 0,
    .own, .take 1, .own, .own, .leave 0, .own]

def brokenTarEvents : List Event :=
  [.own, .own, .own, .take 0, .act (.expander 0), .act (.expander 0), .act (.expander 0),
    .act (.expander 0), .act (.expander 0), .act (.expander 0), .act (.expander 0), .take 0,
    .act (.expander 0), .act (.expander 0), .take 0, .handOver (.expander 0) 0, .act (.expander 0),
    .take 0, .handOver (.expander 0) 0, .act (.expander 0), .own, .own, .own, .take 0, .own,
    .leave 0, .own]

theorem differs_only_in_share_brokenTar : ∃ state other,
    (initial emptyTar [[47, 100]]).run? emptyTar emptyTarEvents = some state ∧
    (initial brokenTar [[47, 100]]).run? brokenTar brokenTarEvents = some other ∧
    state.produced = ⟨[⟨"/d/l", []⟩, ⟨"/d/b", [9]⟩], 0⟩ ∧
    other.produced = ⟨[⟨"/d/l", [1, 2, 3]⟩, ⟨"/d/b", [9]⟩], 1⟩ ∧
    ((initial brokenTar [[47, 100]]).expanded brokenTar brokenTarEvents).Perm
      ((initial emptyTar [[47, 100]]).expanded emptyTar emptyTarEvents) := by
  have hfirst : ((initial emptyTar [[47, 100]]).run? emptyTar emptyTarEvents).any
      (fun state => state.isClosed &&
        state.produced == ⟨[⟨"/d/l", []⟩, ⟨"/d/b", [9]⟩], 0⟩) = true := by cbv
  have hsecond : ((initial brokenTar [[47, 100]]).run? brokenTar brokenTarEvents).any
      (fun state => state.isClosed &&
        state.produced == ⟨[⟨"/d/l", [1, 2, 3]⟩, ⟨"/d/b", [9]⟩], 1⟩) = true := by cbv
  obtain ⟨state, hrun, hstate⟩ := (Option.any_eq_true _ _).mp hfirst
  obtain ⟨other, hotherRun, hother⟩ := (Option.any_eq_true _ _).mp hsecond
  obtain ⟨hclosed, hproduced⟩ := Bool.and_eq_true_iff.mp hstate
  obtain ⟨hotherClosed, hotherProduced⟩ := Bool.and_eq_true_iff.mp hother
  have hdiff : FileTree.DiffersOnlyAt _ emptyTar.tree brokenTar.tree :=
    tarAndLink_differsOnlyAt [] [1, 2, 3]
  have hall := differs_only_in_share hdiff rfl hrun hclosed hotherRun hotherClosed
  exact ⟨state, other, hrun, hotherRun, eq_of_beq hproduced, eq_of_beq hotherProduced, hall.1⟩

end Scan

end PlaneArchive
