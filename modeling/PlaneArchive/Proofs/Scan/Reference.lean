import PlaneArchive.Proofs.Scan.Expanding
import PlaneArchive.Proofs.Scan.GzipItems

/-! # What a scan is to yield

The rules of a scan, without queues and workers: what becomes of content under a name, what becomes
of one path, and how one path after another is taken from the front of a list, with what it brings
up put to the end. However the workers, the owner and the consumers interleave, once closing has
returned and the output is drained, the consumers have received what these rules yield, each path
has been expanded as often as it came up, and the counts are those of the rules.
-/
namespace PlaneArchive

/-- What becomes of content under a name. Gzip data is replaced by what its members hold, under the
name without its last ending; data that is not whole is dropped. Anything else stays as it is. -/
inductive Unpacks (decoder : Gzip.MemberDecoder) (name : String) (content : Bytes) :
    ScanOutcome → Prop where
  | plain (hname : ∀ stem, name ≠ stem ++ ".gz") :
      Unpacks decoder name content { records := [⟨name, content⟩] }
  | inflated {stem : String} {contents : List Bytes} (hname : name = stem ++ ".gz")
      (h : decoder.Splits content contents) :
      Unpacks decoder name content { records := [⟨stem, contents.flatten⟩] }
  | broken {stem : String} {contents : List Bytes} {rest : Bytes} (hname : name = stem ++ ".gz")
      (h : decoder.Breaks content contents rest) : Unpacks decoder name content { skipped := 1 }

/-- What becomes of members of a tar file, one after another. -/
inductive UnpacksAll (decoder : Gzip.MemberDecoder) : List Tar.Member → ScanOutcome → Prop where
  | nil : UnpacksAll decoder [] {}
  | cons {member : Tar.Member} {members : List Tar.Member} {outcome later : ScanOutcome}
      (h : Unpacks decoder (Utf8.lossy member.path) member.content outcome)
      (hmore : UnpacksAll decoder members later) :
      UnpacksAll decoder (member :: members) (outcome ++ later)

/-- The path leads to a file with this content, and the file can be read. -/
def FileTree.Reads (tree : FileTree) (path : Path) (content : Bytes) : Prop :=
  ∃ location left, tree.resolve path = .ok ⟨location, .file content, left⟩ ∧
    tree.fault? location = none

/-- What becomes of a path, and the paths that it brings up. -/
inductive Unfolds (decoder : Gzip.MemberDecoder) (tree : FileTree) (path : Path) :
    ScanOutcome → List Path → Prop where
  | nowhere {cause : IoError} (h : tree.resolve path = .error cause) :
      Unfolds decoder tree path { skipped := 1 } []
  | unreadable {target : Target} {cause : IoError} (h : tree.resolve path = .ok target)
      (hfault : tree.fault? target.location = some cause) :
      Unfolds decoder tree path { skipped := 1 } []
  /-- Links are followed, so this is for trees whose own starting place is a link. -/
  | link {location : Location} {text : Path} {left : ℕ}
      (h : tree.resolve path = .ok ⟨location, .link text, left⟩) :
      Unfolds decoder tree path { skipped := 1 } []
  | directory {location : Location} {left : ℕ}
      (h : tree.resolve path = .ok ⟨location, .directory, left⟩)
      (hread : tree.fault? location = none) :
      Unfolds decoder tree path {}
        (((tree.children location).filter fun child => !child.2.isDirectory).map fun child =>
          path.join child.1)
  | tar {stem : String} {content : Bytes} {members : List Tar.Member} {outcome : ScanOutcome}
      (h : tree.Reads path content) (hname : path.display = stem ++ ".tar")
      (hwalk : Tar.Walk { bytes := content } members none)
      (hkept : UnpacksAll decoder (members.filter Tar.Member.isKept) outcome) :
      Unfolds decoder tree path outcome []
  /-- Before the fault, members are handed on as if there were none. -/
  | brokenTar {stem : String} {content : Bytes} {members : List Tar.Member}
      {fault : Tar.TarFault} {outcome : ScanOutcome} (h : tree.Reads path content)
      (hname : path.display = stem ++ ".tar")
      (hwalk : Tar.Walk { bytes := content } members (some fault))
      (hkept : UnpacksAll decoder (members.filter Tar.Member.isKept) outcome) :
      Unfolds decoder tree path (outcome ++ { skipped := 1 }) []
  | file {content : Bytes} {outcome : ScanOutcome} (h : tree.Reads path content)
      (hname : ∀ stem, path.display ≠ stem ++ ".tar")
      (hcontent : Unpacks decoder path.display content outcome) :
      Unfolds decoder tree path outcome []

/-- Paths are taken from the front of a list and expanded, each once, and what it brings up is put
to the end; beside what comes of it, all paths that are expanded, in order. -/
inductive Scans (decoder : Gzip.MemberDecoder) (tree : FileTree) :
    List Path → List Path → ScanOutcome → Prop where
  | done : Scans decoder tree [] [] {}
  | expand {path : Path} {paths found expanded : List Path} {outcome later : ScanOutcome}
      (h : Unfolds decoder tree path outcome found)
      (rest : Scans decoder tree (paths ++ found) expanded later) :
      Scans decoder tree (path :: paths) (path :: expanded) (outcome ++ later)

variable {decoder : Gzip.MemberDecoder} {tree : FileTree} {name : String} {content : Bytes}
  {outcome other : ScanOutcome} {path : Path} {found : List Path}

namespace Unpacks

theorem outcome_eq (h : Unpacks decoder name content outcome) :
    outcome = (Item.ofContent name content).outcome decoder := by
  cases h with
  | plain hname =>
    have hgzip : ¬Item.isGzip name = true := by
      intro hgzip
      obtain ⟨stem, hstem⟩ := Item.isGzip_iff.mp hgzip
      exact hname stem hstem
    rw [Item.ofContent, if_neg hgzip]
    rfl
  | inflated hname h =>
    subst hname
    rw [Item.ofContent, if_pos (Item.isGzip_append _), Item.outcome, Item.deliver?, h.contents?_eq,
      Item.stripGzip_append]
    rfl
  | broken hname h =>
    subst hname
    rw [Item.ofContent, if_pos (Item.isGzip_append _), Item.outcome, Item.deliver?, h.contents?_eq]
    rfl

theorem of_item (decoder : Gzip.MemberDecoder) (name : String) (content : Bytes) :
    Unpacks decoder name content ((Item.ofContent name content).outcome decoder) := by
  have hsome : ∃ outcome, Unpacks decoder name content outcome := by
    by_cases hname : ∃ stem, name = stem ++ ".gz"
    · obtain ⟨stem, hstem⟩ := hname
      rcases decoder.splits_or_breaks content with ⟨contents, h⟩ | ⟨contents, rest, h⟩
      · exact ⟨_, .inflated hstem h⟩
      · exact ⟨_, .broken hstem h⟩
    · exact ⟨_, .plain fun stem hstem => hname ⟨stem, hstem⟩⟩
  obtain ⟨outcome, h⟩ := hsome
  rw [← h.outcome_eq]
  exact h

end Unpacks

namespace UnpacksAll

variable {members : List Tar.Member}

theorem foldr_eq (h : UnpacksAll decoder members outcome) (last : ScanOutcome) :
    (members.map Item.ofMember).foldr (fun item rest => item.outcome decoder ++ rest) last =
      outcome ++ last := by
  induction h with
  | nil => exact (ScanOutcome.empty_append last).symm
  | cons h _ ih =>
    rw [List.map_cons, List.foldr_cons, ih, ScanOutcome.append_assoc, h.outcome_eq]
    rfl

theorem exists_outcome (decoder : Gzip.MemberDecoder) (members : List Tar.Member) :
    ∃ outcome, UnpacksAll decoder members outcome := by
  induction members with
  | nil => exact ⟨_, .nil⟩
  | cons member members ih =>
    obtain ⟨later, hmore⟩ := ih
    exact ⟨_, .cons (.of_item decoder _ _) hmore⟩

end UnpacksAll

theorem FileTree.Reads.look_eq (h : tree.Reads path content) :
    tree.look path = .ok (.file content) := by
  obtain ⟨location, left, hresolve, hread⟩ := h
  rw [look_of_resolve hresolve, sight, hread]

namespace Unfolds

/-- A file that is taken as it is. -/
theorem plain (h : tree.Reads path content) (hname : path.display = name)
    (htar : Item.isTar name = false) (hgzip : Item.isGzip name = false) :
    Unfolds decoder tree path { records := [⟨name, content⟩] } [] := by
  subst hname
  refine .file h (fun stem hstem => ?_) (.plain fun stem hstem => ?_)
  · exact Bool.eq_false_iff.mp htar (Item.isTar_iff.mpr ⟨stem, hstem⟩)
  · exact Bool.eq_false_iff.mp hgzip (Item.isGzip_iff.mpr ⟨stem, hstem⟩)

/-- A gzip file of its own; no name has both endings. -/
theorem gzip {stem : String} {contents : List Bytes} (h : tree.Reads path content)
    (hname : path.display = stem ++ ".gz") (hsplits : decoder.Splits content contents) :
    Unfolds decoder tree path { records := [⟨stem, contents.flatten⟩] } [] := by
  have htar := Item.isTar_of_isGzip (Item.isGzip_iff.mpr ⟨stem, hname⟩)
  refine .file h (fun other hother => ?_) (.inflated hname hsplits)
  exact Bool.eq_false_iff.mp htar (Item.isTar_iff.mpr ⟨other, hother⟩)

theorem expansion_of_tar {stem : String} {members : List Tar.Member}
    {fault? : Option Tar.TarFault} (h : tree.Reads path content)
    (hname : path.display = stem ++ ".tar") (hwalk : Tar.Walk { bytes := content } members fault?)
    (hkept : UnpacksAll decoder (members.filter Tar.Member.isKept) outcome) :
    (Expansion.ofPath tree path).outcome decoder =
        outcome ++ { skipped := if fault?.isSome then 1 else 0 } ∧
      (Expansion.ofPath tree path).found = [] := by
  rw [Expansion.ofPath_of_tar (Item.isTar_iff.mpr ⟨stem, hname⟩) h.look_eq,
    Expansion.ofTar_of_walk hwalk]
  exact ⟨hkept.foldr_eq _, rfl⟩

/-- The rules for paths say what the library does about them. -/
theorem expansion_eq (h : Unfolds decoder tree path outcome found) :
    outcome = (Expansion.ofPath tree path).outcome decoder ∧
      found = (Expansion.ofPath tree path).found := by
  cases h with
  | nowhere h =>
    rw [Expansion.ofPath, FileTree.look_of_unresolved h]
    exact ⟨rfl, rfl⟩
  | @unreadable target cause h hfault =>
    rw [Expansion.ofPath, FileTree.look_of_resolve h, FileTree.sight_of_fault hfault]
    exact ⟨rfl, rfl⟩
  | @link location text left h =>
    rw [Expansion.ofPath, FileTree.look_of_resolve h, FileTree.sight]
    cases tree.fault? location with
    | none => exact ⟨rfl, rfl⟩
    | some cause => exact ⟨rfl, rfl⟩
  | directory h hread =>
    rw [Expansion.ofPath, FileTree.look_of_resolve h, FileTree.sight, hread]
    refine ⟨rfl, ?_⟩
    change _ = List.map _ (List.filter _ (List.map _ _))
    rw [List.filter_map, List.map_map]
    rfl
  | tar h hname hwalk hkept =>
    obtain ⟨houtcome, hfound⟩ := expansion_of_tar h hname hwalk hkept
    exact ⟨(houtcome.trans (ScanOutcome.append_empty _)).symm, hfound.symm⟩
  | brokenTar h hname hwalk hkept =>
    obtain ⟨houtcome, hfound⟩ := expansion_of_tar h hname hwalk hkept
    exact ⟨houtcome.symm, hfound.symm⟩
  | file h hname hcontent =>
    have hplain : ¬Item.isTar path.display = true := by
      intro htar
      obtain ⟨stem, hstem⟩ := Item.isTar_iff.mp htar
      exact hname stem hstem
    rw [Expansion.ofPath, h.look_eq, Expansion.ofSight, Expansion.ofFile, if_neg hplain]
    refine ⟨?_, rfl⟩
    rw [hcontent.outcome_eq]
    exact (ScanOutcome.append_empty _).symm

theorem exists_outcome (decoder : Gzip.MemberDecoder) (tree : FileTree) (path : Path) :
    ∃ outcome found, Unfolds decoder tree path outcome found := by
  cases hresolve : tree.resolve path with
  | error cause => exact ⟨_, _, .nowhere hresolve⟩
  | ok target =>
    obtain ⟨location, node, left⟩ := target
    cases hread : tree.fault? location with
    | some cause => exact ⟨_, _, .unreadable hresolve hread⟩
    | none =>
      cases node with
      | directory => exact ⟨_, _, .directory hresolve hread⟩
      | link text => exact ⟨_, _, .link hresolve⟩
      | file content =>
        have hcontent : tree.Reads path content := ⟨location, left, hresolve, hread⟩
        by_cases hname : ∃ stem, path.display = stem ++ ".tar"
        · obtain ⟨stem, hstem⟩ := hname
          obtain ⟨members, fault?, hwalk⟩ := Tar.exists_walk { bytes := content }
          obtain ⟨outcome, hkept⟩ :=
            UnpacksAll.exists_outcome decoder (members.filter Tar.Member.isKept)
          cases fault? with
          | none => exact ⟨_, _, .tar hcontent hstem hwalk hkept⟩
          | some fault => exact ⟨_, _, .brokenTar hcontent hstem hwalk hkept⟩
        · exact ⟨_, _, .file hcontent (fun stem hstem => hname ⟨stem, hstem⟩) (.of_item _ _ _)⟩

theorem of_expansion (decoder : Gzip.MemberDecoder) (tree : FileTree) (path : Path) :
    Unfolds decoder tree path ((Expansion.ofPath tree path).outcome decoder)
      (Expansion.ofPath tree path).found := by
  obtain ⟨outcome, found, h⟩ := exists_outcome decoder tree path
  obtain ⟨rfl, rfl⟩ := h.expansion_eq
  exact h

end Unfolds

namespace Scans

variable {paths wave rest expanded others : List Path}

theorem unique (h : Scans decoder tree paths expanded outcome)
    (hother : Scans decoder tree paths others other) : others = expanded ∧ other = outcome := by
  induction h generalizing others other with
  | done =>
    cases hother
    exact ⟨rfl, rfl⟩
  | expand h _ ih =>
    cases hother with
    | expand htwin hrest =>
      obtain ⟨rfl, rfl⟩ := h.expansion_eq
      obtain ⟨rfl, rfl⟩ := htwin.expansion_eq
      obtain ⟨rfl, rfl⟩ := ih hrest
      exact ⟨rfl, rfl⟩

/-- The paths that are expanded in sequence are those that are expanded in any order. -/
theorem expands (h : Scans decoder tree paths expanded outcome) :
    Scan.Expands tree ↑paths ↑expanded := by
  induction h with
  | done => exact .nothing
  | @expand path paths found expanded outcome later h _ ih =>
    obtain ⟨-, rfl⟩ := h.expansion_eq
    rw [← Multiset.coe_add, add_comm] at ih
    rw [← Multiset.cons_coe, ← Multiset.cons_coe]
    exact ih.expand path

/-- Where expanding in some order comes to an end, it does so in sequence. -/
theorem exists_of_expands {all : Multiset Path} (decoder : Gzip.MemberDecoder)
    (h : Scan.Expands tree ↑paths all) :
    ∃ expanded outcome, Scans decoder tree paths expanded outcome := by
  -- Each path that is expanded leaves one path less for the others.
  induction hcount : all.card using Nat.strong_induction_on generalizing paths all with
  | _ count ih =>
    cases paths with
    | nil => exact ⟨[], {}, .done⟩
    | cons path paths =>
      rw [← Multiset.cons_coe] at h
      obtain ⟨below, rfl, hrest⟩ := h.pop
      have hfewer : below.card < count := by
        rw [← hcount, Multiset.card_cons]
        exact Nat.lt_succ_self _
      rw [add_comm, Multiset.coe_add] at hrest
      obtain ⟨expanded, later, hscans⟩ := ih below.card hfewer hrest rfl
      exact ⟨_, _, .expand (.of_expansion decoder tree path) hscans⟩

/-- When the paths of one wave have been expanded, those of the next wave are left. -/
theorem after_wave (h : Scans decoder tree (wave ++ rest) expanded outcome) :
    ∃ others later, Scans decoder tree (rest ++ Scan.nextWave tree wave) others later ∧
      outcome = (wave.map (Expansion.ofPath tree)).foldr
        (fun expansion rest => expansion.outcome decoder ++ rest) {} ++ later := by
  induction wave generalizing rest expanded outcome with
  | nil =>
    refine ⟨expanded, outcome, ?_, (ScanOutcome.empty_append _).symm⟩
    rw [Scan.nextWave, List.flatMap_nil, List.append_nil]
    exact h
  | cons path wave ih =>
    rw [List.cons_append] at h
    cases h with
    | expand h hrest =>
      obtain ⟨rfl, rfl⟩ := h.expansion_eq
      rw [List.append_assoc] at hrest
      obtain ⟨others, later, hothers, hlater⟩ := ih hrest
      refine ⟨others, later, ?_, ?_⟩
      · rw [List.append_assoc] at hothers
        exact hothers
      · rw [hlater, List.map_cons, List.foldr_cons, ScanOutcome.append_assoc]

theorem runWaves_eq {waves : ℕ} (h : Scans decoder tree wave expanded outcome)
    (hend : (Scan.nextWave tree)^[waves] wave = []) :
    Scan.runWaves decoder tree waves wave = outcome := by
  induction waves generalizing wave expanded outcome with
  | zero =>
    obtain rfl : wave = [] := hend
    cases h
    rfl
  | succ waves ih =>
    rw [← List.append_nil wave] at h
    obtain ⟨others, later, hlater, rfl⟩ := h.after_wave
    rw [List.nil_append] at hlater
    have hfound : (wave.map (Expansion.ofPath tree)).flatMap Expansion.found =
        Scan.nextWave tree wave := by
      rw [List.flatMap_map]
      rfl
    rw [Scan.runWaves, hfound]
    split
    · next hempty =>
      rw [List.isEmpty_iff] at hempty
      rw [hempty] at hlater
      cases hlater
      exact (ScanOutcome.append_empty _).symm
    · rw [ih hlater hend]

end Scans

namespace Scan

variable {setup : Setup} {inputs : List Path} {state : State}

/-- Whatever the interleaving, the rules yield one outcome, in sequence, and it is what the
consumers receive, in any order, and what closing reports. Each path is expanded as often as the
rules expand it. The sequential scan has the same outcome, and its waves leave no path behind. -/
theorem drained_outcome (hr : Reachable setup inputs state) (hd : state.isDrained = true) :
    ∃ expanded outcome, Scans setup.decoder setup.tree inputs expanded outcome ∧
      (∀ others other, Scans setup.decoder setup.tree inputs others other →
        others = expanded ∧ other = outcome) ∧
      state.outcome.records.Perm outcome.records ∧
      state.skipped = outcome.skipped ∧
      state.emitted = outcome.records.length ∧
      (∀ events, (initial setup inputs).run? setup events = some state →
        ((initial setup inputs).expanded setup events).Perm expanded) ∧
      run setup.decoder setup.tree inputs = outcome ∧
      (nextWave setup.tree)^[waveLimit] inputs = [] := by
  have hs := reachable_invariant hr
  obtain ⟨hclosed, houtput⟩ := isDrained_iff.mp hd
  obtain ⟨events, hrun⟩ := exists_run?_of_reachable hr
  obtain ⟨hexpands, _⟩ := expands_of_closed hrun (isClosed_iff.mpr hclosed)
  obtain ⟨expanded, outcome, hscans⟩ := Scans.exists_of_expands setup.decoder hexpands
  have hwaves : (nextWave setup.tree)^[waveLimit] inputs = [] :=
    iterate_nextWave_waveLimit (yields_of_drained hs hd)
  have hsequential : run setup.decoder setup.tree inputs = outcome := hscans.runWaves_eq hwaves
  obtain ⟨hrecords, hskipped⟩ := outcome_of_drained hr hd
  rw [hsequential] at hrecords hskipped
  refine ⟨expanded, outcome, hscans, fun others other => hscans.unique, hrecords, hskipped, ?_, ?_,
    hsequential, hwaves⟩
  · rw [hs.emitted_eq, houtput, ← hrecords.length_eq, State.outcome, List.length_map]
    exact Nat.add_zero _
  · intro events hrun
    have hmachine := (expands_of_closed hrun (isClosed_iff.mpr hclosed)).1
    exact Multiset.coe_eq_coe.mp (hmachine.unique hscans.expands)

/-- The directory `/d` with the file `a`, the link `l` to it, the file `u` that cannot be read, the
gzip file `c.gz`, the broken tar file `t.tar`, and the directory `s` with the file `b`. -/
def mixedFolder : Setup where
  decoder := Gzip.member
  tree := {
    nodes := [([[100]], .directory), ([[97], [100]], .file [1]), ([[108], [100]], .link [97]),
      ([[117], [100]], .file [2]),
      ([[99, 46, 103, 122], [100]], .file (storedMember 65 [139, 158, 217, 211])),
      ([[116, 46, 116, 97, 114], [100]], .file [1, 2, 3]), ([[115], [100]], .directory),
      ([[98], [115], [100]], .file [9])]
    faults := [([[117], [100]], .permissionDenied)] }
  config := { expanders := 2, decompressors := 1 }
  consumers := 2

/-- The directory, and the path `/m` that leads nowhere. -/
def mixedInputs : List Path := [[47, 100], [47, 109]]

/-- What the directory brings up. -/
def mixedEntries : List Path :=
  [[47, 100, 47, 97], [47, 100, 47, 108], [47, 100, 47, 117], [47, 100, 47, 99, 46, 103, 122],
    [47, 100, 47, 116, 46, 116, 97, 114]]

/-- Rule by rule: the broken tar file, the file that cannot be read and the missing input cost one
unit each. -/
theorem scans_mixedFolder :
    Scans mixedFolder.decoder mixedFolder.tree mixedInputs (mixedInputs ++ mixedEntries)
      ⟨[⟨"/d/a", [1]⟩, ⟨"/d/l", [1]⟩, ⟨"/d/c", [65]⟩], 3⟩ := by
  have hfolder : Unfolds mixedFolder.decoder mixedFolder.tree [47, 100] {} mixedEntries := by
    have hfound : (((mixedFolder.tree.children [[100]]).filter fun child =>
        !child.2.isDirectory).map fun child => Path.join [47, 100] child.1) = mixedEntries := by cbv
    have hresolve : mixedFolder.tree.resolve [47, 100] = .ok ⟨[[100]], .directory, 40⟩ := by cbv
    rw [← hfound]
    exact .directory hresolve (by cbv)
  have hmissing : Unfolds mixedFolder.decoder mixedFolder.tree [47, 109] { skipped := 1 } [] :=
    @Unfolds.nowhere _ _ _ .noSuchFile (by cbv)
  have hplain : Unfolds mixedFolder.decoder mixedFolder.tree [47, 100, 47, 97]
      { records := [⟨"/d/a", [1]⟩] } [] :=
    .plain ⟨[[97], [100]], 40, by cbv, by cbv⟩ (by cbv) (by cbv) (by cbv)
  have hlink : Unfolds mixedFolder.decoder mixedFolder.tree [47, 100, 47, 108]
      { records := [⟨"/d/l", [1]⟩] } [] :=
    .plain ⟨[[97], [100]], 39, by cbv, by cbv⟩ (by cbv) (by cbv) (by cbv)
  have hunreadable : Unfolds mixedFolder.decoder mixedFolder.tree [47, 100, 47, 117]
      { skipped := 1 } [] :=
    @Unfolds.unreadable _ _ _ ⟨[[117], [100]], .file [2], 40⟩ .permissionDenied (by cbv) (by cbv)
  have hgzip : Unfolds mixedFolder.decoder mixedFolder.tree [47, 100, 47, 99, 46, 103, 122]
      { records := [⟨"/d/c", [65]⟩] } [] := by
    have hsplits : Gzip.member.Splits (storedMember 65 [139, 158, 217, 211]) [[65]] :=
      ⟨List.cons_ne_nil _ _, .member (by decide +kernel) (.stop [])⟩
    exact .gzip ⟨[[99, 46, 103, 122], [100]], 40, by cbv, by cbv⟩ (by cbv) hsplits
  have htar : Unfolds mixedFolder.decoder mixedFolder.tree [47, 100, 47, 116, 46, 116, 97, 114]
      { skipped := 1 } [] :=
    @Unfolds.brokenTar _ _ _ "/d/t" [1, 2, 3] [] .shortHeader {}
      ⟨[[116, 46, 116, 97, 114], [100]], 40, by cbv, by cbv⟩ (by cbv) (.breaks (by cbv)) .nil
  have hentries : Scans mixedFolder.decoder mixedFolder.tree mixedEntries mixedEntries
      ({ records := [⟨"/d/a", [1]⟩] } ++ ({ records := [⟨"/d/l", [1]⟩] } ++ ({ skipped := 1 } ++
        ({ records := [⟨"/d/c", [65]⟩] } ++ ({ skipped := 1 } ++ {}))))) :=
    .expand hplain (.expand hlink (.expand hunreadable (.expand hgzip (.expand htar .done))))
  have hall : Scans mixedFolder.decoder mixedFolder.tree mixedInputs (mixedInputs ++ mixedEntries)
      ({} ++ ({ skipped := 1 } ++ _)) := .expand hfolder (.expand hmissing hentries)
  exact hall

/-- The link is read before the file, and the gzip file is still in the queue when all paths have
been expanded. -/
def mixedPassEvents : List Event :=
  [.own, .own, .own, .take 0, .own, .act (.expander 0), .own, .act (.expander 0),
    .act (.expander 0), .act (.expander 0), .act (.expander 0), .act (.expander 0), .take 1,
    .act (.expander 0), .act (.expander 0), .act (.expander 1), .act (.expander 1),
    .act (.expander 0), .act (.expander 0), .take 1, .act (.expander 0), .take 0,
    .act (.expander 0), .receive 0, .act (.expander 1), .receive 1, .act (.expander 1), .take 1,
    .act (.expander 0), .act (.expander 1), .take 0, .act (.expander 0), .act (.expander 0),
    .act (.expander 1), .take 0, .act (.expander 0), .act (.expander 0), .own, .own, .own, .take 0,
    .take 1, .own, .own]

def mixedSettleEvents : List Event :=
  [.inflate 0, .act (.decompressor 0), .receive 1, .leave 0, .own]

def mixedFolderPassed : State where
  owner := .joiningDecompressors
  pending := 0
  jobs := []
  expanders := [.exited, .exited]
  gzipQueue := [("/d/c.gz", storedMember 65 [139, 158, 217, 211])]
  decompressors := [.idle]
  output := []
  received := [(0, ⟨"/d/l", [1]⟩), (1, ⟨"/d/a", [1]⟩)]
  emitted := 2
  skipped := 3

theorem drained_outcome_mixedFolder : ∃ state,
    (initial mixedFolder mixedInputs).run? mixedFolder (mixedPassEvents ++ mixedSettleEvents) =
      some state ∧
    state.isDrained = true ∧
    state.outcome.records.Perm [⟨"/d/a", [1]⟩, ⟨"/d/l", [1]⟩, ⟨"/d/c", [65]⟩] ∧
    state.skipped = 3 ∧ state.emitted = 3 ∧
    ((initial mixedFolder mixedInputs).expanded mixedFolder
      (mixedPassEvents ++ mixedSettleEvents)).Perm (mixedInputs ++ mixedEntries) ∧
    run Gzip.member mixedFolder.tree mixedInputs =
      ⟨[⟨"/d/a", [1]⟩, ⟨"/d/l", [1]⟩, ⟨"/d/c", [65]⟩], 3⟩ := by
  have hpass : (initial mixedFolder mixedInputs).run? mixedFolder mixedPassEvents =
      some mixedFolderPassed := by cbv
  have hsettle : (mixedFolderPassed.run? mixedFolder mixedSettleEvents).any State.isDrained =
      true := by decide +kernel
  obtain ⟨state, hrest, hd⟩ := (Option.any_eq_true _ _).mp hsettle
  have hrun : (initial mixedFolder mixedInputs).run? mixedFolder
      (mixedPassEvents ++ mixedSettleEvents) = some state := by
    rw [State.run?, List.foldlM_append, ← State.run?, hpass]
    exact hrest
  obtain ⟨expanded, outcome, _, hunique, hrecords, hskipped, hemitted, hpaths, hsequential, _⟩ :=
    drained_outcome (reachable_of_run? .start hrun) hd
  obtain ⟨rfl, rfl⟩ := hunique _ _ scans_mixedFolder
  exact ⟨state, hrun, hd, hrecords, hskipped, hemitted, hpaths _ hrun, hsequential⟩

end Scan

end PlaneArchive
