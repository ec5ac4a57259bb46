import PlaneArchive.Proofs.Scan.ScheduleIndependence

/-! # Where records come from

Listing a directory leaves out the entries that are directories themselves, but not the links that
lead to directories. Every record comes from a file whose path is an input, with one name joined to
it for each directory on the way; and every file that can be reached in this way is received. So one
level of a directory is scanned exactly as far as none of its links leads to a directory.
-/
namespace PlaneArchive.Scan

/-- The last path is the first one with names joined to it. Every path but the last leads to a
directory, and every name is in that directory without being a directory itself. -/
inductive Descends (tree : FileTree) : Path → List Name → Path → Prop where
  | here (path : Path) : Descends tree path [] path
  | enter {path last : Path} {entries : List (Name × Bool)} {name : Name} {names : List Name}
      (hlook : tree.look path = .ok (.directory entries)) (hentry : (name, false) ∈ entries)
      (h : Descends tree (path.join name) names last) : Descends tree path (name :: names) last

/-- The record is one of those that the file under the path yields. -/
def ComesFrom (setup : Setup) (path : Path) (record : FileRecord) : Prop :=
  ∃ content, setup.tree.look path = .ok (.file content) ∧
    record ∈ ((Expansion.ofFile path content).outcome setup.decoder).records

variable {setup : Setup} {inputs : List Path} {state : State} {tree : FileTree}
  {path last : Path} {names : List Name} {record : FileRecord}

theorem mem_tally_ofPath_iff :
    record ∈ ((Expansion.ofPath setup.tree path).tally setup.decoder).1 ↔
      ComesFrom setup path record := by
  unfold Expansion.ofPath ComesFrom Expansion.tally
  cases setup.tree.look path with
  | error e => simp [Expansion.ofSight, Expansion.failure, Expansion.outcome, ScanOutcome.tally]
  | ok sight =>
    cases sight with
    | directory entries =>
      simp [Expansion.ofSight, Expansion.ofDirectory, Expansion.outcome, ScanOutcome.tally]
    | file content => simp [Expansion.ofSight, ScanOutcome.tally]

theorem Descends.snoc {entries : List (Name × Bool)} {name : Name}
    (h : Descends tree path names last) (hlook : tree.look last = .ok (.directory entries))
    (hentry : (name, false) ∈ entries) :
    Descends tree path (names ++ [name]) (last.join name) := by
  induction h with
  | here path => exact .enter hlook hentry (.here _)
  | enter hfirst hname _ ih => exact .enter hfirst hname (ih hlook)

/-- Whatever an account holds can be traced back to an input. -/
structure Traced (setup : Setup) (inputs : List Path) (account : Account) : Prop where
  paths : ∀ path ∈ account.1, ∃ input ∈ inputs, ∃ names, Descends setup.tree input names path
  records : ∀ record ∈ account.2.1, ∃ input ∈ inputs, ∃ names path,
    Descends setup.tree input names path ∧ ComesFrom setup path record

theorem Traced.advances {before after : Account} (hs : Traced setup inputs before)
    (h : Advances setup.decoder setup.tree before after) : Traced setup inputs after := by
  rcases h with rfl | ⟨path, rest, total, rfl, rfl⟩
  · exact hs
  · obtain ⟨input, hinput, names, hpath⟩ := hs.paths path (Multiset.mem_cons_self _ _)
    constructor
    · intro found hmem
      rcases Multiset.mem_add.mp hmem with hfound | hrest
      · obtain ⟨entries, name, hlook, hentry, rfl⟩ :=
          Expansion.mem_found_iff.mp (Multiset.mem_coe.mp hfound)
        exact ⟨input, hinput, names ++ [name], hpath.snoc hlook hentry⟩
      · exact hs.paths found (Multiset.mem_cons_of_mem hrest)
    · intro record hmem
      rcases Multiset.mem_add.mp hmem with hnew | hold
      · exact ⟨input, hinput, names, path, hpath, mem_tally_ofPath_iff.mp hnew⟩
      · exact hs.records record hold

theorem traced_of_reachable (h : Reachable setup inputs state) :
    Traced setup inputs (state.account setup.decoder) := by
  induction h with
  | start =>
    have haccount : (initial setup inputs).account setup.decoder = (↑inputs, 0) := by
      rw [State.account, load_initial, add_zero]
      exact Prod.ext (add_zero (↑inputs : Multiset Path)) rfl
    rw [haccount]
    constructor
    · intro path hmem
      exact ⟨path, Multiset.mem_coe.mp hmem, [], .here path⟩
    · intro record hmem
      exact absurd hmem (Multiset.notMem_zero record)
  | step event _ hnext ih => exact ih.advances (move_of_next? hnext).account

/-- What has been received or waits to be received is part of the account. -/
theorem mem_account_of_emitted (decoder : Gzip.MemberDecoder)
    (h : record ∈ state.received.map (·.2) ++ state.output) :
    record ∈ (state.account decoder).2.1 := by
  have hstored : record ∈ (state.delivered decoder).1 := by
    refine Multiset.mem_add.mpr (Or.inl ?_)
    rw [Multiset.coe_add]
    exact Multiset.mem_coe.mpr h
  exact Multiset.mem_add.mpr (Or.inl hstored)

/-- Files that can be reached from some of the paths are part of what these paths yield. -/
theorem Yields.mem_of_descends {paths : Multiset Path} {total : Tally}
    (h : Yields setup.decoder setup.tree paths total) (hmem : path ∈ paths)
    (hpath : Descends setup.tree path names last) (hrecord : ComesFrom setup last record) :
    record ∈ total.1 := by
  induction h generalizing path names with
  | nothing => exact absurd hmem (Multiset.notMem_zero path)
  | expand first _ ih =>
    refine Multiset.mem_add.mpr ?_
    rcases Multiset.mem_cons.mp hmem with rfl | hrest
    · cases hpath with
      | here => exact Or.inl (mem_tally_ofPath_iff.mpr hrecord)
      | enter hlook hentry hlater =>
        have hfound := Expansion.mem_found_iff.mpr ⟨_, _, hlook, hentry, rfl⟩
        exact Or.inr (ih (Multiset.mem_add.mpr (Or.inl (Multiset.mem_coe.mpr hfound))) hlater)
    · exact Or.inr (ih (Multiset.mem_add.mpr (Or.inr hrest)) hpath)

/-- Without links to directories among the entries, nothing lies deeper than the entries. -/
theorem Descends.one_level {entries : List (Name × Bool)} {content : Bytes}
    (h : Descends tree path names last) (hlook : tree.look path = .ok (.directory entries))
    (hlinks : ∀ name, (name, false) ∈ entries → ∀ inner,
      tree.look (path.join name) ≠ .ok (.directory inner))
    (hlast : tree.look last = .ok (.file content)) :
    ∃ name, (name, false) ∈ entries ∧ last = path.join name := by
  cases h with
  | here =>
    rw [hlook] at hlast
    cases hlast
  | @enter _ _ _ name _ hlook' hentry hlater =>
    rw [hlook] at hlook'
    cases hlook'
    cases hlater with
    | here => exact ⟨name, hentry, rfl⟩
    | enter hinner _ _ => exact absurd hinner (hlinks name hentry _)

/-- In every state, each emitted record comes from a file that is reached from an input through
entries that are not directories themselves; so from a direct entry, if the input is a directory
none of whose links leads to a directory. Once the scan is drained, every such file has been
received. -/
theorem emitted_through_entries (hr : Reachable setup inputs state) :
    (∀ record ∈ state.received.map (·.2) ++ state.output, ∃ input ∈ inputs, ∃ names path,
      Descends setup.tree input names path ∧ ComesFrom setup path record ∧
        ∀ entries, setup.tree.look input = .ok (.directory entries) →
          (∀ name, (name, false) ∈ entries → ∀ inner,
            setup.tree.look (input.join name) ≠ .ok (.directory inner)) →
          ∃ name, (name, false) ∈ entries ∧ path = input.join name) ∧
      (state.isDrained = true → ∀ input ∈ inputs, ∀ names path record,
        Descends setup.tree input names path → ComesFrom setup path record →
          record ∈ state.outcome.records) := by
  constructor
  · intro record hmem
    obtain ⟨input, hinput, names, path, hpath, hcomes⟩ :=
      (traced_of_reachable hr).records record (mem_account_of_emitted setup.decoder hmem)
    refine ⟨input, hinput, names, path, hpath, hcomes, ?_⟩
    intro entries hlook hlinks
    obtain ⟨content, hfile, _⟩ := hcomes
    exact hpath.one_level hlook hlinks hfile
  · intro hd input hinput names path record hpath hcomes
    have htotal := yields_of_drained (reachable_invariant hr) hd
    exact Multiset.mem_coe.mp (htotal.mem_of_descends (Multiset.mem_coe.mpr hinput) hpath hcomes)

/-- The directory `/d` with the directory `s` in it, the file `f` in `s`, and the link `l` from `/d`
to `s`. -/
def linkedDirectory : Setup where
  decoder := Gzip.member
  tree := {
    nodes := [([[100]], .directory), ([[115], [100]], .directory),
      ([[102], [115], [100]], .file [1]), ([[108], [100]], .link [115])] }
  config := { expanders := 1, decompressors := 1 }
  consumers := 1

def linkedDirectoryEvents : List Event :=
  [.own, .own, .own, .take 0, .act (.expander 0), .act (.expander 0), .act (.expander 0),
    .take 0, .act (.expander 0), .act (.expander 0), .act (.expander 0),
    .take 0, .act (.expander 0), .act (.expander 0), .receive 0,
    .own, .own, .own, .take 0, .own, .leave 0, .own]

theorem exists_drained_linkedDirectory : ∃ state, Reachable linkedDirectory [[47, 100]] state ∧
    state.isDrained = true ∧ ⟨"/d/l/f", [1]⟩ ∈ state.outcome.records := by
  have hend : (State.run? linkedDirectory (initial linkedDirectory [[47, 100]])
      linkedDirectoryEvents).any (fun state => state.isDrained &&
        state.outcome.records.contains ⟨"/d/l/f", [1]⟩) = true := by cbv
  obtain ⟨state, hrun, hstate⟩ := (Option.any_eq_true _ _).mp hend
  obtain ⟨hd, hrecord⟩ := Bool.and_eq_true_iff.mp hstate
  exact ⟨state, reachable_of_run? .start hrun, hd, List.contains_iff_mem.mp hrecord⟩

theorem emitted_through_entries_linkedDirectory : ∃ state names path,
    Reachable linkedDirectory [[47, 100]] state ∧
      ⟨"/d/l/f", [1]⟩ ∈ state.received.map (·.2) ++ state.output ∧
      Descends linkedDirectory.tree [47, 100] names path ∧
      ComesFrom linkedDirectory path ⟨"/d/l/f", [1]⟩ := by
  obtain ⟨state, hr, _, hrecord⟩ := exists_drained_linkedDirectory
  have hmem := List.mem_append_left state.output hrecord
  obtain ⟨input, hinput, names, path, hpath, hcomes, _⟩ := (emitted_through_entries hr).1 _ hmem
  cases List.mem_singleton.mp hinput
  exact ⟨state, names, path, hr, hmem, hpath, hcomes⟩

/-- Not every record comes from an entry of the directory that was given: the file `f` is received
by way of the link. -/
theorem linked_directory_is_entered : ∃ state record entries,
    Reachable linkedDirectory [[47, 100]] state ∧ state.isDrained = true ∧
      record ∈ state.outcome.records ∧
      linkedDirectory.tree.look [47, 100] = .ok (.directory entries) ∧
      ∀ name, (name, false) ∈ entries →
        ¬ ComesFrom linkedDirectory (Path.join [47, 100] name) record := by
  obtain ⟨state, hr, hd, hrecord⟩ := exists_drained_linkedDirectory
  have hentries : linkedDirectory.tree.look [47, 100] =
      .ok (.directory [([115], true), ([108], false)]) := by cbv
  have hinner : linkedDirectory.tree.look (Path.join [47, 100] [108]) =
      .ok (.directory [([102], false)]) := by cbv
  refine ⟨state, ⟨"/d/l/f", [1]⟩, _, hr, hd, hrecord, hentries, ?_⟩
  intro name hmem
  have hname : name = [108] := by simpa using hmem
  rintro ⟨content, hfile, _⟩
  rw [hname, hinner] at hfile
  cases hfile

end PlaneArchive.Scan
