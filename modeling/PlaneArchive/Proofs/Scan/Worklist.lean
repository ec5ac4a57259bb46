import Mathlib.Data.Multiset.Bind
import Mathlib.Algebra.Group.Prod
import Mathlib.Tactic.Abel
import PlaneArchive.Scan.Sequential

/-! # Expanding paths in any order

The order in which paths are expanded makes no difference, as long as the work comes to an end.
What it yields then is what the waves of the sequential scan yield.
-/
namespace PlaneArchive

/-- Records in no particular order, and a number of dropped units of work. -/
abbrev Tally := Multiset FileRecord × ℕ

namespace ScanOutcome

def tally (outcome : ScanOutcome) : Tally := (↑outcome.records, outcome.skipped)

@[simp] theorem tally_empty : ({} : ScanOutcome).tally = 0 := rfl

@[simp] theorem tally_append (first second : ScanOutcome) :
    (first ++ second).tally = first.tally + second.tally := by
  change ((↑(first.records ++ second.records) : Multiset FileRecord), _) = _
  rw [← Multiset.coe_add]
  rfl

end ScanOutcome

def Expansion.tally (decoder : Gzip.MemberDecoder) (expansion : Expansion) : Tally :=
  (expansion.outcome decoder).tally

namespace Expansion

theorem tally_foldr (decoder : Gzip.MemberDecoder) (expansions : List Expansion) :
    (expansions.foldr (fun expansion rest => expansion.outcome decoder ++ rest)
      ({} : ScanOutcome)).tally = (expansions.map (Expansion.tally decoder)).sum := by
  induction expansions with
  | nil => rfl
  | cons expansion expansions ih =>
    rw [List.foldr_cons, ScanOutcome.tally_append, ih, List.map_cons, List.sum_cons]
    rfl

variable {tree : FileTree} {path found : Path}

theorem found_ofFile (path : Path) (content : Bytes) : (ofFile path content).found = [] := by
  unfold ofFile
  dsimp only
  split <;> rfl

theorem mem_found_iff :
    found ∈ (ofPath tree path).found ↔ ∃ entries name,
      tree.look path = .ok (.directory entries) ∧ (name, false) ∈ entries ∧
        found = path.join name := by
  unfold ofPath
  cases tree.look path with
  | error e => simp [ofSight, failure]
  | ok sight =>
    cases sight with
    | directory entries =>
      constructor
      · intro h
        obtain ⟨⟨name, isDirectory⟩, hentry, rfl⟩ := List.mem_map.mp h
        obtain ⟨hentry, hown⟩ := List.mem_filter.mp hentry
        cases isDirectory with
        | true => cases hown
        | false => exact ⟨entries, name, rfl, hentry, rfl⟩
      · rintro ⟨_, name, hlook, hentry, rfl⟩
        cases hlook
        exact List.mem_map.mpr ⟨_, List.mem_filter.mpr ⟨hentry, rfl⟩, rfl⟩
    | file content => simp [ofSight, found_ofFile]

theorem length_of_mem_found (h : found ∈ (ofPath tree path).found) :
    0 < path.length ∧ path.length < Path.pathLimit := by
  cases hcheck : path.check with
  | error e =>
    have hresolve : tree.resolve path = .error e := by
      rw [FileTree.resolve, hcheck]
      rfl
    rw [ofPath, FileTree.look_of_unresolved hresolve] at h
    cases h
  | ok _ =>
    unfold Path.check at hcheck
    split at hcheck
    · cases hcheck
    · split at hcheck
      · cases hcheck
      · split at hcheck
        · cases hcheck
        · next hempty hlong =>
          rw [List.isEmpty_iff] at hempty
          exact ⟨List.length_pos_iff.mpr hempty, by omega⟩

theorem length_lt_join {name : Name} (h : name ≠ []) : path.length < (path.join name).length := by
  have := List.length_pos_iff.mpr h
  unfold Path.join
  split
  · rw [List.length_append]
    omega
  · rw [List.length_append, List.length_cons]
    omega

/-- A path that was found is longer, unless it is the path of its own directory. -/
theorem length_lt_of_mem_found (h : found ∈ (ofPath tree path).found) :
    found = path ∨ path.length < found.length := by
  obtain ⟨_, name, _, _, rfl⟩ := mem_found_iff.mp h
  by_cases hname : name = []
  · subst hname
    unfold Path.join
    split
    · exact Or.inl (List.append_nil _)
    · right
      rw [List.length_append, List.length_singleton]
      omega
  · exact Or.inr (length_lt_join hname)

end Expansion

namespace Scan

/-- What paths yield that are expanded one by one, in any order, until no path is left. -/
inductive Yields (decoder : Gzip.MemberDecoder) (tree : FileTree) :
    Multiset Path → Tally → Prop where
  | nothing : Yields decoder tree 0 0
  | expand (path : Path) {rest : Multiset Path} {total : Tally}
      (h : Yields decoder tree (↑(Expansion.ofPath tree path).found + rest) total) :
      Yields decoder tree (path ::ₘ rest) ((Expansion.ofPath tree path).tally decoder + total)

/-- The tally of expanding each of some paths once. -/
def tallyOnce (decoder : Gzip.MemberDecoder) (tree : FileTree) (paths : Multiset Path) : Tally :=
  (paths.map fun path => (Expansion.ofPath tree path).tally decoder).sum

def foundOnce (tree : FileTree) (paths : Multiset Path) : Multiset Path :=
  paths.bind fun path => ↑(Expansion.ofPath tree path).found

variable {decoder : Gzip.MemberDecoder} {tree : FileTree} {paths rest : Multiset Path}
  {total : Tally}

theorem coe_nextWave (tree : FileTree) (wave : List Path) :
    (↑(nextWave tree wave) : Multiset Path) = foundOnce tree ↑wave :=
  (Multiset.coe_bind wave fun path => (Expansion.ofPath tree path).found).symm

theorem foundOnce_add (tree : FileTree) (paths more : Multiset Path) :
    foundOnce tree (paths + more) = foundOnce tree paths + foundOnce tree more :=
  Multiset.add_bind _ _ _

theorem foundOnce_cons (tree : FileTree) (path : Path) (paths : Multiset Path) :
    foundOnce tree (path ::ₘ paths) =
      ↑(Expansion.ofPath tree path).found + foundOnce tree paths := Multiset.cons_bind _ _ _

theorem tallyOnce_add (decoder : Gzip.MemberDecoder) (tree : FileTree)
    (paths more : Multiset Path) :
    tallyOnce decoder tree (paths + more) =
      tallyOnce decoder tree paths + tallyOnce decoder tree more := by
  rw [tallyOnce, Multiset.map_add, Multiset.sum_add]
  rfl

theorem tallyOnce_cons (decoder : Gzip.MemberDecoder) (tree : FileTree) (path : Path)
    (paths : Multiset Path) :
    tallyOnce decoder tree (path ::ₘ paths) =
      (Expansion.ofPath tree path).tally decoder + tallyOnce decoder tree paths := by
  rw [tallyOnce, Multiset.map_cons, Multiset.sum_cons]
  rfl

namespace Yields

theorem eq_zero (h : Yields decoder tree paths total) (hp : paths = 0) : total = 0 := by
  cases h with
  | nothing => rfl
  | expand path _ => exact absurd hp (Multiset.cons_ne_zero)

/-- A path that found itself would never be done with. -/
theorem not_mem_found (h : Yields decoder tree paths total) :
    ∀ path ∈ paths, path ∉ (Expansion.ofPath tree path).found := by
  induction h with
  | nothing =>
    intro path hmem
    exact absurd hmem (Multiset.notMem_zero _)
  | expand path _ ih =>
    intro other hmem
    rcases Multiset.mem_cons.mp hmem with rfl | hrest
    · intro hself
      exact ih other (Multiset.mem_add.mpr (Or.inl hself)) hself
    · exact ih other (Multiset.mem_add.mpr (Or.inr hrest))

/-- Several paths may be expanded before anything that they bring up. -/
theorem expandAll (h : Yields decoder tree (foundOnce tree paths + rest) total) :
    Yields decoder tree (paths + rest) (tallyOnce decoder tree paths + total) := by
  induction paths using Multiset.induction_on generalizing rest total with
  | empty => simpa [foundOnce, tallyOnce] using h
  | cons path paths ih =>
    rw [foundOnce_cons, add_assoc] at h
    have hpath := h.expand path
    rw [← Multiset.add_cons] at hpath
    have hrest := ih hpath
    rw [tallyOnce_cons, Multiset.cons_add, ← Multiset.add_cons, add_assoc, add_left_comm]
    exact hrest

/-- One wave may go first: what is left to come is what the paths of the next wave yield. -/
theorem wave (h : Yields decoder tree paths total) :
    ∃ later, Yields decoder tree (foundOnce tree paths) later ∧
      total = tallyOnce decoder tree paths + later := by
  induction h with
  | nothing => exact ⟨0, .nothing, rfl⟩
  | @expand path rest total _ ih =>
    obtain ⟨later, hlater, htotal⟩ := ih
    rw [foundOnce_add] at hlater
    refine ⟨tallyOnce decoder tree ↑(Expansion.ofPath tree path).found + later, ?_, ?_⟩
    · rw [foundOnce_cons]
      exact hlater.expandAll
    · rw [htotal, tallyOnce_add, tallyOnce_cons]
      abel

end Yields

theorem tally_runWaves {waves : ℕ} {wave : List Path} (h : Yields decoder tree ↑wave total)
    (hend : (nextWave tree)^[waves] wave = []) :
    (runWaves decoder tree waves wave).tally = total := by
  induction waves generalizing wave total with
  | zero =>
    have hnil : wave = [] := hend
    subst hnil
    rw [h.eq_zero rfl]
    rfl
  | succ waves ih =>
    obtain ⟨later, hlater, rfl⟩ := h.wave
    rw [← coe_nextWave] at hlater
    have hfirst : tallyOnce decoder tree ↑wave =
        ((wave.map (Expansion.ofPath tree)).map (Expansion.tally decoder)).sum := by
      rw [tallyOnce, Multiset.map_coe, Multiset.sum_coe, List.map_map]
      rfl
    have hfound : (wave.map (Expansion.ofPath tree)).flatMap Expansion.found =
        nextWave tree wave := by
      rw [List.flatMap_map]
      rfl
    rw [runWaves, hfound, hfirst]
    split
    · next hempty =>
      rw [List.isEmpty_iff] at hempty
      rw [hempty] at hlater
      rw [Expansion.tally_foldr, hlater.eq_zero rfl, add_zero]
    · rw [ScanOutcome.tally_append, Expansion.tally_foldr, ih hlater hend]

/-- Paths grow from wave to wave, and long ones lead nowhere. -/
theorem iterate_nextWave_eq_nil {waves : ℕ} {wave : List Path}
    (h : Yields decoder tree ↑wave total)
    (hlong : ∀ path ∈ wave, path = [] ∨ Path.pathLimit ≤ path.length + waves) :
    (nextWave tree)^[waves + 1] wave = [] := by
  induction waves generalizing wave total with
  | zero =>
    change nextWave tree wave = []
    rw [nextWave, List.flatMap_eq_nil_iff]
    intro path hmem
    rw [List.eq_nil_iff_forall_not_mem]
    intro found hfound
    obtain ⟨hpos, hlt⟩ := Expansion.length_of_mem_found hfound
    rcases hlong path hmem with rfl | hle
    · exact absurd hpos (Nat.lt_irrefl 0)
    · omega
  | succ waves ih =>
    obtain ⟨later, hlater, _⟩ := h.wave
    rw [← coe_nextWave] at hlater
    rw [Function.iterate_succ_apply]
    refine ih hlater fun found hmem => Or.inr ?_
    obtain ⟨path, hpath, hfound⟩ := List.mem_flatMap.mp hmem
    have hself := h.not_mem_found path (Multiset.mem_coe.mpr hpath)
    obtain ⟨hpos, _⟩ := Expansion.length_of_mem_found hfound
    rcases Expansion.length_lt_of_mem_found hfound with rfl | hlt
    · exact absurd hfound hself
    · rcases hlong path hpath with rfl | hle
      · exact absurd hpos (Nat.lt_irrefl 0)
      · omega

theorem iterate_nextWave_waveLimit {inputs : List Path} (h : Yields decoder tree ↑inputs total) :
    (nextWave tree)^[waveLimit] inputs = [] := by
  have hlimit : waveLimit = Path.pathLimit - 1 + 1 := by decide
  rw [hlimit]
  refine iterate_nextWave_eq_nil h fun path _ => ?_
  by_cases hempty : path = []
  · exact Or.inl hempty
  · have := List.length_pos_iff.mpr hempty
    right
    omega

/-- Whatever order the inputs and all that they bring up are expanded in, it yields what the
sequential scan yields. -/
theorem tally_run {inputs : List Path} (h : Yields decoder tree ↑inputs total) :
    (run decoder tree inputs).tally = total :=
  tally_runWaves h (iterate_nextWave_waveLimit h)

end Scan
end PlaneArchive
