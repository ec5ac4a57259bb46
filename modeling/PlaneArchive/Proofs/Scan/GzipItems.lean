import PlaneArchive.Proofs.Gzip.Members
import PlaneArchive.Proofs.Scan.Endings
import PlaneArchive.Proofs.Scan.Tasks
import PlaneArchive.Proofs.Scan.TarFiles

/-! # Gzip items are delivered whole or dropped

Whatever is named `.gz`, be it a file of its own or an entry of a tar file, is passed on to the
decompressors and not emitted as it is. A decompressor emits one record for it, or drops it and
counts that, depending on nothing but the bytes.
-/
namespace PlaneArchive

namespace Item

theorem isGzip_of_ofContent {name other : String} {content gzip : Bytes}
    (h : ofContent name content = .compressed other gzip) : isGzip other = true := by
  unfold ofContent at h
  split at h
  · next hgzip =>
    cases h
    exact hgzip
  · cases h

end Item

namespace Scan

/-- What a decompressor does about gzip data: it emits one record with the contents of all members,
under the name without its ending, or nothing but a skip. -/
inductive Settles (setup : Setup) : Task → Effect → Prop where
  | whole {name : String} {gzip : Bytes} {contents : List Bytes} (hname : Item.isGzip name = true)
      (h : setup.decoder.Splits gzip contents) :
      Settles setup (.decompress name gzip) (.emit ⟨Item.stripGzip name, contents.flatten⟩)
  | broken {name : String} {gzip rest : Bytes} {contents : List Bytes}
      (hname : Item.isGzip name = true) (h : setup.decoder.Breaks gzip contents rest) :
      Settles setup (.decompress name gzip) .skip

/-- What an expander does about an entry of a tar file: gzip data is passed on, anything else is
emitted. -/
def Effect.ofEntry (entry : Tar.Entry) : Effect :=
  let name := Utf8.lossy entry.path
  if Item.isGzip name then .pass name entry.content else .emit ⟨name, entry.content⟩

namespace Effect

variable {effect : Effect} {name : String} {gzip : Bytes}

theorem ofItem_ofContent (entry : Tar.Entry) :
    ofItem (Item.ofContent (Utf8.lossy entry.path) entry.content) = ofEntry entry := by
  rw [Item.ofContent, ofEntry]
  split <;> rfl

theorem whole_ofEntry (entry : Tar.Entry) : (ofEntry entry).whole = [ofEntry entry] := by
  unfold ofEntry
  dsimp only
  split <;> rfl

theorem eq_pass_of_mem_whole (h : .pass name gzip ∈ effect.whole) : effect = .pass name gzip := by
  cases effect with
  | count path =>
    rcases List.mem_cons.mp h with he | he
    · cases he
    · cases List.mem_singleton.mp he
  | _ => exact (List.mem_singleton.mp h).symm

theorem passed?_eq_some_iff : effect.passed? = some (name, gzip) ↔ effect = .pass name gzip := by
  constructor
  · intro h
    cases effect with
    | pass other content =>
      cases h
      rfl
    | _ => cases h
  · rintro rfl
    rfl

end Effect

variable {setup : Setup} {inputs : List Path} {state : State} {events : List Event} {name : String}
  {gzip content : Bytes} {path : Path}

theorem exists_plan_eq (hname : Item.isGzip name = true) (gzip : Bytes) :
    ∃ effect, (Task.decompress name gzip).plan setup = [effect] ∧
      Settles setup (.decompress name gzip) effect := by
  rcases setup.decoder.splits_or_breaks gzip with ⟨contents, h⟩ | ⟨contents, rest, h⟩
  · refine ⟨_, ?_, .whole hname h⟩
    rw [Task.plan, Task.effects, Effect.ofCompressed, Item.deliver?, h.contents?_eq]
    rfl
  · refine ⟨_, ?_, .broken hname h⟩
    rw [Task.plan, Task.effects, Effect.ofCompressed, Item.deliver?, h.contents?_eq]
    rfl

/-- The same bytes have the same fate under all names. -/
theorem settles_alike {other : String} {effect twin : Effect}
    (h : Settles setup (.decompress name gzip) effect)
    (htwin : Settles setup (.decompress other gzip) twin) :
    (∃ content, effect = .emit ⟨Item.stripGzip name, content⟩ ∧
        twin = .emit ⟨Item.stripGzip other, content⟩) ∨
      effect = .skip ∧ twin = .skip := by
  cases h with
  | whole _ hsplits =>
    cases htwin with
    | whole _ hother =>
      have hsame := hsplits.contents?_eq.symm.trans hother.contents?_eq
      rw [Option.some_inj] at hsame
      exact Or.inl ⟨_, rfl, by rw [hsame]⟩
    | broken _ hother => cases hsplits.contents?_eq.symm.trans hother.contents?_eq
  | broken _ hbreaks =>
    cases htwin with
    | whole _ hother => cases hbreaks.contents?_eq.symm.trans hother.contents?_eq
    | broken _ _ => exact Or.inr ⟨rfl, rfl⟩

theorem flatMap_whole_eq {effects : List Effect} (h : ∀ effect ∈ effects, effect.whole = [effect]) :
    effects.flatMap Effect.whole = effects := by
  induction effects with
  | nil => rfl
  | cons effect effects ih =>
    rw [List.flatMap_cons, h effect List.mem_cons_self,
      ih fun other hmem => h other (List.mem_cons_of_mem _ hmem)]
    rfl

/-- A file of its own is passed on as a whole. -/
theorem plan_of_file (hname : Item.isGzip path.display = true)
    (hlook : setup.tree.look path = .ok (.file gzip)) :
    (Task.expand path).plan setup = [.pass path.display gzip, .done] := by
  rw [Task.plan, Task.effects, Expansion.ofPath, hlook, Expansion.ofSight, Expansion.ofFile,
    if_neg (by rw [Item.isTar_of_isGzip hname]; exact Bool.false_ne_true), Item.ofContent,
    if_pos hname]
  rfl

theorem plan_of_tar (htar : Item.isTar path.display = true)
    (hlook : setup.tree.look path = .ok (.file content)) :
    (Task.expand path).plan setup =
      (Tar.extract content).entries.map Effect.ofEntry ++
        (if (Tar.extract content).fault?.isSome then [.skip] else []) ++ [.done] := by
  have heffects : Effect.ofExpansion (Expansion.ofPath setup.tree path) =
      (Tar.extract content).entries.map Effect.ofEntry ++
        (if (Tar.extract content).fault?.isSome then [.skip] else []) ++ [.done] := by
    rw [Expansion.ofPath_of_tar htar hlook, Effect.ofExpansion, Expansion.ofTar]
    simp only [List.map_map, Function.comp_def, Effect.ofItem_ofContent, List.map_nil,
      List.append_nil]
  rw [Task.plan, Task.effects, heffects, List.flatMap_append, List.flatMap_append,
    flatMap_whole_eq]
  · split <;> rfl
  · intro effect hmem
    obtain ⟨entry, _, rfl⟩ := List.mem_map.mp hmem
    exact Effect.whole_ofEntry entry

theorem isGzip_of_mem_items (h : .compressed name gzip ∈ (Expansion.ofPath setup.tree path).items) :
    Item.isGzip name = true := by
  unfold Expansion.ofPath at h
  cases hlook : setup.tree.look path with
  | error e =>
    rw [hlook] at h
    cases h
  | ok sight =>
    rw [hlook] at h
    cases sight with
    | directory entries => cases h
    | file content =>
      rw [Expansion.ofSight, Expansion.ofFile] at h
      split at h
      · obtain ⟨entry, _, hentry⟩ := List.mem_map.mp h
        exact Item.isGzip_of_ofContent hentry
      · exact Item.isGzip_of_ofContent (List.mem_singleton.mp h).symm

/-- Nothing is passed on but what is named as gzip data. -/
theorem isGzip_of_mem_plan {task : Task} (h : .pass name gzip ∈ task.plan setup) :
    Item.isGzip name = true := by
  obtain ⟨effect, heffect, hwhole⟩ := List.mem_flatMap.mp h
  obtain rfl := Effect.eq_pass_of_mem_whole hwhole
  cases task with
  | decompress other content =>
    rw [Task.effects, Effect.ofCompressed] at heffect
    split at heffect <;> cases List.mem_singleton.mp heffect
  | expand path =>
    rw [Task.effects, Effect.ofExpansion, List.mem_append, List.mem_append, List.mem_append]
      at heffect
    rcases heffect with ((hitem | hfound) | hfailed) | hdone
    · obtain ⟨item, hmem, he⟩ := List.mem_map.mp hitem
      cases item with
      | record record => cases he
      | compressed other content =>
        cases he
        exact isGzip_of_mem_items hmem
    · obtain ⟨path, _, he⟩ := List.mem_map.mp hfound
      cases he
    · split at hfailed
      · cases List.mem_singleton.mp hfailed
      · cases hfailed
    · cases List.mem_singleton.mp hdone

theorem forall₂_flatMap {α β : Type} {R : α → β → Prop} {f : α → List β} {xs : List α}
    (h : ∀ x ∈ xs, ∃ y, f x = [y] ∧ R x y) : List.Forall₂ R xs (xs.flatMap f) := by
  induction xs with
  | nil => exact .nil
  | cons x xs ih =>
    obtain ⟨y, hy, hrel⟩ := h x List.mem_cons_self
    rw [List.flatMap_cons, hy]
    exact .cons hrel (ih fun other hmem => h other (List.mem_cons_of_mem _ hmem))

/-- In a scan that has been closed, every decompressor has settled the gzip data that it took, one
after another. -/
theorem settles_of_closed (hrun : (initial setup inputs).run? setup events = some state)
    (hc : state.isClosed = true) (index : ℕ) :
    List.Forall₂ (Settles setup)
      (ofWorker (.decompressor index) ((initial setup inputs).trace setup State.begun? events))
      (ofWorker (.decompressor index)
        ((initial setup inputs).trace setup State.carried? events)) := by
  obtain ⟨hplans, hpassed, _⟩ := tasks_of_closed hrun hc
  rw [hplans]
  refine forall₂_flatMap ?_
  intro task hmem
  have hbegun := mem_ofWorker_iff.mp hmem
  obtain ⟨_, event, hevent⟩ := exists_of_mem_trace hbegun
  obtain ⟨name, gzip, rfl⟩ := exists_of_begun? hevent
  -- What a decompressor takes has been passed on by some worker, as part of one of its tasks.
  have hgzip : (name, gzip) ∈ ((initial setup inputs).trace setup State.begun? events).flatMap
      (fun entry => entry.2.gzip?.toList) :=
    List.mem_flatMap.mpr ⟨_, hbegun, List.mem_singleton.mpr rfl⟩
  rw [hpassed] at hgzip
  obtain ⟨⟨worker, effect⟩, hcarried, heffect⟩ := List.mem_flatMap.mp hgzip
  obtain rfl := Effect.passed?_eq_some_iff.mp (Option.mem_toList.mp heffect)
  have hworker := mem_ofWorker_iff.mpr hcarried
  rw [hplans] at hworker
  obtain ⟨other, _, hplan⟩ := List.mem_flatMap.mp hworker
  exact exists_plan_eq (isGzip_of_mem_plan hplan) gzip

/-- Gzip data is delivered whole or dropped. What is named `.gz`, on its own or in a tar file, is
passed on by the expanders, which emit nothing for it; all that is passed on is taken by the
decompressors, each of which emits one record, or skips, for each of the items that it takes. -/
theorem gzip_items_are_all_or_nothing
    (hrun : (initial setup inputs).run? setup events = some state) (hc : state.isClosed = true) :
    (∀ stem : String,
        Item.isGzip (stem ++ ".gz") = true ∧ Item.stripGzip (stem ++ ".gz") = stem) ∧
      (∀ path gzip, Item.isGzip path.display = true → setup.tree.look path = .ok (.file gzip) →
        (Task.expand path).plan setup = [.pass path.display gzip, .done]) ∧
      (∀ path content, Item.isTar path.display = true →
        setup.tree.look path = .ok (.file content) →
        (Task.expand path).plan setup = (Tar.extract content).entries.map Effect.ofEntry ++
          (if (Tar.extract content).fault?.isSome then [.skip] else []) ++ [.done]) ∧
      (∀ index, ofWorker (.expander index)
          ((initial setup inputs).trace setup State.carried? events) =
        (ofWorker (.expander index)
          ((initial setup inputs).trace setup State.begun? events)).flatMap (Task.plan setup)) ∧
      ((initial setup inputs).trace setup State.begun? events).flatMap
          (fun entry => entry.2.gzip?.toList) =
        ((initial setup inputs).trace setup State.carried? events).flatMap
          (fun entry => entry.2.passed?.toList) ∧
      (∀ index, List.Forall₂ (Settles setup)
        (ofWorker (.decompressor index) ((initial setup inputs).trace setup State.begun? events))
        (ofWorker (.decompressor index)
          ((initial setup inputs).trace setup State.carried? events))) ∧
      (∀ name other gzip effect twin, Settles setup (.decompress name gzip) effect →
        Settles setup (.decompress other gzip) twin →
        (∃ content, effect = .emit ⟨Item.stripGzip name, content⟩ ∧
            twin = .emit ⟨Item.stripGzip other, content⟩) ∨
          effect = .skip ∧ twin = .skip) ∧
      state.produced.tally =
        (((initial setup inputs).trace setup State.carried? events).map fun entry =>
          entry.2.tally).sum := by
  obtain ⟨hplans, hpassed, htally⟩ := tasks_of_closed hrun hc
  refine ⟨?_, ?_, ?_, ?_, hpassed, settles_of_closed hrun hc, ?_, htally⟩
  · intro stem
    exact ⟨Item.isGzip_append stem, Item.stripGzip_append stem⟩
  · intro path gzip hname hlook
    exact plan_of_file hname hlook
  · intro path content htar hlook
    exact plan_of_tar htar hlook
  · intro index
    exact hplans (.expander index)
  · intro name other gzip effect twin h htwin
    exact settles_alike h htwin

/-- A member of one byte that is not compressed. -/
def storedMember (byte : UInt8) (check : Bytes) : Bytes :=
  [31, 139, 8, 0, 0, 0, 0, 0, 0, 255, 1, 1, 0, 254, 255, byte] ++ check ++ [1, 0, 0, 0]

/-- The contents `A` and `B` in a row. -/
def twoMembers : Bytes :=
  storedMember 65 [139, 158, 217, 211] ++ storedMember 66 [49, 207, 208, 74]

/-- The file `c.gz` of two members and the file `e.gz` with a byte more. -/
def gzipTwins : Setup where
  decoder := Gzip.member
  tree := {
    nodes := [([[99, 46, 103, 122]], .file twoMembers),
      ([[101, 46, 103, 122]], .file (twoMembers ++ [7]))] }
  config := { expanders := 1, decompressors := 2 }
  consumers := 1

def gzipTwinPaths : List Path := [[47, 99, 46, 103, 122], [47, 101, 46, 103, 122]]

/-- Both files are passed on before any is decompressed. -/
def passTwinsEvents : List Event :=
  [.own, .own, .own, .own, .own, .take 0, .act (.expander 0), .act (.expander 0), .take 0,
    .act (.expander 0), .act (.expander 0), .own, .own, .own, .take 0, .own]

/-- The second decompressor takes what was passed on first. -/
def settleTwinsEvents : List Event :=
  [.inflate 1, .inflate 0, .act (.decompressor 0), .act (.decompressor 1), .leave 0, .leave 1, .own]

def gzipTwinsPassed : State where
  owner := .joiningDecompressors
  pending := 0
  jobs := []
  expanders := [.exited]
  gzipQueue := [("/c.gz", twoMembers), ("/e.gz", twoMembers ++ [7])]
  decompressors := [.idle, .idle]
  output := []
  received := []
  emitted := 0
  skipped := 0

theorem gzip_items_are_all_or_nothing_gzipTwins : ∃ state,
    (initial gzipTwins gzipTwinPaths).run? gzipTwins (passTwinsEvents ++ settleTwinsEvents) =
      some state ∧
    state.isClosed = true ∧
    (∀ index, List.Forall₂ (Settles gzipTwins)
      (ofWorker (.decompressor index) ((initial gzipTwins gzipTwinPaths).trace gzipTwins
        State.begun? (passTwinsEvents ++ settleTwinsEvents)))
      (ofWorker (.decompressor index) ((initial gzipTwins gzipTwinPaths).trace gzipTwins
        State.carried? (passTwinsEvents ++ settleTwinsEvents)))) ∧
    (((initial gzipTwins gzipTwinPaths).trace gzipTwins State.carried?
        (passTwinsEvents ++ settleTwinsEvents)).map fun entry => entry.2.tally).sum =
      ({⟨"/c", [65, 66]⟩}, 1) := by
  have hpass : (initial gzipTwins gzipTwinPaths).run? gzipTwins passTwinsEvents =
      some gzipTwinsPassed := by cbv
  have hsettle : (gzipTwinsPassed.run? gzipTwins settleTwinsEvents).any
      (fun state => state.isClosed && state.produced == ⟨[⟨"/c", [65, 66]⟩], 1⟩) = true := by
    decide +kernel
  obtain ⟨state, hrest, hstate⟩ := (Option.any_eq_true _ _).mp hsettle
  obtain ⟨hc, hproduced⟩ := Bool.and_eq_true_iff.mp hstate
  have hrun : (initial gzipTwins gzipTwinPaths).run? gzipTwins
      (passTwinsEvents ++ settleTwinsEvents) = some state := by
    rw [State.run?, List.foldlM_append, ← State.run?, hpass]
    exact hrest
  obtain ⟨_, _, _, _, _, hsettled, _, htally⟩ := gzip_items_are_all_or_nothing hrun hc
  refine ⟨state, hrun, hc, hsettled, ?_⟩
  rw [← htally, eq_of_beq hproduced]
  rfl

end Scan

end PlaneArchive
