import PlaneArchive.Proofs.Scan.ScheduleIndependence

/-! # Which paths a scan expands

However a scan goes, the paths that its expanders take are the inputs and all that these bring up,
each as often as it is found. What has come out in the end is what expanding these paths yields.
-/
namespace PlaneArchive.Scan

/-- All paths that are expanded, one by one and in any order, until no path is left. -/
inductive Expands (tree : FileTree) : Multiset Path → Multiset Path → Prop where
  | nothing : Expands tree 0 0
  | expand (path : Path) {rest all : Multiset Path}
      (h : Expands tree (↑(Expansion.ofPath tree path).found + rest) all) :
      Expands tree (path ::ₘ rest) (path ::ₘ all)

namespace Expands

variable {tree other : FileTree} {path : Path} {paths more all others : Multiset Path}

theorem eq_zero (h : Expands tree paths all) (hp : paths = 0) : all = 0 := by
  cases h with
  | nothing => rfl
  | expand path _ => exact absurd hp Multiset.cons_ne_zero

theorem add (h : Expands tree paths all) (hmore : Expands tree more others) :
    Expands tree (paths + more) (all + others) := by
  induction h with
  | nothing =>
    rw [zero_add, zero_add]
    exact hmore
  | expand path _ ih =>
    rw [add_assoc] at ih
    rw [Multiset.cons_add, Multiset.cons_add]
    exact ih.expand path

/-- Two groups of paths bring up what each brings up on its own. -/
theorem split (h : Expands tree (paths + more) all) :
    ∃ first second, all = first + second ∧ Expands tree paths first ∧ Expands tree more second := by
  generalize hboth : paths + more = both at h
  induction h generalizing paths more with
  | nothing =>
    obtain ⟨rfl, rfl⟩ := add_eq_zero.mp hboth
    exact ⟨0, 0, rfl, .nothing, .nothing⟩
  | @expand path rest all _ ih =>
    have hmem : path ∈ paths + more := hboth ▸ Multiset.mem_cons_self path rest
    rcases Multiset.mem_add.mp hmem with hfirst | hsecond
    · obtain ⟨left, rfl⟩ := Multiset.exists_cons_of_mem hfirst
      rw [Multiset.cons_add, Multiset.cons_inj_right] at hboth
      obtain ⟨first, second, rfl, hpaths, hmore⟩ :=
        @ih (↑(Expansion.ofPath tree path).found + left) more
          (by rw [← hboth, add_assoc])
      exact ⟨path ::ₘ first, second, (Multiset.cons_add _ _ _).symm, hpaths.expand path, hmore⟩
    · obtain ⟨left, rfl⟩ := Multiset.exists_cons_of_mem hsecond
      rw [Multiset.add_cons, Multiset.cons_inj_right] at hboth
      obtain ⟨first, second, rfl, hpaths, hmore⟩ :=
        @ih paths (↑(Expansion.ofPath tree path).found + left)
          (by rw [← hboth, add_left_comm])
      exact ⟨first, path ::ₘ second, (Multiset.add_cons _ _ _).symm, hpaths, hmore.expand path⟩

theorem of_singleton (h : Expands tree {path} all) :
    ∃ below, all = path ::ₘ below ∧ Expands tree ↑(Expansion.ofPath tree path).found below := by
  generalize hsingle : ({path} : Multiset Path) = paths at h
  cases h with
  | nothing => exact absurd hsingle.symm (Multiset.zero_ne_singleton path)
  | @expand first rest below hbelow =>
    obtain ⟨rfl, rfl⟩ := (Multiset.singleton_eq_cons_iff rest).mp hsingle
    rw [add_zero] at hbelow
    exact ⟨below, rfl, hbelow⟩

/-- Any of the paths may be the first to be expanded. -/
theorem pop (h : Expands tree (path ::ₘ paths) all) :
    ∃ below, all = path ::ₘ below ∧
      Expands tree (↑(Expansion.ofPath tree path).found + paths) below := by
  rw [← Multiset.singleton_add] at h
  obtain ⟨first, second, rfl, hpath, hrest⟩ := h.split
  obtain ⟨below, rfl, hbelow⟩ := hpath.of_singleton
  exact ⟨below + second, Multiset.cons_add _ _ _, hbelow.add hrest⟩

/-- The order in which paths are expanded makes no difference to which are. -/
theorem unique (h : Expands tree paths all) (hother : Expands tree paths others) :
    all = others := by
  induction h generalizing others with
  | nothing => exact (hother.eq_zero rfl).symm
  | expand path _ ih =>
    obtain ⟨below, rfl, hbelow⟩ := hother.pop
    rw [ih hbelow]

/-- Only what the paths bring up matters. -/
theorem congr (hfound : ∀ path, ((Expansion.ofPath other path).found : Multiset Path) =
      (Expansion.ofPath tree path).found) (h : Expands tree paths all) :
    Expands other paths all := by
  induction h with
  | nothing => exact .nothing
  | expand path _ ih =>
    rw [← hfound] at ih
    exact ih.expand path

end Expands

/-- The path that an expander takes at an event, if it does. -/
def State.taken? (state : State) : Event → Option Path
  | .take _ =>
    match state.jobs with
    | .expand path :: _ => some path
    | _ => none
  | _ => none

/-- The paths that expanders take in a run, in the order in which they take them. -/
def State.expanded (setup : Setup) (state : State) : List Event → List Path
  | [] => []
  | event :: events =>
    (state.taken? event).toList ++
      match state.next? setup event with
      | some after => after.expanded setup events
      | none => []

variable {setup : Setup} {inputs : List Path} {state after : State} {event : Event}
  {events : List Event} {path : Path}

theorem takes_of_taken? (h : state.next? setup event = some after)
    (ht : state.taken? event = some path) : Takes setup state path after := by
  cases occurs_of_next? h with
  | expand hw hj =>
    rw [State.taken?, hj] at ht
    cases ht
    exact .take hw hj
  | retire _ hj =>
    rw [State.taken?, hj] at ht
    cases ht
  | _ => cases ht

/-- The queue of paths gets shorter only when an expander takes something from it. -/
theorem jobs_prefix_of_next? (h : state.next? setup event = some after)
    (hevent : ∀ index, event ≠ .take index) : state.jobs <+: after.jobs := by
  cases occurs_of_next? h with
  | own h => exact (grows_of_own? h).1
  | @expand index => exact absurd rfl (hevent index)
  | @retire index => exact absurd rfl (hevent index)
  | act _ hp =>
    rw [State.jobs_resume]
    cases hp with
    | send => exact List.prefix_append _ _
    | _ => exact List.prefix_rfl
  | handOver _ _ _ => rw [State.jobs_resume]
  | _ => exact List.prefix_rfl

theorem Takes.jobs (h : Takes setup state path after) :
    state.jobs = .expand path :: after.jobs := by
  cases h with
  | take _ hj => exact hj

theorem account_of_not_taken? (h : state.next? setup event = some after)
    (ht : state.taken? event = none) :
    after.account setup.decoder = state.account setup.decoder := by
  rcases (move_of_next? h).account_or_takes with hsame | ⟨path, htakes⟩
  · exact hsame
  · have hjobs := htakes.jobs
    by_cases hevent : ∃ index, event = .take index
    · obtain ⟨index, rfl⟩ := hevent
      rw [State.taken?, hjobs] at ht
      cases ht
    · have hprefix := (jobs_prefix_of_next? h fun index hindex => hevent ⟨index, hindex⟩).length_le
      rw [hjobs, List.length_cons] at hprefix
      omega

/-- In a run, what the paths yield moves from the paths to the account, and the paths that are left
over bring up the others. -/
theorem account_of_run? (h : state.run? setup events = some after) :
    (after.account setup.decoder).2 = (state.account setup.decoder).2 +
        tallyOnce setup.decoder setup.tree ↑(state.expanded setup events) ∧
      ∀ all, Expands setup.tree (after.account setup.decoder).1 all →
        Expands setup.tree (state.account setup.decoder).1
          (↑(state.expanded setup events) + all) := by
  induction events generalizing state with
  | nil =>
    cases h
    constructor
    · exact (add_zero _).symm
    · intro all hall
      rw [State.expanded, Multiset.coe_nil, zero_add]
      exact hall
  | cons event events ih =>
    obtain ⟨next, hnext, hrest⟩ := run?_cons_eq_some_iff.mp h
    obtain ⟨htally, hexpands⟩ := ih hrest
    rw [State.expanded, hnext]
    dsimp only
    cases ht : state.taken? event with
    | none =>
      rw [account_of_not_taken? hnext ht] at htally hexpands
      exact ⟨htally, hexpands⟩
    | some path =>
      obtain ⟨rest, total, hbefore, hafter⟩ := (takes_of_taken? hnext ht).account
      rw [hafter] at htally hexpands
      rw [hbefore, Option.toList_some, List.singleton_append, ← Multiset.cons_coe]
      constructor
      · rw [htally, tallyOnce_cons, add_assoc]
        exact add_left_comm _ _ _
      · intro all hall
        rw [Multiset.cons_add]
        exact (hexpands all hall).expand path

/-- A scan that has been closed has expanded the inputs and all that they bring up, and what has
come out is what this yields. -/
theorem expands_of_closed (h : (initial setup inputs).run? setup events = some state)
    (hc : state.isClosed = true) :
    Expands setup.tree ↑inputs ↑((initial setup inputs).expanded setup events) ∧
      state.produced.tally = tallyOnce setup.decoder setup.tree
        ↑((initial setup inputs).expanded setup events) := by
  have hinvariant := reachable_invariant (reachable_of_run? .start h)
  obtain ⟨htally, hexpands⟩ := account_of_run? h
  rw [account_of_closed hinvariant hc, account_initial] at htally hexpands
  constructor
  · have hall := hexpands 0 .nothing
    rw [add_zero] at hall
    exact hall
  · rw [zero_add] at htally
    exact htally

end PlaneArchive.Scan
