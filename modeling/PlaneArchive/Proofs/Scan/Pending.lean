import PlaneArchive.Proofs.Scan.Accounts

/-! # What the pending counter counts

The counter covers every path that is queued, every path that is being expanded, and every push
that has counted its path and not yet sent it. It rests on how workers use their effects: expanders
take their path off the count as the very last thing, and decompressors never touch it.
-/
namespace PlaneArchive.Scan

def Effect.weight : Effect → ℕ
  | .done | .send _ => 1
  | _ => 0

def Job.weight : Job → ℕ
  | .expand _ => 1
  | .shutdown => 0

def Owner.weight : Owner → ℕ
  | .sending _ _ => 1
  | _ => 0

/-- The units of the count, added up over the owner, the path queue and the workers. -/
def State.work (state : State) : ℕ :=
  state.owner.weight + (state.jobs.map Job.weight).sum + state.load Effect.weight

def Job.path? : Job → Option Path
  | .expand path => some path
  | .shutdown => none

def Worker.isBusy : Worker → Bool
  | .busy _ => true
  | .idle | .exited => false

/-- An effect that sends a path is what is left of a push when the path has been counted. -/
def Effect.isSend : Effect → Bool
  | .send _ => true
  | _ => false

namespace State

def queuedPaths (state : State) : List Path := state.jobs.filterMap Job.path?

/-- How many paths are being expanded: an expander at work expands one. -/
def expandings (state : State) : ℕ := state.expanders.countP Worker.isBusy

/-- How many pushes of the owner and of expanders have counted their path and not yet sent it. -/
def halfSent (state : State) : ℕ :=
  state.owner.weight +
    (state.expanders.map fun worker => worker.effects.countP Effect.isSend).sum

end State

/-- The effects of an expander end with taking its path off the count. -/
def Expanding (effects : List Effect) : Prop :=
  ∃ before, effects = before ++ [.done] ∧ .done ∉ before

/-- The effects of a decompressor only hand over records or drop data. -/
def Inflating (effects : List Effect) : Prop :=
  ∀ effect ∈ effects, (∃ record, effect = .emit record) ∨ effect = .skip

/-- Every worker does what its pool is there for. -/
structure Disciplined (state : State) : Prop where
  expanding : ∀ effects, Worker.busy effects ∈ state.expanders → Expanding effects
  inflating : ∀ effects, Worker.busy effects ∈ state.decompressors → Inflating effects

variable {setup : Setup} {state after : State}

/-- Decompressors do nothing but emit and skip. -/
theorem Disciplined.exists_expander (hs : Disciplined state) {id : WorkerId} {effect : Effect}
    {effects : List Effect} (hw : state.worker? id = some (.busy (effect :: effects)))
    (hemit : ∀ record, effect ≠ .emit record) (hskip : effect ≠ .skip) :
    ∃ index, id = .expander index := by
  cases id with
  | expander index => exact ⟨index, rfl⟩
  | decompressor index =>
    rcases hs.inflating _ (List.mem_of_getElem? hw) _ List.mem_cons_self with ⟨record, he⟩ | he
    · exact absurd he (hemit record)
    · exact absurd he hskip

theorem expanding_ofExpansion (expansion : Expansion) :
    Expanding (Effect.ofExpansion expansion) := by
  refine ⟨_, rfl, ?_⟩
  intro hmem
  rcases List.mem_append.mp hmem with hfirst | hfailed
  · rcases List.mem_append.mp hfirst with hitem | hfound
    · obtain ⟨item, _, he⟩ := List.mem_map.mp hitem
      cases item <;> cases he
    · obtain ⟨path, _, he⟩ := List.mem_map.mp hfound
      cases he
  · cases hf : expansion.failed with
    | false =>
      rw [hf] at hfailed
      cases hfailed
    | true =>
      rw [hf] at hfailed
      cases List.mem_singleton.mp hfailed

theorem inflating_ofCompressed (decoder : Gzip.MemberDecoder) (name : String) (content : Bytes) :
    Inflating (Effect.ofCompressed decoder name content) := by
  intro effect hmem
  unfold Effect.ofCompressed at hmem
  split at hmem
  · next record _ => exact Or.inl ⟨record, List.mem_singleton.mp hmem⟩
  · exact Or.inr (List.mem_singleton.mp hmem)

theorem Expanding.tail {effect : Effect} {effects : List Effect}
    (h : Expanding (effect :: effects)) :
    effect = .done ∧ effects = [] ∨ effect ≠ .done ∧ Expanding effects := by
  obtain ⟨before, heq, hnot⟩ := h
  cases before with
  | nil =>
    rw [List.nil_append, List.cons.injEq] at heq
    exact Or.inl heq
  | cons first before =>
    rw [List.cons_append, List.cons.injEq] at heq
    obtain ⟨rfl, rfl⟩ := heq
    rw [List.mem_cons, not_or] at hnot
    exact Or.inr ⟨fun h => hnot.1 h.symm, before, rfl, hnot.2⟩

/-- Carrying out an effect leaves an expander with nothing, or with its path still to take off. -/
theorem Performs.expanding {effect : Effect} {effects more : List Effect}
    (h : Performs setup state effect after more) (he : Expanding (effect :: effects)) :
    more ++ effects = [] ∨ Expanding (more ++ effects) := by
  rcases he.tail with ⟨rfl, rfl⟩ | ⟨_, before, rfl, hnot⟩
  · cases h
    exact Or.inl rfl
  · refine Or.inr ⟨more ++ before, (List.append_assoc _ _ _).symm, ?_⟩
    intro hmem
    rcases List.mem_append.mp hmem with hmore | hbefore
    · cases h <;> simp at hmore
    · exact hnot hbefore

theorem Performs.inflating {effect : Effect} {effects more : List Effect}
    (h : Performs setup state effect after more) (hi : Inflating (effect :: effects)) :
    Inflating (more ++ effects) := by
  have htail : Inflating effects := fun other hmem => hi other (List.mem_cons_of_mem _ hmem)
  rcases hi effect List.mem_cons_self with ⟨record, rfl⟩ | rfl
  · cases h
    exact htail
  · cases h
    exact htail

theorem mem_set_resumed {workers : List Worker} {index : ℕ} {effects left : List Effect}
    (h : Worker.busy left ∈
      workers.set index (if effects.isEmpty then .idle else .busy effects)) :
    Worker.busy left ∈ workers ∨ left = effects ∧ effects ≠ [] := by
  rcases List.mem_or_eq_of_mem_set h with hold | hnew
  · exact Or.inl hold
  · right
    cases effects with
    | nil => cases hnew
    | cons effect effects =>
      cases hnew
      exact ⟨rfl, List.cons_ne_nil _ _⟩

/-- Resuming a worker with effects that suit its pool keeps the discipline. -/
theorem Disciplined.resume {id : WorkerId} {effects : List Effect} (hs : Disciplined state)
    (he : after.expanders = state.expanders) (hd : after.decompressors = state.decompressors)
    (hexpand : ∀ index, id = .expander index → effects = [] ∨ Expanding effects)
    (hinflate : ∀ index, id = .decompressor index → Inflating effects) :
    Disciplined (after.resume id effects) := by
  cases id with
  | expander index =>
    constructor
    · intro left hmem
      change _ ∈ after.expanders.set index _ at hmem
      rw [he] at hmem
      rcases mem_set_resumed hmem with hold | ⟨rfl, hne⟩
      · exact hs.expanding left hold
      · exact (hexpand index rfl).resolve_left hne
    · intro left hmem
      change _ ∈ after.decompressors at hmem
      rw [hd] at hmem
      exact hs.inflating left hmem
  | decompressor index =>
    constructor
    · intro left hmem
      change _ ∈ after.expanders at hmem
      rw [he] at hmem
      exact hs.expanding left hmem
    · intro left hmem
      change _ ∈ after.decompressors.set index _ at hmem
      rw [hd] at hmem
      rcases mem_set_resumed hmem with hold | ⟨rfl, _⟩
      · exact hs.inflating left hold
      · exact hinflate index rfl

theorem Disciplined.exit {id : WorkerId} (hs : Disciplined state)
    (he : after.expanders = state.expanders) (hd : after.decompressors = state.decompressors) :
    Disciplined (after.setWorker id .exited) := by
  have hset : ∀ {workers : List Worker} {index : ℕ} {left : List Effect},
      Worker.busy left ∈ workers.set index .exited → Worker.busy left ∈ workers := by
    intro workers index left hmem
    rcases List.mem_or_eq_of_mem_set hmem with hold | hnew
    · exact hold
    · cases hnew
  cases id with
  | expander index => exact ⟨fun left hmem => hs.expanding left (he ▸ hset hmem),
      fun left hmem => hs.inflating left (hd ▸ hmem)⟩
  | decompressor index => exact ⟨fun left hmem => hs.expanding left (he ▸ hmem),
      fun left hmem => hs.inflating left (hd ▸ hset hmem)⟩

theorem Move.disciplined (h : Move setup state after) (hs : Disciplined state) :
    Disciplined after := by
  cases h with
  | expand hw hj =>
    refine hs.resume rfl rfl ?_ ?_
    · intro _ _
      exact Or.inr (expanding_ofExpansion _)
    · intro _ hid
      cases hid
  | retire hw hj => exact hs.exit rfl rfl
  | inflate hw hq =>
    refine hs.resume rfl rfl ?_ ?_
    · intro _ hid
      cases hid
    · intro _ _
      exact inflating_ofCompressed _ _ _
  | leave hw hq he => exact hs.exit rfl rfl
  | act hw hp =>
    obtain ⟨_, he, hd, _⟩ := hp.frame
    refine hs.resume he hd ?_ ?_
    · rintro index rfl
      exact hp.expanding (hs.expanding _ (List.mem_of_getElem? hw))
    · rintro index rfl
      exact hp.inflating (hs.inflating _ (List.mem_of_getElem? hw))
  | handOver hw hc =>
    refine hs.resume rfl rfl ?_ ?_
    · rintro index rfl
      rcases (hs.expanding _ (List.mem_of_getElem? hw)).tail with ⟨he, _⟩ | ⟨_, he⟩
      · cases he
      · exact Or.inr he
    · rintro index rfl effect hmem
      exact hs.inflating _ (List.mem_of_getElem? hw) effect (List.mem_cons_of_mem _ hmem)
  | countInput ho => exact ⟨hs.expanding, hs.inflating⟩
  | sendInput ho => exact ⟨hs.expanding, hs.inflating⟩
  | wait ho => exact ⟨hs.expanding, hs.inflating⟩
  | stop ho hp => exact ⟨hs.expanding, hs.inflating⟩
  | sendShutdown ho => exact ⟨hs.expanding, hs.inflating⟩
  | join ho => exact ⟨hs.expanding, hs.inflating⟩
  | joinExpanders ho he => exact ⟨hs.expanding, hs.inflating⟩
  | joinDecompressors ho hd => exact ⟨hs.expanding, hs.inflating⟩
  | receive ho hc => exact ⟨hs.expanding, hs.inflating⟩

theorem measure_weight_ofExpansion (expansion : Expansion) :
    measure Effect.weight (Effect.ofExpansion expansion) = 1 := by
  have hitem : ∀ item, (Effect.ofItem item).weight = 0 := by
    intro item
    cases item <;> rfl
  simp only [measure_ofExpansion_eq_sum, hitem]
  simp [Effect.weight]

theorem measure_weight_ofCompressed (decoder : Gzip.MemberDecoder) (name : String)
    (content : Bytes) : measure Effect.weight (Effect.ofCompressed decoder name content) = 0 := by
  unfold Effect.ofCompressed
  split <;> rfl

def State.storedWork (state : State) : ℕ :=
  state.owner.weight + (state.jobs.map Job.weight).sum

theorem exists_work_eq {id : WorkerId} {worker : Worker} (h : state.worker? id = some worker) :
    ∃ others, state.work = state.storedWork + (others + measure Effect.weight worker.effects) ∧
      ∀ (after : State) (next : Worker), after.expanders = state.expanders →
        after.decompressors = state.decompressors →
        (after.setWorker id next).work =
          after.storedWork + (others + measure Effect.weight next.effects) :=
  exists_total_eq (fun worker => measure Effect.weight worker.effects) State.storedWork
    (fun _ id _ => by cases id <;> rfl) h

/-- An effect changes the count as it changes what is counted, as long as the count covers it. -/
theorem Performs.pending {effect : Effect} {more : List Effect}
    (h : Performs setup state effect after more) (hw : effect.weight ≤ state.pending) :
    after.storedWork + measure Effect.weight more + state.pending =
      state.storedWork + effect.weight + after.pending := by
  cases h with
  | emit _ => rfl
  | pass _ => rfl
  | count =>
    change state.storedWork + 1 + state.pending = state.storedWork + 0 + (state.pending + 1)
    omega
  | send =>
    simp only [State.storedWork, List.map_append, List.sum_append, List.map_singleton,
      List.sum_singleton, Job.weight, Effect.weight, measure_nil]
    omega
  | skip => rfl
  | done =>
    change 1 ≤ state.pending at hw
    change state.storedWork + 0 + state.pending = state.storedWork + 1 + (state.pending - 1)
    omega

/-- A step changes the count as it changes what is counted, as long as the count covers it. -/
theorem Move.pending_add_work (h : Move setup state after) (hs : state.work ≤ state.pending) :
    after.pending + state.work = state.pending + after.work := by
  cases h with
  | countInput ho =>
    simp only [State.work, State.load, ho, Owner.weight]
    omega
  | sendInput ho =>
    simp only [State.work, State.load, ho, Owner.weight, List.map_append, List.sum_append,
      List.map_singleton, List.sum_singleton, Job.weight]
    omega
  | wait ho => simp only [State.work, State.load, ho, Owner.weight]
  | stop ho hp => simp only [State.work, State.load, ho, Owner.weight]
  | sendShutdown ho =>
    simp only [State.work, State.load, ho, Owner.weight, List.map_append, List.sum_append,
      List.map_singleton, List.sum_singleton, Job.weight, add_zero]
  | join ho => simp only [State.work, State.load, ho, Owner.weight]
  | joinExpanders ho he => simp only [State.work, State.load, ho, Owner.weight]
  | joinDecompressors ho hd => simp only [State.work, State.load, ho, Owner.weight]
  | @expand index path jobs hw hj =>
    obtain ⟨others, hbefore, hafter⟩ := exists_work_eq hw
    rw [State.resume, hafter { state with jobs } _ rfl rfl, effects_resumed,
      measure_weight_ofExpansion, hbefore]
    simp only [State.storedWork, hj, List.map_cons, List.sum_cons, Job.weight, State.setWorker,
      Worker.effects, measure_nil]
    omega
  | @retire index jobs hw hj =>
    obtain ⟨others, hbefore, hafter⟩ := exists_work_eq hw
    rw [hafter { state with jobs } _ rfl rfl, hbefore]
    simp only [State.storedWork, hj, List.map_cons, List.sum_cons, Job.weight, State.setWorker,
      Worker.effects, zero_add]
  | @inflate index name content gzipQueue hw hq =>
    obtain ⟨others, hbefore, hafter⟩ := exists_work_eq hw
    rw [State.resume, hafter { state with gzipQueue } _ rfl rfl, effects_resumed,
      measure_weight_ofCompressed, hbefore]
    rfl
  | leave hw hq he =>
    obtain ⟨others, hbefore, hafter⟩ := exists_work_eq hw
    rw [hafter state _ rfl rfl, hbefore]
    rfl
  | @act id effect effects more mid hw hp =>
    obtain ⟨_, he, hd, _⟩ := hp.frame
    obtain ⟨others, hbefore, hafter⟩ := exists_work_eq hw
    have hbusy : measure Effect.weight (Worker.busy (effect :: effects)).effects =
        effect.weight + measure Effect.weight effects := measure_cons _ _ _
    rw [hbefore, hbusy] at hs
    have hmoved := hp.pending (by omega)
    rw [State.pending_resume, State.resume, hafter mid _ he hd, effects_resumed, measure_append,
      hbefore, hbusy]
    omega
  | @handOver id record effects consumer hw hc =>
    obtain ⟨others, hbefore, hafter⟩ := exists_work_eq hw
    have hbusy : measure Effect.weight (Worker.busy (.emit record :: effects)).effects =
        0 + measure Effect.weight effects := measure_cons _ _ _
    rw [State.pending_resume, State.resume, hafter
      { state with
        received := state.received ++ [(consumer, record)], emitted := state.emitted + 1 }
      _ rfl rfl, effects_resumed, hbefore, hbusy, zero_add]
    rfl
  | receive ho hc => rfl

/-- The count is exact, whatever happens. -/
theorem Move.pending_eq (h : Move setup state after) (hs : state.pending = state.work) :
    after.pending = after.work := by
  have hmoved := h.pending_add_work hs.ge
  omega

/-- An expander at work keeps the count above zero. -/
theorem pending_pos_of_busy (hs : Disciplined state) (hp : state.work ≤ state.pending)
    {index : ℕ} {effects : List Effect}
    (hw : state.worker? (.expander index) = some (.busy effects)) : 0 < state.pending := by
  obtain ⟨before, rfl, _⟩ := hs.expanding effects (List.mem_of_getElem? hw)
  obtain ⟨others, hbefore, _⟩ := exists_work_eq hw
  have hbusy : measure Effect.weight (Worker.busy (before ++ [.done])).effects =
      measure Effect.weight before + 1 := measure_append _ _ _
  rw [hbefore, hbusy] at hp
  omega

theorem pending_pos_of_mem_jobs (hp : state.work ≤ state.pending) {path : Path}
    (hmem : Job.expand path ∈ state.jobs) : 0 < state.pending := by
  have hsum : 0 < (state.jobs.map Job.weight).sum :=
    List.sum_pos_iff_exists_pos_nat.mpr ⟨1, List.mem_map.mpr ⟨_, hmem, rfl⟩, Nat.one_pos⟩
  rw [State.work] at hp
  omega

theorem sum_weight_jobs (jobs : List Job) :
    (jobs.map Job.weight).sum = (jobs.filterMap Job.path?).length := by
  induction jobs with
  | nil => rfl
  | cons job jobs ih =>
    rw [List.map_cons, List.sum_cons, ih]
    cases job with
    | expand path => exact Nat.add_comm _ _
    | shutdown => exact Nat.zero_add _

/-- Decompressors are not concerned with paths. -/
theorem poolLoad_weight_decompressors (hs : Disciplined state) :
    poolLoad Effect.weight state.decompressors = 0 := by
  refine List.sum_eq_zero fun load hmem => ?_
  obtain ⟨worker, hworker, rfl⟩ := List.mem_map.mp hmem
  cases worker with
  | busy effects =>
    refine measure_eq_zero _ fun effect heffect => ?_
    rcases hs.inflating effects hworker effect heffect with ⟨record, rfl⟩ | rfl
    · rfl
    · rfl
  | idle => rfl
  | exited => rfl

theorem measure_weight_of_not_mem {effects : List Effect} (h : .done ∉ effects) :
    measure Effect.weight effects = effects.countP Effect.isSend := by
  induction effects with
  | nil => rfl
  | cons effect effects ih =>
    rw [List.mem_cons, not_or] at h
    rw [measure_cons, ih h.2, List.countP_cons]
    cases effect with
    | done => exact absurd rfl h.1
    | send path => exact Nat.add_comm _ _
    | _ => exact Nat.zero_add _

/-- What an expander has to do weighs as much as its path and the pushes that it has half made. -/
theorem measure_weight_of_expanding {effects : List Effect} (h : Expanding effects) :
    measure Effect.weight effects = effects.countP Effect.isSend + 1 := by
  obtain ⟨before, rfl, hnot⟩ := h
  rw [measure_append, measure_weight_of_not_mem hnot, List.countP_append]
  rfl

theorem poolLoad_weight_expanders {workers : List Worker}
    (h : ∀ effects, Worker.busy effects ∈ workers → Expanding effects) :
    poolLoad Effect.weight workers = workers.countP Worker.isBusy +
      (workers.map fun worker => worker.effects.countP Effect.isSend).sum := by
  induction workers with
  | nil => rfl
  | cons worker workers ih =>
    have hrest := ih fun effects hmem => h effects (List.mem_cons_of_mem _ hmem)
    rw [poolLoad, List.map_cons, List.sum_cons, List.map_cons, List.sum_cons, List.countP_cons]
    rw [poolLoad] at hrest
    rw [hrest]
    cases worker with
    | busy effects =>
      rw [Worker.effects, measure_weight_of_expanding (h effects List.mem_cons_self),
        Worker.isBusy, if_pos rfl]
      omega
    | idle => exact Nat.zero_add _ |>.trans (by simp [Worker.isBusy, Worker.effects])
    | exited => exact Nat.zero_add _ |>.trans (by simp [Worker.isBusy, Worker.effects])

theorem work_eq (hs : Disciplined state) :
    state.work = state.queuedPaths.length + state.expandings + state.halfSent := by
  rw [State.work, State.load, poolLoad_weight_decompressors hs,
    poolLoad_weight_expanders hs.expanding, sum_weight_jobs, State.queuedPaths, State.expandings,
    State.halfSent]
  omega

end PlaneArchive.Scan
