import PlaneArchive.Proofs.Scan.Progress

/-! # A scan comes to an end

Whatever is still to be done has a cost: paths to expand, records to hand over, gzip data to
decompress, workers to stop. A path costs more than all that its expansion brings up, because the
paths that it brings up are longer and there is a longest one. Every step lowers the cost, so there
is no endless run, however the steps interleave.
-/
namespace PlaneArchive

/-- As in any file system, no file has an empty name. -/
def FileTree.Named (tree : FileTree) : Prop := ∀ place ∈ tree.nodes, [] ∉ place.1

instance (tree : FileTree) : Decidable tree.Named :=
  inferInstanceAs (Decidable (∀ place ∈ tree.nodes, _))

theorem Expansion.length_lt_of_named {tree : FileTree} {path found : Path} (h : tree.Named)
    (hfound : found ∈ (ofPath tree path).found) : path.length < found.length := by
  obtain ⟨entries, name, hlook, hentry, rfl⟩ := mem_found_iff.mp hfound
  refine length_lt_join ?_
  rintro rfl
  obtain ⟨location, _, _, rfl⟩ := FileTree.look_eq_directory hlook
  obtain ⟨child, hchild, hsame⟩ := List.mem_map.mp hentry
  obtain ⟨place, hplace, hnode⟩ := List.mem_filterMap.mp hchild
  split at hnode
  · next name parent node =>
    split at hnode
    · cases hnode
      have hname : name = [] := congrArg Prod.fst hsame
      exact h _ hplace (hname ▸ List.mem_cons_self)
    · cases hnode
  · cases hnode

end PlaneArchive

namespace PlaneArchive.Scan

section Cost

variable (price : Path → ℕ)

/-- Handing something over costs more than what becomes of it. -/
def Effect.cost : Effect → ℕ
  | .emit _ => 2
  | .pass _ _ => 4
  | .count path => price path + 2
  | .send path => price path + 1
  | .skip | .done => 1

def Job.cost : Job → ℕ
  | .expand path => price path
  | .shutdown => 1

def Worker.cost (worker : Worker) : ℕ :=
  measure (Effect.cost price) worker.effects + worker.presence

/-- What the owner still has to do, given how many expanders it has to stop. -/
def Owner.cost (expanders : ℕ) : Owner → ℕ
  | .adding inputs => (inputs.map fun path => price path + 2).sum + (2 * expanders + 5)
  | .sending path inputs =>
    price path + 1 + (inputs.map fun path => price path + 2).sum + (2 * expanders + 5)
  | .waiting => 2 * expanders + 4
  | .stopping count => 2 * count + 3
  | .joiningExpanders => 2
  | .joiningDecompressors => 1
  | .closed => 0

/-- What is with no worker. -/
def State.storedCost (expanders : ℕ) (state : State) : ℕ :=
  state.owner.cost price expanders + (state.jobs.map (Job.cost price)).sum +
    3 * state.gzipQueue.length + state.output.length

def State.cost (expanders : ℕ) (state : State) : ℕ :=
  state.storedCost price expanders + state.staff (Worker.cost price)

end Cost

/-- What a path costs if this is what the paths cost that it brings up. -/
def priceStep (tree : FileTree) (price : Path → ℕ) (path : Path) : ℕ :=
  measure (Effect.cost price) (Effect.ofExpansion (Expansion.ofPath tree path)) + 1

def pathPrice (tree : FileTree) : Path → ℕ := (priceStep tree)^[Path.pathLimit + 1] 0

variable {setup : Setup} {inputs : List Path} {state after : State} {tree : FileTree}
  {price : Path → ℕ}

theorem priceStep_congr {price price' : Path → ℕ} {path : Path}
    (h : ∀ found ∈ (Expansion.ofPath tree path).found, price found = price' found) :
    priceStep tree price path = priceStep tree price' path := by
  have hitem : ∀ item, (Effect.ofItem item).cost price = (Effect.ofItem item).cost price' := by
    intro item
    cases item <;> rfl
  have hfound : ((Expansion.ofPath tree path).found.map fun found =>
      (Effect.count found).cost price) =
        (Expansion.ofPath tree path).found.map fun found => (Effect.count found).cost price' :=
    List.map_congr_left fun found hmem => congrArg (· + 2) (h found hmem)
  simp only [priceStep, measure_ofExpansion_eq_sum, hitem, hfound]
  rfl

/-- After as many rounds as a path may still grow, more rounds change nothing. -/
theorem iterate_priceStep (h : tree.Named) {rounds : ℕ} {path : Path}
    (hlong : Path.pathLimit ≤ path.length + rounds) :
    (priceStep tree)^[rounds + 1] 0 path = (priceStep tree)^[rounds + 2] 0 path := by
  induction rounds generalizing path with
  | zero =>
    change priceStep tree 0 path = priceStep tree (priceStep tree 0) path
    refine priceStep_congr fun found hfound => ?_
    have := (Expansion.length_of_mem_found hfound).2
    omega
  | succ rounds ih =>
    rw [Function.iterate_succ_apply', Function.iterate_succ_apply' _ (rounds + 2)]
    refine priceStep_congr fun found hfound => ih ?_
    have := Expansion.length_lt_of_named h hfound
    omega

theorem pathPrice_eq (h : tree.Named) (path : Path) :
    pathPrice tree path = priceStep tree (pathPrice tree) path := by
  rw [pathPrice, iterate_priceStep h (Nat.le_add_left _ _), Function.iterate_succ_apply']

@[simp] theorem cost_resumed (price : Path → ℕ) (effects : List Effect) :
    (if effects.isEmpty then Worker.idle else .busy effects).cost price =
      measure (Effect.cost price) effects + 1 := by
  cases effects <;> rfl

/-- Changing one worker changes the cost by what the worker costs. -/
theorem exists_cost_eq (price : Path → ℕ) (expanders : ℕ) {id : WorkerId} {worker : Worker}
    (h : state.worker? id = some worker) :
    ∃ others, state.cost price expanders =
        state.storedCost price expanders + (others + worker.cost price) ∧
      ∀ (after : State) (next : Worker), after.expanders = state.expanders →
        after.decompressors = state.decompressors →
        (after.setWorker id next).cost price expanders =
          after.storedCost price expanders + (others + next.cost price) :=
  exists_total_eq (Worker.cost price) (State.storedCost price expanders)
    (fun _ id _ => by cases id <;> rfl) h

/-- Carrying out an effect costs less afterwards than before. -/
theorem Performs.cost_lt (price : Path → ℕ) (expanders : ℕ) {effect : Effect}
    {more : List Effect} (h : Performs setup state effect after more) :
    after.storedCost price expanders + measure (Effect.cost price) more <
      state.storedCost price expanders + effect.cost price := by
  cases h with
  | emit _ =>
    simp only [State.storedCost, List.length_append, List.length_singleton, measure_nil,
      Effect.cost]
    omega
  | pass _ =>
    simp only [State.storedCost, List.length_append, List.length_singleton, measure_nil,
      Effect.cost]
    omega
  | count =>
    simp only [State.storedCost, measure_cons, measure_nil, Effect.cost]
    omega
  | send =>
    simp only [State.storedCost, List.map_append, List.sum_append, List.map_singleton,
      List.sum_singleton, Job.cost, measure_nil, Effect.cost]
    omega
  | skip =>
    simp only [State.storedCost, measure_nil, Effect.cost]
    omega
  | done =>
    simp only [State.storedCost, measure_nil, Effect.cost]
    omega

theorem measure_cost_ofCompressed (price : Path → ℕ) (decoder : Gzip.MemberDecoder)
    (name : String) (content : Bytes) :
    measure (Effect.cost price) (Effect.ofCompressed decoder name content) ≤ 2 := by
  unfold Effect.ofCompressed
  split
  · exact Nat.le_refl 2
  · exact Nat.le_succ 1

/-- Every step lowers the cost. -/
theorem Move.cost_lt (h : Move setup state after) (hs : Staffed setup state)
    (hprice : ∀ path, price path = priceStep setup.tree price path) :
    after.cost price setup.config.expanders < state.cost price setup.config.expanders := by
  have hstored : ∀ {next : State}, next.expanders = state.expanders →
      next.decompressors = state.decompressors →
      next.storedCost price setup.config.expanders <
        state.storedCost price setup.config.expanders →
      next.cost price setup.config.expanders < state.cost price setup.config.expanders := by
    intro next he hd hlt
    rw [State.cost, State.cost, State.staff, State.staff, he, hd]
    exact Nat.add_lt_add_right hlt _
  cases h with
  | countInput ho =>
    refine hstored rfl rfl ?_
    simp only [State.storedCost, ho, Owner.cost, List.map_cons, List.sum_cons]
    omega
  | sendInput ho =>
    refine hstored rfl rfl ?_
    simp only [State.storedCost, ho, Owner.cost, List.map_append, List.sum_append,
      List.map_singleton, List.sum_singleton, Job.cost]
    omega
  | wait ho =>
    refine hstored rfl rfl ?_
    simp only [State.storedCost, ho, Owner.cost, List.map_nil, List.sum_nil]
    omega
  | stop ho _ =>
    refine hstored rfl rfl ?_
    simp only [State.storedCost, ho, Owner.cost, hs.size]
    omega
  | sendShutdown ho =>
    refine hstored rfl rfl ?_
    simp only [State.storedCost, ho, Owner.cost, List.map_append, List.sum_append,
      List.map_singleton, List.sum_singleton, Job.cost]
    omega
  | join ho =>
    refine hstored rfl rfl ?_
    simp only [State.storedCost, ho, Owner.cost]
    omega
  | joinExpanders ho _ =>
    refine hstored rfl rfl ?_
    simp only [State.storedCost, ho, Owner.cost]
    omega
  | joinDecompressors ho _ =>
    refine hstored rfl rfl ?_
    simp only [State.storedCost, ho, Owner.cost]
    omega
  | @expand index path jobs hw hj =>
    obtain ⟨others, hbefore, hafter⟩ := exists_cost_eq price setup.config.expanders hw
    have hpath := hprice path
    rw [priceStep] at hpath
    have hidle : Worker.idle.cost price = 1 := rfl
    rw [hbefore, State.resume, hafter { state with jobs } _ rfl rfl, cost_resumed, hidle]
    simp only [State.storedCost, hj, List.map_cons, List.sum_cons, Job.cost]
    omega
  | @retire index jobs hw hj =>
    obtain ⟨others, hbefore, hafter⟩ := exists_cost_eq price setup.config.expanders hw
    have hidle : Worker.idle.cost price = 1 := rfl
    have hexited : Worker.exited.cost price = 0 := rfl
    rw [hbefore, hafter { state with jobs } _ rfl rfl, hidle, hexited]
    simp only [State.storedCost, hj, List.map_cons, List.sum_cons, Job.cost]
    omega
  | @inflate index name content gzipQueue hw hq =>
    obtain ⟨others, hbefore, hafter⟩ := exists_cost_eq price setup.config.expanders hw
    have hidle : Worker.idle.cost price = 1 := rfl
    have hle := measure_cost_ofCompressed price setup.decoder name content
    rw [hbefore, State.resume, hafter { state with gzipQueue } _ rfl rfl, cost_resumed, hidle]
    simp only [State.storedCost, hq, List.length_cons]
    omega
  | leave hw _ _ =>
    obtain ⟨others, hbefore, hafter⟩ := exists_cost_eq price setup.config.expanders hw
    have hidle : Worker.idle.cost price = 1 := rfl
    have hexited : Worker.exited.cost price = 0 := rfl
    rw [hbefore, hafter state _ rfl rfl, hidle, hexited]
    omega
  | @act id effect effects more mid hw hp =>
    obtain ⟨_, he, hd, _⟩ := hp.frame
    obtain ⟨others, hbefore, hafter⟩ := exists_cost_eq price setup.config.expanders hw
    have hbusy : (Worker.busy (effect :: effects)).cost price =
        effect.cost price + measure (Effect.cost price) effects + 1 := rfl
    have hlt := hp.cost_lt price setup.config.expanders
    rw [hbefore, State.resume, hafter mid _ he hd, cost_resumed, hbusy, measure_append]
    omega
  | @handOver id record effects consumer hw _ =>
    obtain ⟨others, hbefore, hafter⟩ := exists_cost_eq price setup.config.expanders hw
    have hbusy : (Worker.busy (.emit record :: effects)).cost price =
        2 + measure (Effect.cost price) effects + 1 := rfl
    rw [hbefore, State.resume, hafter
      { state with
        received := state.received ++ [(consumer, record)], emitted := state.emitted + 1 }
      _ rfl rfl, cost_resumed, hbusy]
    simp only [State.storedCost]
    omega
  | receive ho _ =>
    refine hstored rfl rfl ?_
    simp only [State.storedCost, ho, List.length_cons]
    omega

/-- However the steps interleave, there are no more of them than the cost at the beginning. -/
theorem length_add_cost_le {events : List Event} (hnamed : setup.tree.Named)
    (hr : Reachable setup inputs state) (hrun : state.run? setup events = some after) :
    events.length + after.cost (pathPrice setup.tree) setup.config.expanders ≤
      state.cost (pathPrice setup.tree) setup.config.expanders := by
  induction events generalizing state with
  | nil =>
    cases hrun
    exact (Nat.zero_add _).le
  | cons event events ih =>
    obtain ⟨next, hnext, hrest⟩ := run?_cons_eq_some_iff.mp hrun
    have hstep := (move_of_next? hnext).cost_lt (staffed_of_reachable hr) (pathPrice_eq hnamed)
    have hlater := ih (.step event hr hnext) hrest
    rw [List.length_cons]
    omega

end PlaneArchive.Scan
