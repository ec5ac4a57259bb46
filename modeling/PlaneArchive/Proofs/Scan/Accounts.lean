import PlaneArchive.Proofs.Scan.Moves
import PlaneArchive.Proofs.Scan.Worklist

/-! # The account of a scan

Paths and records are in many places while a scan runs: with the owner, on the queues, and with the
workers, who have effects left to carry out. Added up over all these places they only change when an
expander takes a path, and then as if the path was expanded at once.
-/
namespace PlaneArchive.Scan

def Worker.effects : Worker → List Effect
  | .busy effects => effects
  | .idle | .exited => []

/-- The paths that the owner has yet to send. -/
def Owner.paths : Owner → Multiset Path
  | .adding inputs => ↑inputs
  | .sending path inputs => path ::ₘ ↑inputs
  | _ => 0

def Job.paths : Job → Multiset Path
  | .expand path => {path}
  | .shutdown => 0

section Load

variable {M : Type*} [AddCommMonoid M] (f : Effect → M)

def measure (effects : List Effect) : M := (effects.map f).sum

def poolLoad (workers : List Worker) : M :=
  (workers.map fun worker => measure f worker.effects).sum

def State.load (state : State) : M := poolLoad f state.expanders + poolLoad f state.decompressors

@[simp] theorem measure_nil : measure f [] = 0 := rfl

@[simp] theorem measure_cons (effect : Effect) (effects : List Effect) :
    measure f (effect :: effects) = f effect + measure f effects := by
  simp [measure]

@[simp] theorem measure_append (effects more : List Effect) :
    measure f (effects ++ more) = measure f effects + measure f more := by
  simp [measure]

theorem measure_eq_zero {effects : List Effect} (h : ∀ effect ∈ effects, f effect = 0) :
    measure f effects = 0 := by
  refine List.sum_eq_zero fun size hmem => ?_
  obtain ⟨effect, heffect, rfl⟩ := List.mem_map.mp hmem
  exact h effect heffect

@[simp] theorem effects_resumed (effects : List Effect) :
    (if effects.isEmpty then Worker.idle else .busy effects).effects = effects := by
  cases effects <;> rfl

/-- What the other workers of a pool add up to does not depend on what becomes of one worker. -/
theorem exists_sum_eq (g : Worker → M) {workers : List Worker} {index : ℕ} {worker : Worker}
    (h : workers[index]? = some worker) :
    ∃ others, (workers.map g).sum = others + g worker ∧
      ∀ next, ((workers.set index next).map g).sum = others + g next := by
  induction workers generalizing index with
  | nil => cases h
  | cons first workers ih =>
    cases index with
    | zero =>
      cases h
      refine ⟨(workers.map g).sum, ?_, ?_⟩
      · simp [add_comm]
      · intro next
        simp [add_comm]
    | succ index =>
      obtain ⟨others, hsum, hset⟩ := ih h
      refine ⟨g first + others, ?_, ?_⟩
      · rw [add_assoc, ← hsum]
        simp
      · intro next
        rw [add_assoc, ← hset next]
        simp

/-- A quantity of the workers, added up over both pools. -/
def State.staff (g : Worker → M) (state : State) : M :=
  (state.expanders.map g).sum + (state.decompressors.map g).sum

theorem exists_staff_eq (g : Worker → M) {state : State} {id : WorkerId} {worker : Worker}
    (h : state.worker? id = some worker) :
    ∃ others, state.staff g = others + g worker ∧
      ∀ (after : State) (next : Worker), after.expanders = state.expanders →
        after.decompressors = state.decompressors →
        (after.setWorker id next).staff g = others + g next := by
  cases id with
  | expander index =>
    obtain ⟨others, hsum, hset⟩ := exists_sum_eq g h
    refine ⟨others + (state.decompressors.map g).sum, ?_, ?_⟩
    · rw [State.staff, hsum, add_right_comm]
    · intro after next he hd
      rw [State.staff, State.setWorker]
      dsimp only
      rw [he, hd, hset, add_right_comm]
  | decompressor index =>
    obtain ⟨others, hsum, hset⟩ := exists_sum_eq g h
    refine ⟨(state.expanders.map g).sum + others, ?_, ?_⟩
    · rw [State.staff, hsum, add_assoc]
    · intro after next he hd
      rw [State.staff, State.setWorker]
      dsimp only
      rw [he, hd, hset, add_assoc]

/-- The same with what is stored outside the workers, which resuming one does not touch. -/
theorem exists_total_eq (g : Worker → M) (store : State → M)
    (hstore : ∀ (state : State) (id : WorkerId) (next : Worker),
      store (state.setWorker id next) = store state)
    {state : State} {id : WorkerId} {worker : Worker} (h : state.worker? id = some worker) :
    ∃ others, store state + state.staff g = store state + (others + g worker) ∧
      ∀ (after : State) (next : Worker), after.expanders = state.expanders →
        after.decompressors = state.decompressors →
        store (after.setWorker id next) + (after.setWorker id next).staff g =
          store after + (others + g next) := by
  obtain ⟨others, hstaff, hset⟩ := exists_staff_eq g h
  refine ⟨others, by rw [hstaff], ?_⟩
  intro after next he hd
  rw [hstore, hset after next he hd]

end Load

/-- Paths still to be expanded, and what is bound to be received or dropped without them. -/
abbrev Account := Multiset Path × Tally

def compressedTally (decoder : Gzip.MemberDecoder) (name : String) (content : Bytes) : Tally :=
  ((Item.compressed name content).outcome decoder).tally

def Effect.account (decoder : Gzip.MemberDecoder) : Effect → Account
  | .emit record => (0, {record}, 0)
  | .pass name content => (0, compressedTally decoder name content)
  | .count path | .send path => ({path}, 0)
  | .skip => (0, 0, 1)
  | .done => 0

/-- The tally of what is received, what waits for a consumer, and what waits for a decompressor. -/
def deliveredBy (decoder : Gzip.MemberDecoder) (received output : List FileRecord)
    (gzipQueue : List (String × Bytes)) (skipped : ℕ) : Tally :=
  ((received : Multiset FileRecord) + (output : Multiset FileRecord), skipped) +
    (gzipQueue.map fun item => compressedTally decoder item.1 item.2).sum

section Delivered

variable (decoder : Gzip.MemberDecoder) (received output : List FileRecord)
  (gzipQueue : List (String × Bytes)) (skipped : ℕ) (record : FileRecord)

/-- It does not matter whether a record is with the consumers or still on the output queue. -/
theorem deliveredBy_record {received' output' : List FileRecord}
    (h : (received' : Multiset FileRecord) + output' = received + output + {record}) :
    deliveredBy decoder received' output' gzipQueue skipped =
      deliveredBy decoder received output gzipQueue skipped + ({record}, 0) := by
  rw [deliveredBy, deliveredBy, h]
  refine Prod.ext ?_ ?_
  · simp only [Prod.fst_add]
    abel
  · simp only [Prod.snd_add, add_zero]

theorem deliveredBy_receive :
    deliveredBy decoder (received ++ [record]) output gzipQueue skipped =
      deliveredBy decoder received output gzipQueue skipped + ({record}, 0) := by
  apply deliveredBy_record
  rw [← Multiset.coe_add, Multiset.coe_singleton]
  exact add_right_comm _ _ _

theorem deliveredBy_emit :
    deliveredBy decoder received (output ++ [record]) gzipQueue skipped =
      deliveredBy decoder received output gzipQueue skipped + ({record}, 0) := by
  apply deliveredBy_record
  rw [← Multiset.coe_add, Multiset.coe_singleton]
  exact (add_assoc _ _ _).symm

theorem deliveredBy_output :
    deliveredBy decoder received (record :: output) gzipQueue skipped =
      deliveredBy decoder received output gzipQueue skipped + ({record}, 0) := by
  apply deliveredBy_record
  rw [← Multiset.cons_coe, ← Multiset.singleton_add]
  abel

theorem deliveredBy_pass (name : String) (content : Bytes) :
    deliveredBy decoder received output (gzipQueue ++ [(name, content)]) skipped =
      deliveredBy decoder received output gzipQueue skipped +
        compressedTally decoder name content := by
  rw [deliveredBy, List.map_append, List.sum_append, List.map_singleton, List.sum_singleton,
    ← add_assoc]
  rfl

theorem deliveredBy_gzip (name : String) (content : Bytes) :
    deliveredBy decoder received output ((name, content) :: gzipQueue) skipped =
      deliveredBy decoder received output gzipQueue skipped +
        compressedTally decoder name content := by
  rw [deliveredBy, List.map_cons, List.sum_cons, add_left_comm, add_comm]
  rfl

theorem deliveredBy_skip :
    deliveredBy decoder received output gzipQueue (skipped + 1) =
      deliveredBy decoder received output gzipQueue skipped + (0, 1) := by
  refine Prod.ext ?_ ?_
  · simp only [deliveredBy, Prod.fst_add, add_zero]
  · simp only [deliveredBy, Prod.snd_add]
    omega

end Delivered

namespace State

def queued (state : State) : Multiset Path :=
  state.owner.paths + (state.jobs.map Job.paths).sum

def delivered (decoder : Gzip.MemberDecoder) (state : State) : Tally :=
  deliveredBy decoder (state.received.map (·.2)) state.output state.gzipQueue state.skipped

/-- What is with no worker. -/
def store (decoder : Gzip.MemberDecoder) (state : State) : Account :=
  (state.queued, state.delivered decoder)

/-- The account of everything, wherever it is. -/
def account (decoder : Gzip.MemberDecoder) (state : State) : Account :=
  state.store decoder + state.load (Effect.account decoder)

end State

variable {setup : Setup} {state after : State}

theorem account_ofItem (decoder : Gzip.MemberDecoder) (item : Item) :
    (Effect.ofItem item).account decoder = (0, (item.outcome decoder).tally) := by
  cases item <;> rfl

theorem measure_items (decoder : Gzip.MemberDecoder) (items : List Item) (base : ScanOutcome) :
    measure (Effect.account decoder) (items.map Effect.ofItem) + (0, base.tally) =
      (0, (items.foldr (fun item rest => item.outcome decoder ++ rest) base).tally) := by
  induction items with
  | nil => simp
  | cons item items ih =>
    rw [List.map_cons, measure_cons, add_assoc, ih, account_ofItem, List.foldr_cons,
      ScanOutcome.tally_append, Prod.mk_add_mk, add_zero]

theorem measure_found (decoder : Gzip.MemberDecoder) (found : List Path) :
    measure (Effect.account decoder) (found.map Effect.count) = (↑found, 0) := by
  induction found with
  | nil => rfl
  | cons path found ih =>
    rw [List.map_cons, measure_cons, ih, ← Multiset.cons_coe, ← Multiset.singleton_add]
    rfl

/-- The effects of an expansion, whatever is measured: items, found paths, a failure, the end. -/
theorem measure_ofExpansion_eq_sum {M : Type*} [AddCommMonoid M] (f : Effect → M)
    (expansion : Expansion) :
    measure f (Effect.ofExpansion expansion) =
      (expansion.items.map fun item => f (Effect.ofItem item)).sum +
        (expansion.found.map fun path => f (.count path)).sum +
        (if expansion.failed then f .skip else 0) + f .done := by
  have hfailed : measure f (if expansion.failed then [.skip] else []) =
      if expansion.failed then f .skip else 0 := by
    cases expansion.failed
    · rfl
    · exact List.sum_singleton
  rw [Effect.ofExpansion, measure_append, measure_append, measure_append, hfailed]
  simp [measure, Function.comp_def]

/-- What an expander takes on with a path is what expanding the path yields and finds. -/
theorem measure_ofExpansion (decoder : Gzip.MemberDecoder) (expansion : Expansion) :
    measure (Effect.account decoder) (Effect.ofExpansion expansion) =
      (↑expansion.found, expansion.tally decoder) := by
  have hfailed : measure (Effect.account decoder) (if expansion.failed then [.skip] else []) =
      (0, ({ skipped := if expansion.failed then 1 else 0 } : ScanOutcome).tally) := by
    cases expansion.failed <;> rfl
  have hdone : measure (Effect.account decoder) [.done] = 0 := rfl
  rw [Effect.ofExpansion, measure_append, measure_append, measure_append, measure_found, hfailed,
    hdone, add_zero, add_right_comm, measure_items, Prod.mk_add_mk, zero_add, add_zero]
  rfl

theorem measure_ofCompressed (decoder : Gzip.MemberDecoder) (name : String) (content : Bytes) :
    measure (Effect.account decoder) (Effect.ofCompressed decoder name content) =
      (0, compressedTally decoder name content) := by
  unfold Effect.ofCompressed compressedTally Item.outcome
  cases (Item.compressed name content).deliver? decoder <;> rfl

section Store

variable (decoder : Gzip.MemberDecoder)

theorem store_of_jobs {job : Job} {jobs : List Job} (hj : state.jobs = job :: jobs) :
    state.store decoder = ({ state with jobs } : State).store decoder + (job.paths, 0) := by
  rw [State.store, State.store, Prod.mk_add_mk, add_zero, State.queued, State.queued, hj,
    List.map_cons, List.sum_cons, add_comm job.paths, add_assoc]
  rfl

theorem store_send (state : State) (job : Job) :
    ({ state with jobs := state.jobs ++ [job] } : State).store decoder =
      state.store decoder + (job.paths, 0) := by
  rw [State.store, State.store, Prod.mk_add_mk, add_zero, State.queued, State.queued,
    List.map_append, List.sum_append, List.map_singleton, List.sum_singleton, add_assoc]
  rfl

theorem store_of_gzipQueue {name : String} {content : Bytes} {gzipQueue : List (String × Bytes)}
    (hq : state.gzipQueue = (name, content) :: gzipQueue) :
    state.store decoder = ({ state with gzipQueue } : State).store decoder +
      (0, compressedTally decoder name content) := by
  rw [State.store, State.store, Prod.mk_add_mk, add_zero, State.delivered, hq, deliveredBy_gzip]
  rfl

theorem store_handOver (state : State) (consumer : ℕ) (record : FileRecord) (emitted : ℕ) :
    ({ state with
        received := state.received ++ [(consumer, record)]
        emitted } : State).store decoder = state.store decoder + (0, {record}, 0) := by
  rw [State.store, State.store, Prod.mk_add_mk, add_zero, State.delivered, List.map_append,
    List.map_singleton, deliveredBy_receive]
  rfl

theorem store_receive {record : FileRecord} {output : List FileRecord} (consumer : ℕ)
    (ho : state.output = record :: output) :
    ({ state with
        output
        received := state.received ++ [(consumer, record)] } : State).store decoder =
      state.store decoder := by
  rw [State.store, State.store, State.delivered, State.delivered, ho, deliveredBy_output,
    List.map_append, List.map_singleton, deliveredBy_receive]
  rfl

/-- An effect moves what it is about from the worker to where it goes. -/
theorem Performs.store {effect : Effect} {more : List Effect}
    (h : Performs setup state effect after more) :
    after.store decoder + measure (Effect.account decoder) more =
      state.store decoder + effect.account decoder := by
  cases h with
  | emit _ =>
    rw [measure_nil, add_zero, Effect.account, State.store, State.store, Prod.mk_add_mk, add_zero]
    exact Prod.ext rfl (deliveredBy_emit decoder _ _ _ _ _)
  | pass _ =>
    rw [measure_nil, add_zero, Effect.account, State.store, State.store, Prod.mk_add_mk, add_zero]
    exact Prod.ext rfl (deliveredBy_pass decoder _ _ _ _ _ _)
  | count =>
    rw [measure_cons, measure_nil, add_zero]
    rfl
  | send =>
    rw [measure_nil, add_zero]
    exact store_send decoder state _
  | skip =>
    rw [measure_nil, add_zero, Effect.account, State.store, State.store, Prod.mk_add_mk, add_zero]
    exact Prod.ext rfl (deliveredBy_skip decoder _ _ _ _)
  | done =>
    rw [measure_nil]
    rfl

theorem store_own {owner next : Owner} (ho : state.owner = owner)
    (hpaths : next.paths = owner.paths) (pending : ℕ) :
    ({ state with owner := next, pending } : State).store decoder = state.store decoder := by
  rw [State.store, State.store, State.queued, State.queued, ho, ← hpaths]
  rfl

/-- Resuming a worker leaves the rest of the account alone. -/
theorem exists_account_eq {id : WorkerId} {worker : Worker}
    (h : state.worker? id = some worker) :
    ∃ others : Account,
      state.account decoder =
        state.store decoder + (others + measure (Effect.account decoder) worker.effects) ∧
      ∀ (after : State) (next : Worker), after.expanders = state.expanders →
        after.decompressors = state.decompressors →
        (after.setWorker id next).account decoder =
          after.store decoder + (others + measure (Effect.account decoder) next.effects) :=
  exists_total_eq (fun worker => measure (Effect.account decoder) worker.effects)
    (State.store decoder) (fun _ id _ => by cases id <;> rfl) h

end Store

def Advances (decoder : Gzip.MemberDecoder) (tree : FileTree) (before after : Account) : Prop :=
  after = before ∨ ∃ path rest total, before = (path ::ₘ rest, total) ∧
    after = (↑(Expansion.ofPath tree path).found + rest,
      (Expansion.ofPath tree path).tally decoder + total)

/-- An idle expander takes the first path of the queue. -/
inductive Takes (setup : Setup) (state : State) (path : Path) : State → Prop where
  | take {index : ℕ} {jobs : List Job} (hw : state.worker? (.expander index) = some .idle)
      (hj : state.jobs = .expand path :: jobs) :
      Takes setup state path ({ state with jobs }.resume (.expander index)
        (Effect.ofExpansion (Expansion.ofPath setup.tree path)))

/-- The expander accounts for what the path yields and finds, instead of the path itself. -/
theorem Takes.account {path : Path} (h : Takes setup state path after) :
    ∃ rest total, state.account setup.decoder = (path ::ₘ rest, total) ∧
      after.account setup.decoder = (↑(Expansion.ofPath setup.tree path).found + rest,
        (Expansion.ofPath setup.tree path).tally setup.decoder + total) := by
  obtain @⟨index, jobs, hw, hj⟩ := h
  obtain ⟨others, hbefore, hafter⟩ := exists_account_eq setup.decoder hw
  have hidle : measure (Effect.account setup.decoder) Worker.idle.effects = 0 := rfl
  refine ⟨(({ state with jobs } : State).store setup.decoder + others).1,
    (({ state with jobs } : State).store setup.decoder + others).2, ?_, ?_⟩
  · rw [hbefore, store_of_jobs setup.decoder hj, hidle, add_zero, add_right_comm]
    refine Prod.ext ?_ (add_zero _)
    exact (add_comm _ _).trans (Multiset.singleton_add _ _)
  · rw [State.resume, hafter { state with jobs } _ rfl rfl, effects_resumed,
      measure_ofExpansion, ← add_assoc, add_comm]
    rfl

/-- Every other step leaves the account as it is. -/
theorem Move.account_or_takes (h : Move setup state after) :
    after.account setup.decoder = state.account setup.decoder ∨
      ∃ path, Takes setup state path after := by
  have hstore : ∀ {next : State}, next.store setup.decoder = state.store setup.decoder →
      next.expanders = state.expanders → next.decompressors = state.decompressors →
      next.account setup.decoder = state.account setup.decoder ∨
        ∃ path, Takes setup state path next := by
    intro next hnext he hd
    left
    rw [State.account, State.account, hnext, State.load, State.load, he, hd]
  cases h with
  | countInput ho => exact hstore (store_own _ ho rfl (state.pending + 1)) rfl rfl
  | @sendInput path inputs ho =>
    refine hstore ?_ rfl rfl
    have hsend := store_send setup.decoder { state with owner := .adding inputs } (.expand path)
    rw [hsend, State.store, State.store, Prod.mk_add_mk, add_zero]
    refine Prod.ext ?_ rfl
    change ↑inputs + (state.jobs.map Job.paths).sum + {path} = state.queued
    rw [State.queued, ho, Owner.paths, ← Multiset.singleton_add]
    abel
  | wait ho => exact hstore (store_own _ ho rfl state.pending) rfl rfl
  | stop ho _ => exact hstore (store_own _ ho rfl state.pending) rfl rfl
  | @sendShutdown count ho =>
    refine hstore ?_ rfl rfl
    have hsend := store_send setup.decoder { state with owner := .stopping count } .shutdown
    rw [hsend]
    change _ + 0 = _
    rw [add_zero]
    exact store_own _ ho rfl state.pending
  | join ho => exact hstore (store_own _ ho rfl state.pending) rfl rfl
  | joinExpanders ho _ => exact hstore (store_own _ ho rfl state.pending) rfl rfl
  | joinDecompressors ho _ => exact hstore (store_own _ ho rfl state.pending) rfl rfl
  | expand hw hj => exact Or.inr ⟨_, .take hw hj⟩
  | @retire index jobs hw hj =>
    left
    obtain ⟨others, hbefore, hafter⟩ := exists_account_eq setup.decoder hw
    rw [hbefore, hafter { state with jobs } _ rfl rfl, store_of_jobs setup.decoder hj]
    change _ = _ + 0 + _
    rw [add_zero]
    rfl
  | @inflate index name content gzipQueue hw hq =>
    left
    obtain ⟨others, hbefore, hafter⟩ := exists_account_eq setup.decoder hw
    have hidle : measure (Effect.account setup.decoder) Worker.idle.effects = 0 := rfl
    rw [State.resume, hbefore, hafter { state with gzipQueue } _ rfl rfl, effects_resumed,
      measure_ofCompressed, store_of_gzipQueue setup.decoder hq, hidle]
    abel
  | leave hw hq _ =>
    left
    obtain ⟨others, hbefore, hafter⟩ := exists_account_eq setup.decoder hw
    rw [hbefore, hafter state _ rfl rfl]
    rfl
  | @act id effect effects more mid hw hp =>
    left
    obtain ⟨_, he, hd, _⟩ := hp.frame
    obtain ⟨others, hbefore, hafter⟩ := exists_account_eq setup.decoder hw
    have hbusy : (Worker.busy (effect :: effects)).effects = effect :: effects := rfl
    have hmoved := hp.store setup.decoder
    rw [State.resume, hbefore, hafter mid _ he hd, effects_resumed, measure_append, hbusy,
      measure_cons, add_left_comm others, ← add_assoc, hmoved]
    abel
  | @handOver id record effects consumer hw _ =>
    left
    obtain ⟨others, hbefore, hafter⟩ := exists_account_eq setup.decoder hw
    have hbusy : (Worker.busy (.emit record :: effects)).effects = .emit record :: effects := rfl
    rw [State.resume, hbefore, hafter
      { state with
        received := state.received ++ [(consumer, record)], emitted := state.emitted + 1 }
      _ rfl rfl, effects_resumed, hbusy, measure_cons, store_handOver, Effect.account]
    abel
  | receive ho _ => exact hstore (store_receive setup.decoder _ ho) rfl rfl

/-- Every step leaves the account as it is, or expands one path of it. -/
theorem Move.account (h : Move setup state after) :
    Advances setup.decoder setup.tree (state.account setup.decoder)
      (after.account setup.decoder) := by
  rcases h.account_or_takes with hsame | ⟨path, htakes⟩
  · exact Or.inl hsame
  · obtain ⟨rest, total, hbefore, hafter⟩ := htakes.account
    exact Or.inr ⟨path, rest, total, hbefore, hafter⟩

end PlaneArchive.Scan
