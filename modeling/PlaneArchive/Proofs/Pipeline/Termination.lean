import PlaneArchive.Proofs.Pipeline.Moves
import PlaneArchive.Proofs.Scan.Termination

/-! # The pipeline comes to an end

A record that is handed over leaves one step to the consumer, and costs the scan at least one. So
twice the cost of the scan covers the steps of the consumer, and there is no endless run.
-/
namespace PlaneArchive.Pipeline

variable {σ ι : Type}

/-- What is left to do for a consumer, apart from what it will be handed. -/
def Stage.cost : Stage ι → ℕ
  | .writing _ => 3
  | .receiving | .draining _ => 2
  | .finished _ => 0

def State.cost (setup : Setup) (state : State σ ι) : ℕ :=
  2 * state.scan.cost (Scan.pathPrice setup.tree) setup.config.expanders +
    state.consumer.stage.cost + if state.returned?.isNone then 1 else 0

theorem cost_accept?_le {consumer next : Consumer σ ι} {record : FileRecord}
    (h : consumer.accept? record = some next) :
    next.stage.cost ≤ consumer.stage.cost + 1 := by
  unfold Consumer.accept? at h
  split at h
  · next hs =>
    cases h
    rw [hs]
    exact Nat.le_refl 3
  · cases h
    exact Nat.le_succ _
  · cases h
  · cases h

variable [Sink σ ι] {setup : Setup} {inputs : List Path} {writer : Writer σ}
  {state after : State σ ι}

theorem cost_write?_lt {progress : Bool} {consumer next : Consumer σ ι}
    (h : consumer.write? progress = some next) : next.stage.cost < consumer.stage.cost := by
  unfold Consumer.write? at h
  split at h
  · next hs =>
    rw [hs, ← Option.some_inj.mp h]
    dsimp only
    split <;> exact Nat.lt_succ_self 2
  · cases h
  · cases h
  · cases h

theorem cost_finish?_lt {consumer next : Consumer σ ι} (h : consumer.finish? = some next) :
    next.stage.cost < consumer.stage.cost := by
  unfold Consumer.finish? at h
  split at h
  · next hs =>
    rw [hs, ← Option.some_inj.mp h]
    exact Nat.two_pos
  · next hs =>
    rw [hs, ← Option.some_inj.mp h]
    exact Nat.two_pos
  · cases h
  · cases h

/-- Every step lowers the cost. -/
theorem Move.cost_lt (hnamed : setup.tree.Named) (hr : Reachable setup inputs writer state)
    (h : Move setup state after) : after.cost setup < state.cost setup := by
  have hscan : ∀ {event : Scan.Event} {scan : Scan.State},
      state.scan.next? setup.scan event = some scan →
      scan.cost (Scan.pathPrice setup.tree) setup.config.expanders <
        state.scan.cost (Scan.pathPrice setup.tree) setup.config.expanders :=
    fun hnext => (Scan.move_of_next? hnext).cost_lt (Scan.staffed_of_reachable hr.scan)
      (Scan.pathPrice_eq hnamed)
  cases h with
  | scan hnext _ =>
    have := hscan hnext
    simp only [State.cost]
    omega
  | accept hnext _ ha =>
    have hlt := hscan hnext
    have hle := cost_accept?_le ha
    simp only [State.cost]
    omega
  | write hw =>
    have := cost_write?_lt hw
    simp only [State.cost]
    omega
  | finish _ hf =>
    have := cost_finish?_lt hf
    simp only [State.cost]
    omega
  | join hreturned _ _ =>
    rw [State.cost, State.cost, hreturned]
    exact Nat.lt_succ_self _

/-- However the steps interleave, there are no more of them than the cost at the beginning. -/
theorem length_add_cost_le {events : List Event} (hnamed : setup.tree.Named)
    (hr : Reachable setup inputs writer state) (hrun : state.run? setup events = some after) :
    events.length + after.cost setup ≤ state.cost setup := by
  induction events generalizing state with
  | nil =>
    cases hrun
    exact (Nat.zero_add _).le
  | cons event events ih =>
    obtain ⟨next, hnext, hrest⟩ := run?_cons_eq_some_iff.mp hrun
    have hstep := (move_of_next? hnext).cost_lt hnamed hr
    have hlater := ih (.step event hr hnext) hrest
    rw [List.length_cons]
    omega

end PlaneArchive.Pipeline
