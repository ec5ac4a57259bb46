import PlaneArchive.Proofs.Scan.Pending

/-! # How a scan ends

Shutdown messages are sent only when nothing is pending, and from then on nothing is. Decompressors
stay until their queue is empty and every expander has exited. So when closing returns, no path, no
gzip data and no effect is left anywhere.
-/
namespace PlaneArchive.Scan

/-- From the first shutdown message on the owner only winds the scan up. -/
def Owner.isStopping : Owner → Bool
  | .stopping _ | .joiningExpanders | .joiningDecompressors | .closed => true
  | .adding _ | .sending _ _ | .waiting => false

/-- What holds of the pools and the queues on the way to the end. -/
structure Shutdown (setup : Setup) (state : State) : Prop where
  quiet : state.owner.isStopping = true → state.pending = 0
  expanders_gone : state.owner = .joiningDecompressors ∨ state.owner = .closed →
    state.expandersExited = true
  decompressors_gone : state.owner = .closed → state.decompressorsExited = true
  left : Worker.exited ∈ state.decompressors → state.expandersExited = true
  pool : state.decompressors.length = setup.config.decompressors
  emptied : state.decompressorsExited = true → state.gzipQueue = []

variable {setup : Setup} {state after : State}

theorem expandersExited_iff :
    state.expandersExited = true ↔ ∀ worker ∈ state.expanders, worker = .exited := by
  simp [State.expandersExited]

theorem decompressorsExited_iff :
    state.decompressorsExited = true ↔ ∀ worker ∈ state.decompressors, worker = .exited := by
  simp [State.decompressorsExited]

theorem resumed_ne_exited (effects : List Effect) :
    (if effects.isEmpty then Worker.idle else .busy effects) ≠ .exited := by
  cases effects <;> exact Worker.noConfusion

/-- A step changes at most one expander, and none that has exited. -/
theorem Move.expanders (h : Move setup state after) :
    after.expanders = state.expanders ∨ ∃ worker ∈ state.expanders, worker ≠ .exited := by
  cases h with
  | expand hw _ => exact Or.inr ⟨_, List.mem_of_getElem? hw, Worker.noConfusion⟩
  | retire hw _ => exact Or.inr ⟨_, List.mem_of_getElem? hw, Worker.noConfusion⟩
  | @act id effect effects more mid hw hp =>
    cases id with
    | expander index => exact Or.inr ⟨_, List.mem_of_getElem? hw, Worker.noConfusion⟩
    | decompressor index => exact Or.inl hp.frame.2.1
  | @handOver id record effects consumer hw _ =>
    cases id with
    | expander index => exact Or.inr ⟨_, List.mem_of_getElem? hw, Worker.noConfusion⟩
    | decompressor index => exact Or.inl rfl
  | _ => exact Or.inl rfl

/-- A step leaves the decompressors as they are, resumes one, or lets one go. -/
theorem Move.decompressors (h : Move setup state after) :
    after.decompressors = state.decompressors ∨
    (∃ index worker effects, state.decompressors[index]? = some worker ∧ worker ≠ .exited ∧
      after.decompressors = state.decompressors.set index
        (if effects.isEmpty then .idle else .busy effects)) ∨
    ∃ index, state.decompressors[index]? = some .idle ∧
      after.decompressors = state.decompressors.set index .exited ∧
      state.expandersExited = true ∧ after.gzipQueue = [] := by
  cases h with
  | inflate hw _ => exact Or.inr (Or.inl ⟨_, _, _, hw, Worker.noConfusion, rfl⟩)
  | leave hw hq he => exact Or.inr (Or.inr ⟨_, hw, rfl, he, hq⟩)
  | @act id effect effects more mid hw hp =>
    have hsame := hp.frame.2.2.1
    cases id with
    | expander index => exact Or.inl hsame
    | decompressor index =>
      refine Or.inr (Or.inl ⟨index, _, more ++ effects, hw, Worker.noConfusion, ?_⟩)
      rw [← hsame]
      rfl
  | @handOver id record effects consumer hw _ =>
    cases id with
    | expander index => exact Or.inl rfl
    | decompressor index => exact Or.inr (Or.inl ⟨_, _, _, hw, Worker.noConfusion, rfl⟩)
  | _ => exact Or.inl rfl

theorem Move.expandersExited (h : Move setup state after) (he : state.expandersExited = true) :
    after.expandersExited = true := by
  rw [expandersExited_iff] at he ⊢
  rcases h.expanders with hsame | ⟨worker, hmem, hne⟩
  · rw [hsame]
    exact he
  · exact absurd (he worker hmem) hne

theorem Move.decompressorsExited (h : Move setup state after)
    (hd : state.decompressorsExited = true) : after.decompressorsExited = true := by
  rw [decompressorsExited_iff] at hd ⊢
  rcases h.decompressors with hsame | ⟨index, worker, _, hw, hne, _⟩ | ⟨index, hw, _⟩
  · rw [hsame]
    exact hd
  · exact absurd (hd worker (List.mem_of_getElem? hw)) hne
  · cases hd _ (List.mem_of_getElem? hw)

/-- The gzip queue only grows by an expander that is at work. -/
theorem Move.gzipQueue (h : Move setup state after) (hs : Disciplined state) :
    (state.gzipQueue = [] → after.gzipQueue = []) ∨
      (∃ worker ∈ state.expanders, worker ≠ .exited) ∧
        state.gzipQueue.length < setup.config.decompressors := by
  cases h with
  | @inflate index name content gzipQueue hw hq =>
    left
    intro hempty
    rw [hempty] at hq
    cases hq
  | leave _ hq _ => exact Or.inl fun _ => hq
  | @act id effect effects more mid hw hp =>
    cases hp with
    | pass hroom =>
      obtain ⟨index, rfl⟩ :=
        hs.exists_expander hw (fun _ => Effect.noConfusion) Effect.noConfusion
      refine Or.inr ⟨⟨_, List.mem_of_getElem? hw, Worker.noConfusion⟩, ?_⟩
      simpa [State.gzipHasRoom] using hroom
    | _ =>
      left
      intro hempty
      cases id <;> exact hempty
  | @handOver id record effects consumer hw _ =>
    left
    intro hempty
    cases id <;> exact hempty
  | _ => exact Or.inl fun hempty => hempty

/-- Nothing comes to be counted any more once the count is zero and no input is left. -/
theorem Move.idle (h : Move setup state after) (hs : Disciplined state)
    (hp : state.work ≤ state.pending) (hnone : state.owner.paths = 0) (hzero : state.pending = 0) :
    after.owner.paths = 0 ∧ after.pending = 0 := by
  cases h with
  | @countInput path inputs ho =>
    rw [ho] at hnone
    change path ::ₘ (inputs : Multiset Path) = 0 at hnone
    exact absurd hnone Multiset.cons_ne_zero
  | @sendInput path inputs ho =>
    rw [ho] at hnone
    change path ::ₘ (inputs : Multiset Path) = 0 at hnone
    exact absurd hnone Multiset.cons_ne_zero
  | wait _ => exact ⟨rfl, hzero⟩
  | stop _ _ => exact ⟨rfl, hzero⟩
  | sendShutdown _ => exact ⟨rfl, hzero⟩
  | join _ => exact ⟨rfl, hzero⟩
  | joinExpanders _ _ => exact ⟨rfl, hzero⟩
  | joinDecompressors _ _ => exact ⟨rfl, hzero⟩
  | expand _ hj =>
    have hpos := pending_pos_of_mem_jobs hp (hj ▸ List.mem_cons_self)
    exact absurd hzero hpos.ne'
  | retire _ _ => exact ⟨hnone, hzero⟩
  | inflate _ _ => exact ⟨hnone, hzero⟩
  | leave _ _ _ => exact ⟨hnone, hzero⟩
  | @act id effect effects more mid hw hperform =>
    cases id with
    | expander index => exact absurd hzero (pending_pos_of_busy hs hp hw).ne'
    | decompressor index =>
      have hinflating := hs.inflating _ (List.mem_of_getElem? hw) effect List.mem_cons_self
      rcases hinflating with ⟨record, rfl⟩ | rfl
      · cases hperform
        exact ⟨hnone, hzero⟩
      · cases hperform
        exact ⟨hnone, hzero⟩
  | handOver _ _ =>
    rw [State.owner_resume, State.pending_resume]
    exact ⟨hnone, hzero⟩
  | receive _ _ => exact ⟨hnone, hzero⟩

theorem Owner.paths_of_isStopping {owner : Owner} (h : owner.isStopping = true) :
    owner.paths = 0 := by
  cases owner with
  | adding _ => cases h
  | sending _ _ => cases h
  | _ => rfl

/-- The first shutdown message is due when the owner has seen that nothing is pending. -/
theorem Move.stops (h : Move setup state after) (hstop : after.owner.isStopping = true) :
    state.owner.isStopping = true ∨ state.owner = .waiting ∧ state.pending = 0 := by
  cases h with
  | countInput _ => cases hstop
  | sendInput _ => cases hstop
  | wait _ => cases hstop
  | stop ho hzero => exact Or.inr ⟨ho, hzero⟩
  | sendShutdown ho => exact Or.inl (by rw [ho]; rfl)
  | join ho => exact Or.inl (by rw [ho]; rfl)
  | joinExpanders ho _ => exact Or.inl (by rw [ho]; rfl)
  | joinDecompressors ho _ => exact Or.inl (by rw [ho]; rfl)
  | act _ hp =>
    rw [State.owner_resume, hp.frame.1] at hstop
    exact Or.inl hstop
  | handOver _ _ =>
    rw [State.owner_resume] at hstop
    exact Or.inl hstop
  | _ => exact Or.inl hstop

theorem Move.quiet (h : Move setup state after) (hs : Disciplined state)
    (hp : state.work ≤ state.pending) (hquiet : state.owner.isStopping = true → state.pending = 0)
    (hstop : after.owner.isStopping = true) : after.pending = 0 := by
  rcases h.stops hstop with hbefore | ⟨ho, hzero⟩
  · exact (h.idle hs hp (Owner.paths_of_isStopping hbefore) (hquiet hbefore)).2
  · exact (h.idle hs hp (by rw [ho]; rfl) hzero).2

theorem Move.gone (h : Move setup state after) (hs : Shutdown setup state) :
    (after.owner = .joiningDecompressors ∨ after.owner = .closed →
      after.expandersExited = true) ∧
    (after.owner = .closed → after.decompressorsExited = true) := by
  have hkeep : after.owner = state.owner →
      (after.owner = .joiningDecompressors ∨ after.owner = .closed →
        after.expandersExited = true) ∧
      (after.owner = .closed → after.decompressorsExited = true) := by
    intro hsame
    rw [hsame]
    exact ⟨fun ho => h.expandersExited (hs.expanders_gone ho),
      fun ho => h.decompressorsExited (hs.decompressors_gone ho)⟩
  have hearly : after.owner ≠ .joiningDecompressors → after.owner ≠ .closed →
      (after.owner = .joiningDecompressors ∨ after.owner = .closed →
        after.expandersExited = true) ∧
      (after.owner = .closed → after.decompressorsExited = true) := fun hjoin hclosed =>
    ⟨fun ho => (ho.elim hjoin hclosed).elim, fun ho => absurd ho hclosed⟩
  cases h with
  | countInput _ => exact hearly Owner.noConfusion Owner.noConfusion
  | sendInput _ => exact hearly Owner.noConfusion Owner.noConfusion
  | wait _ => exact hearly Owner.noConfusion Owner.noConfusion
  | stop _ _ => exact hearly Owner.noConfusion Owner.noConfusion
  | sendShutdown _ => exact hearly Owner.noConfusion Owner.noConfusion
  | join _ => exact hearly Owner.noConfusion Owner.noConfusion
  | joinExpanders _ he => exact ⟨fun _ => he, fun ho => Owner.noConfusion ho⟩
  | joinDecompressors ho hd => exact ⟨fun _ => hs.expanders_gone (Or.inl ho), fun _ => hd⟩
  | act _ hp =>
    refine hkeep ?_
    rw [State.owner_resume, hp.frame.1]
  | handOver _ _ =>
    refine hkeep ?_
    rw [State.owner_resume]
  | _ => exact hkeep rfl

theorem Move.shutdown (h : Move setup state after) (hd : Disciplined state)
    (hp : state.work ≤ state.pending) (hs : Shutdown setup state) : Shutdown setup after := by
  obtain ⟨hexpanders, hdecompressors⟩ := h.gone hs
  refine ⟨h.quiet hd hp hs.quiet, hexpanders, hdecompressors, ?_, ?_, ?_⟩
  · intro hmem
    refine h.expandersExited ?_
    rcases h.decompressors with hsame | ⟨index, _, effects, _, _, hset⟩ | ⟨index, _, _, he, _⟩
    · exact hs.left (hsame ▸ hmem)
    · rw [hset] at hmem
      rcases List.mem_or_eq_of_mem_set hmem with hold | hnew
      · exact hs.left hold
      · exact absurd hnew.symm (resumed_ne_exited effects)
    · exact he
  · rcases h.decompressors with hsame | ⟨_, _, _, _, _, hset⟩ | ⟨_, _, hset, _⟩
    · rw [hsame]
      exact hs.pool
    · rw [hset, List.length_set]
      exact hs.pool
    · rw [hset, List.length_set]
      exact hs.pool
  · intro hexited
    rcases h.decompressors with hsame | ⟨index, _, effects, hw, _, hset⟩ | ⟨_, _, _, _, hqueue⟩
    · have hbefore : state.decompressorsExited = true := by
        rw [decompressorsExited_iff] at hexited ⊢
        rw [← hsame]
        exact hexited
      rcases h.gzipQueue hd with hempty | ⟨⟨worker, hmem, hne⟩, hroom⟩
      · exact hempty (hs.emptied hbefore)
      · -- An expander is at work, so no decompressor has exited, and there is one.
        exfalso
        cases hpool : state.decompressors with
        | nil =>
          have hlength := hs.pool
          rw [hpool, List.length_nil] at hlength
          omega
        | cons first rest =>
          have hfirst : first ∈ state.decompressors := hpool ▸ List.mem_cons_self
          have hexit := decompressorsExited_iff.mp hbefore first hfirst
          have hall := expandersExited_iff.mp (hs.left (hexit ▸ hfirst))
          exact hne (hall worker hmem)
    · exfalso
      have hlt := (List.getElem?_eq_some_iff.mp hw).1
      have hmem : (if effects.isEmpty then Worker.idle else .busy effects) ∈
          after.decompressors := hset ▸ List.mem_set hlt _
      exact resumed_ne_exited effects (decompressorsExited_iff.mp hexited _ hmem)
    · exact hqueue

end PlaneArchive.Scan
