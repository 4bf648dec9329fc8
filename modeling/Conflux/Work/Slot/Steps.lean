import Conflux.Work.Slot.Invariant

/-!
# Each step in the life of a slot keeps the invariant
-/

namespace Conflux.Work.Slot

open Conflux.Core (Threads)
open Conflux.Work.Control

variable {ι T E C : Type} [DecidableEq ι] {s : Life ι T E C} {b : Block T E C}

theorem settled_of_installed (h : BlockInv b) (hb : b.seen.installed = []) : Settled b.seen := by
  obtain hnone | ⟨fn, hfn, -⟩ := h.callbacks
  · exact .inl hnone
  · rw [hb] at hfn
    cases hfn

variable {b' : Block T E C}

theorem settled_kept (h : Settled b.seen) (hk : Kept b b') : Settled b'.seen := by
  rw [Settled, hk.installed, hk.cleared, hk.ran]
  exact h

theorem Registers.frame {fn : Nat} {status : Option ReadyRegistration}
    {r : Block T E C × Control.Pc T E C} (h : Registers b fn status r) :
    r.1.seen.handed = b.seen.handed ∧ r.1.abandoned = b.abandoned := by
  cases h with
  | goesOn hk => exact ⟨hk.handed, hk.abandoned⟩
  | installed _ _ hhanded habandoned => exact ⟨hhanded, habandoned⟩
  | alreadyReady hk | alreadyInstalled hk => exact ⟨hk.handed, hk.abandoned⟩

namespace Life

theorem Base.inv (h : Base s) : BlockInv s.block := h.control.holds.shared

theorem Base.local (h : Base s) (who : Who ι) : Local s.block (s.control.pc who) :=
  h.control.holds.each who

theorem Base.unhanded (h : Base s) (huntaken : s.Untaken) : s.block.seen.handed = [] := by
  rw [h.handed, huntaken.1, huntaken.2]
  rfl

/-- A step of a call of the owner that gives nothing out. -/
theorem Base.call (h : Base s) {request : Request T E C}
    (hhanded : (Block.step request s.block (s.control.pc .owner)).1.seen.handed =
      s.block.seen.handed)
    (habandoned : (Block.step request s.block (s.control.pc .owner)).1.abandoned =
      s.block.abandoned) : Base (s.call request) where
  control := h.control.fire _
  callback := by
    rw [← h.callback]
    exact Threads.fire_pc_of_ne _ _ (by simp)
  neutral i := by
    have hi : (s.call request).control.pc (.task i) = s.control.pc (.task i) :=
      Threads.fire_pc_of_ne _ _ (by simp)
    rw [hi]
    exact h.neutral i
  abandoned := habandoned.trans h.abandoned
  handed := hhanded.trans h.handed
  dropped := h.dropped

theorem call_owner (s : Life ι T E C) (request : Request T E C) :
    (s.call request).control.pc .owner =
      (Block.step request s.block (s.control.pc .owner)).2 :=
  Threads.fire_pc_self _ _ _

/-! ## Joins -/

/-- A join waits for the mutex or finds the outcome, if it is stored and nobody has got it. -/
theorem join_eq (h : Base s) {who : Who ι} (hidle : s.control.pc who = .idle)
    (hcarried : (s.control.pc .owner).carried = none) (huntaken : s.Untaken)
    (hstored : s.block.terminalState ≠ .none)
    (joined : Outcome T E → Life ι T E C → Life ι T E C) :
    s.join who joined = s ∨ ∃ o, Reached { s.control with shared := taken s.block o } ∧
      s.join who joined =
        joined o { s with control := { s.control with shared := taken s.block o } } := by
  have hfree : ∀ who, (s.control.pc who).carried = none := by
    intro who
    cases who with
    | owner => exact hcarried
    | callback => rw [h.callback]; rfl
    | task i =>
      have hi := h.neutral i
      cases hk : s.control.pc (.task i) with
      | runSink => rw [hk] at hi; exact hi.elim
      | _ => rfl
  obtain ⟨o, ho⟩ := h.control.exists_outcome hstored (h.unhanded huntaken) hfree
  rw [join, if_neg hstored]
  split
  · exact .inl rfl
  rename_i hlocked
  have hrun := run_take hidle hstored (Bool.eq_false_iff.mpr hlocked) ho
  have hreached := h.control.run (List.replicate 3 (who, .tryTakeReadyOutcome))
  rw [hrun] at hreached
  refine .inr ⟨o, hreached, ?_⟩
  rw [block, ho]
  rw [hrun]

theorem good_join (h : Good s) (howner : s.control.pc .owner = .idle) (huntaken : s.Untaken)
    (hstored : s.block.terminalState ≠ .none)
    {joined : Outcome T E → Life ι T E C → Life ι T E C}
    (hjoined : ∀ o, Reached { s.control with shared := taken s.block o } →
      Good (joined o { s with control := { s.control with shared := taken s.block o } })) :
    Good (s.join .owner joined) := by
  have hcarried : (s.control.pc .owner).carried = none := by
    rw [howner]
    rfl
  obtain heq | ⟨o, hreached, heq⟩ := join_eq h.toBase howner hcarried huntaken hstored joined
  · rw [heq]
    exact h
  · rw [heq]
    exact hjoined o hreached

variable {o : Outcome T E} {s' : Life ι T E C} {fn : Nat}

/-- What a join leaves of the facts about the block. -/
theorem Base.taken (h : Base s) (huntaken : s.Untaken)
    (hreached : Reached { s.control with shared := taken s.block o })
    (hcontrol : s'.control = { s.control with shared := Slot.taken s.block o })
    (hgot : s'.consumed ++ s'.drained = [o])
    (hdropped : s'.dropped = if s'.onDrop then s'.drained else []) : Base s' := by
  refine ⟨?_, ?_, ?_, ?_, ?_, hdropped⟩
  · rw [hcontrol]
    exact hreached
  · rw [hcontrol]
    exact h.callback
  · rw [hcontrol]
    exact h.neutral
  · rw [block, hcontrol]
    exact h.abandoned
  rw [block, hcontrol, hgot, Slot.taken, h.unhanded huntaken]
  rfl

theorem good_consume (h : Good s) (hidle : s.control.pc .owner = .idle) (huntaken : s.Untaken)
    (hsettled : Settled s.block.seen)
    (hreached : Reached { s.control with shared := taken s.block o }) :
    Good (consume o { s with control := { s.control with shared := taken s.block o } }) := by
  refine ⟨h.taken huntaken hreached rfl ?_ h.dropped, hidle, .inl ⟨?_, hsettled⟩⟩
  · rw [consume, huntaken.1, huntaken.2]
    rfl
  · exact fun hno => List.concat_ne_nil _ _ hno.1

theorem Base.dropped_deliver (h : Base s) (huntaken : s.Untaken) (o : Outcome T E) :
    (deliver o s).dropped = if s.onDrop then (deliver o s).drained else [] := by
  have hdropped := h.dropped
  rw [huntaken.2] at hdropped
  rw [deliver, huntaken.2, hdropped]
  cases s.onDrop with
  | true | false => rfl

theorem good_deliver (h : Good s) (hidle : s.control.pc .owner = .idle) (huntaken : s.Untaken)
    (hsettled : Settled s.block.seen)
    (hreached : Reached { s.control with shared := taken s.block o }) :
    Good (deliver o { s with control := { s.control with shared := taken s.block o } }) := by
  refine ⟨h.taken huntaken hreached rfl ?_ ?_, hidle, .inl ⟨?_, hsettled⟩⟩
  · rw [deliver, huntaken.1, huntaken.2]
    rfl
  · exact h.dropped_deliver huntaken o
  · exact fun hno => List.concat_ne_nil _ _ hno.2

/-! ## The owner -/

theorem Base.startRegister (h : Base s) (hidle : s.control.pc .owner = .idle) :
    Base (s.call (.trySetOnReady true)) ∧
      (s.call (.trySetOnReady true)).control.pc .owner = .readyLoad s.block.seen.callbacks ∧
      Kept s.block (s.call (.trySetOnReady true)).block := by
  have hstep : Block.step (.trySetOnReady true) s.block (s.control.pc .owner) =
      (s.block.note fun seen => { seen with callbacks := seen.callbacks + 1 },
        .readyLoad s.block.seen.callbacks) := by
    rw [hidle]
    rfl
  refine ⟨h.call (by rw [hstep]; rfl) (by rw [hstep]; rfl), ?_, ?_⟩
  · rw [call_owner, hstep]
  change Kept s.block (Block.step _ s.block (s.control.pc .owner)).1
  rw [hstep]
  exact ⟨rfl, rfl, rfl, rfl, rfl, id⟩

/-- The registration of the drain function starts. -/
theorem good_offer (h : Base s) (hidle : s.control.pc .owner = .idle) (huntaken : s.Untaken)
    (hsettled : Settled s.block.seen) : Good s.offer := by
  obtain ⟨hbase, howner, hkept⟩ := h.startRegister hidle
  exact ⟨{ hbase with }, ⟨_, rfl, congrArg Control.Pc.callback howner⟩, huntaken,
    settled_kept hsettled hkept⟩

/-- The next step of a registration. -/
theorem Base.register (h : Base s) (hfn : (s.control.pc .owner).callback = some fn) :
    Base (s.call (.trySetOnReady true)) ∧
      ∃ b k, Registers s.block fn (registration s.block (s.control.pc .owner)) (b, k) ∧
        (s.call (.trySetOnReady true)).block = b ∧
        (s.call (.trySetOnReady true)).control.pc .owner = k := by
  have hregisters := registers_step h.inv (h.local .owner) hfn (.trySetOnReady true)
  exact ⟨h.call hregisters.frame.1 hregisters.frame.2, _, _, hregisters, rfl, call_owner s _⟩

theorem good_suspend (h : Good s) (hplace : s.place = .suspend) (choice : Choice) :
    Good (s.own choice) := by
  have hat := h.placed
  rw [At, hplace] at hat
  obtain ⟨⟨fn, hfn⟩, huntaken, hinstalled, hdrain⟩ := hat
  obtain ⟨hbase, b, k, hregisters, hblock, howner⟩ := h.register hfn
  rw [own.eq_def, hplace]
  generalize registration s.block (s.control.pc .owner) = status at hregisters ⊢
  cases hregisters with
  | goesOn hk hcallback =>
    refine ⟨{ hbase with }, ⟨fn, ?_⟩, huntaken, ?_, hdrain⟩
    · exact (congrArg Control.Pc.callback howner).trans hcallback
    · rw [← hblock] at hk
      exact hk.installed.trans hinstalled
  | installed hnew hrest =>
    refine ⟨{ hbase with }, howner, hdrain, .inl ⟨huntaken, fn, ?_⟩⟩
    rw [hinstalled, ← hblock] at hnew
    rw [← hblock] at hrest
    exact ⟨hnew, hrest.2⟩
  | alreadyReady hk hstored =>
    rw [← hblock] at hk
    have hsettled := settled_kept (settled_of_installed h.inv hinstalled) hk
    exact ⟨{ hbase with }, howner, huntaken, hsettled, hk.stored hstored⟩
  | alreadyInstalled hk hs =>
    -- nothing was installed before
    obtain hs | hs := hs
    · obtain ⟨g, -, hg, -⟩ := h.inv.ready_armed hs
      rw [hinstalled] at hg
      cases hg
    obtain ⟨g, hg, -⟩ := h.inv.ready_disarmed hs
    rw [hinstalled] at hg
    cases hg

theorem good_drop (h : Good s) (hplace : s.place = .drop) (choice : Choice) :
    Good (s.own choice) := by
  have hat := h.placed
  rw [At, hplace] at hat
  obtain ⟨⟨fn, hdrain, hfn⟩, huntaken, hsettled⟩ := hat
  obtain ⟨hbase, b, k, hregisters, hblock, howner⟩ := h.register hfn
  rw [own.eq_def, hplace]
  generalize registration s.block (s.control.pc .owner) = status at hregisters ⊢
  cases hregisters with
  | goesOn hk hcallback =>
    rw [← hblock] at hk
    refine ⟨{ hbase with }, ⟨fn, hdrain, ?_⟩, huntaken, settled_kept hsettled hk⟩
    exact (congrArg Control.Pc.callback howner).trans hcallback
  | installed hnew hrest =>
    refine ⟨{ hbase with }, howner, .inr ⟨huntaken, fn, hdrain, ?_⟩⟩
    rw [hrest.1, ← hblock] at hnew
    rw [← hblock] at hrest
    exact ⟨hnew, hrest.2⟩
  | alreadyReady hk hstored =>
    rw [← hblock] at hk
    exact ⟨{ hbase with }, howner, huntaken, settled_kept hsettled hk, hk.stored hstored⟩
  | alreadyInstalled => exact ⟨{ hbase with }, trivial⟩

theorem good_clear (h : Good s) (hplace : s.place = .clear) (choice : Choice)
    (hno : (s.own choice).overlap = false) : Good (s.own choice) := by
  have hat := h.placed
  rw [At, hplace] at hat
  obtain ⟨howner, hdrain, huntaken, harmed⟩ := hat
  have hclears := clears_step h.inv harmed howner .clearOnReady
  have hpc := call_owner s .clearOnReady
  have hblock : (s.call .clearOnReady).block =
    (Block.step .clearOnReady s.block (s.control.pc .owner)).1 := rfl
  have hcall : _ → _ → Base (s.call .clearOnReady) := h.toBase.call
  obtain ⟨b, k, hr⟩ : ∃ b k, Block.step .clearOnReady s.block (s.control.pc .owner) = (b, k) :=
    ⟨_, _, rfl⟩
  rw [hr] at hclears hpc hblock hcall
  rw [own.eq_def, hplace] at hno ⊢
  dsimp only at hclears hpc hblock hcall hno ⊢
  generalize clearStatus s.block (s.control.pc .owner) = status at hclears hno ⊢
  cases hclears with
  | goesOn hk =>
    refine ⟨hcall rfl rfl, ?_⟩
    have hplace' : (s.call .clearOnReady).place = .clear := hplace
    rw [At, hplace', hpc, hblock]
    exact ⟨hk, hdrain, huntaken, harmed⟩
  | cleared hsettled hhanded habandoned =>
    refine good_offer (hcall hhanded habandoned) hpc huntaken ?_
    rw [hblock]
    exact hsettled
  | inFlight => cases hno

theorem good_slot (h : Good s) (hplace : s.place = .slot) (choice : Choice) :
    Good (s.own choice) := by
  have hat := h.placed
  rw [At, hplace] at hat
  obtain ⟨howner, huntaken, hinstalled, hdrain⟩ := hat
  rw [own.eq_def, hplace]
  cases choice with
  | onDrop =>
    have hdropped := h.dropped
    rw [huntaken.2, ite_self] at hdropped
    exact ⟨{ h with dropped := hdropped.trans huntaken.2.symm }, howner, huntaken, hinstalled,
      hdrain⟩
  | await => exact h
  | tryGet | wait | coAwait | destroy =>
    exact ⟨{ h with }, howner, huntaken, hinstalled, hdrain⟩

theorem good_awaiter (h : Good s) (hplace : s.place = .awaiter) (choice : Choice) :
    Good (s.own choice) := by
  have hat := h.placed
  rw [At, hplace] at hat
  obtain ⟨howner, huntaken, hinstalled, hdrain⟩ := hat
  have hsettled := settled_of_installed h.inv hinstalled
  rw [own.eq_def, hplace]
  cases choice with
  | await =>
    dsimp only
    split
    · obtain ⟨hbase, howner, hkept⟩ := h.startRegister howner
      exact ⟨{ hbase with }, ⟨_, congrArg Control.Pc.callback howner⟩, huntaken,
        hkept.installed.trans hinstalled, hdrain⟩
    · rename_i hstored
      exact ⟨{ h with }, howner, huntaken, hsettled, hstored⟩
  | destroy => exact good_offer h.toBase howner huntaken hsettled
  | onDrop | tryGet | wait | coAwait => exact h

/-- The destructor of a suspended awaiter starts to clear the hook. -/
theorem good_suspended (h : Good s) (hplace : s.place = .suspended) (choice : Choice) :
    Good (s.own choice) := by
  have hat := h.placed
  rw [At, hplace] at hat
  obtain ⟨howner, hdrain, huntaken, harmed, hflag⟩ := hat
  rw [own.eq_def, hplace]
  cases choice with
  | destroy =>
    have hstep : Block.step .clearOnReady s.block (s.control.pc .owner) =
        (s.block, .clearLoad) := by
      rw [howner]
      rfl
    have hbase : Base (s.call .clearOnReady) :=
      h.call (by rw [hstep]) (by rw [hstep])
    have hpc := call_owner s .clearOnReady
    have hblock : (s.call .clearOnReady).block = s.block := congrArg Prod.fst hstep
    rw [hstep] at hpc
    rw [if_pos hflag]
    refine ⟨{ hbase with }, .inl hpc, hdrain, huntaken, ?_⟩
    change Armed (s.call .clearOnReady).block.seen
    rw [hblock]
    exact harmed
  | onDrop | tryGet | wait | coAwait | await => exact h

/-- Every step of the slot, of the awaiter or of a destructor. -/
theorem good_own (h : Good s) (choice : Choice) (hno : (s.own choice).overlap = false) :
    Good (s.own choice) := by
  have hat := h.placed
  rw [At] at hat
  generalize hplace : s.place = place at hat
  cases place with
  | slot => exact good_slot h hplace choice
  | tryGet =>
    obtain ⟨howner, huntaken, hinstalled, hdrain⟩ := hat
    rw [own.eq_def, hplace]
    dsimp only
    split
    · exact ⟨{ h with }, howner, huntaken, hinstalled, hdrain⟩
    rename_i hstored
    exact good_join h howner huntaken hstored fun o =>
      good_consume h howner huntaken (settled_of_installed h.inv hinstalled)
  | wait =>
    obtain ⟨howner, huntaken, hinstalled, hdrain⟩ := hat
    rw [own.eq_def, hplace]
    dsimp only
    split
    · exact h
    rename_i hstored
    exact good_join h howner huntaken hstored fun o =>
      good_consume h howner huntaken (settled_of_installed h.inv hinstalled)
  | drain =>
    obtain ⟨howner, huntaken, hinstalled, hdrain⟩ := hat
    have hsettled := settled_of_installed h.inv hinstalled
    rw [own.eq_def, hplace]
    dsimp only
    split
    · exact good_offer h.toBase howner huntaken hsettled
    · rename_i hstored
      exact ⟨{ h with }, howner, huntaken, hsettled, hstored⟩
  | drainJoin | rejected =>
    obtain ⟨howner, huntaken, hsettled, hstored⟩ := hat
    rw [own.eq_def, hplace]
    exact good_join h howner huntaken hstored fun o =>
      good_deliver h howner huntaken hsettled
  | resumeJoin =>
    obtain ⟨howner, huntaken, hsettled, hstored⟩ := hat
    rw [own.eq_def, hplace]
    exact good_join h howner huntaken hstored fun o =>
      good_consume h howner huntaken hsettled
  | awaiter => exact good_awaiter h hplace choice
  | suspend => exact good_suspend h hplace choice
  | installed =>
    obtain ⟨howner, hdrain, ⟨huntaken, harmed⟩ | ⟨htaken, hdrained, hsettled⟩⟩ := hat
    · rw [own.eq_def, hplace]
      rw [if_pos huntaken.1]
      exact ⟨{ h with }, howner, hdrain, huntaken, harmed, rfl⟩
    have hconsumed : ¬ s.consumed = [] := fun hnone => htaken ⟨hnone, hdrained⟩
    rw [own.eq_def, hplace]
    rw [if_neg hconsumed]
    exact ⟨{ h with }, howner, .inl ⟨htaken, hsettled⟩⟩
  | suspended => exact good_suspended h hplace choice
  | clear => exact good_clear h hplace choice hno
  | drop => exact good_drop h hplace choice
  | «over» | raised | terminated =>
    rw [own.eq_def, hplace]
    exact h

/-! ## The other threads -/

omit [DecidableEq ι] in
theorem At.kept (h : At s) {c : Threads (Who ι) (Block T E C) (Control.Pc T E C)}
    (howner : c.pc .owner = s.control.pc .owner) (hk : Kept s.block c.shared) :
    At { s with control := c } := by
  have hsettled : Settled c.shared.seen ↔ Settled s.block.seen := by
    rw [Settled, Settled, hk.installed, hk.cleared, hk.ran]
  have harmed : Armed c.shared.seen ↔ Armed s.block.seen := by
    rw [Armed, Armed, hk.installed, hk.cleared, hk.ran]
  rw [At] at h ⊢
  generalize s.place = place at h ⊢
  -- what is not the same is that there may be an outcome now
  cases place with
  | drainJoin | resumeJoin | rejected =>
    obtain ⟨hidle, huntaken, hs, hstored⟩ := h
    exact ⟨howner.trans hidle, huntaken, hsettled.mpr hs, hk.stored hstored⟩
  | raised => exact h.elim
  | terminated => trivial
  | _ =>
    simp only [block, howner, hsettled, harmed, hk.installed, hk.cleared, hk.ran] at h ⊢
    exact h

/-- A thread of the task makes a step of a call. -/
theorem good_fire (h : Good s) (i : ι) (hrun : ∀ fn, s.control.pc (.task i) ≠ .runReady (some fn))
    (request : TaskRequest T E C) :
    Good { s with control := s.control.fire Block.step (.task i, request.request) } := by
  obtain ⟨hkept, hneutral⟩ := kept_task (h.neutral i) h.abandoned hrun request
  refine ⟨⟨h.control.fire _, ?_, ?_, ?_, ?_, h.dropped⟩, ?_⟩
  · rw [← h.callback]
    exact Threads.fire_pc_of_ne _ _ (by simp)
  · intro j
    by_cases hj : j = i
    · subst hj
      rw [Threads.fire_pc_self]
      exact hneutral
    dsimp only
    rw [Threads.fire_pc_of_ne _ _ (by simpa using hj)]
    exact h.neutral j
  · exact hkept.abandoned.trans h.abandoned
  · exact hkept.handed.trans h.handed
  · exact h.placed.kept (Threads.fire_pc_of_ne _ _ (by simp)) hkept

/-- The control block and its threads after a callback has taken the outcome and returned. -/
def ranCallback (s : Life ι T E C) (i : ι) (o : Outcome T E) :
    Threads (Who ι) (Block T E C) (Control.Pc T E C) :=
  { s.control with shared := taken s.block o }.fire Block.step (.task i, .clearOnReady)

variable {i : ι}

theorem ranCallback_shared (hpc : s.control.pc (.task i) = .runReady (some fn)) (o : Outcome T E) :
    (s.ranCallback i o).shared =
      (taken s.block o).note fun seen => { seen with ran := seen.ran ++ [fn] } := by
  rw [ranCallback, Threads.fire, hpc]
  rfl

theorem Base.ranCallback (h : Base s) (hpc : s.control.pc (.task i) = .runReady (some fn))
    (huntaken : s.Untaken) (hreached : Reached { s.control with shared := Slot.taken s.block o })
    (hcontrol : s'.control = s.ranCallback i o) (hgot : s'.consumed ++ s'.drained = [o])
    (hdropped : s'.dropped = if s'.onDrop then s'.drained else []) : Base s' := by
  have hshared := ranCallback_shared hpc o
  refine ⟨?_, ?_, ?_, ?_, ?_, hdropped⟩
  · rw [hcontrol]
    exact hreached.fire _
  · rw [hcontrol, ← h.callback]
    exact Threads.fire_pc_of_ne _ _ (by simp)
  · intro j
    rw [hcontrol]
    by_cases hj : j = i
    · subst hj
      rw [Life.ranCallback, Threads.fire_pc_self, hpc]
      trivial
    · rw [Life.ranCallback, Threads.fire_pc_of_ne _ _ (by simpa using hj)]
      exact h.neutral j
  · rw [block, hcontrol, hshared]
    exact h.abandoned
  rw [block, hcontrol, hshared, hgot]
  change s.block.seen.handed ++ [o] = [o]
  rw [h.unhanded huntaken]
  rfl

/-- Where an armed callback can be taken: the awaiter waits or is being destroyed, or it is the
drain function of a slot or awaiter that is gone. -/
theorem At.of_armed (h : At s) (hbase : Base s) (harmed : Armed s.block.seen)
    (hplace : s.place ≠ .terminated) :
    s.Untaken ∧ (s.control.pc .owner).carried = none ∧
      (s.drainFn = none ∧ (s.place = .installed ∨ s.place = .suspended) ∧
          s.control.pc .owner = .idle ∨
        s.drainFn = none ∧ s.place = .clear ∨
        (∃ fn, s.drainFn = some fn ∧ s.block.seen.installed = [fn]) ∧ s.place = .over ∧
          s.control.pc .owner = .idle) := by
  have hsettled := harmed.not_settled
  have hidle : s.control.pc .owner = .idle → (s.control.pc .owner).carried = none := by
    intro howner
    rw [howner]
    rfl
  rw [At] at h
  generalize s.place = place at h hplace ⊢
  cases place with
  | slot | tryGet | wait | drain | awaiter | suspend =>
    exact absurd (settled_of_installed hbase.inv h.2.2.1) hsettled
  | drainJoin | resumeJoin | rejected =>
    exact absurd h.2.2.1 hsettled
  | drop =>
    exact absurd h.2.2 hsettled
  | installed =>
    obtain ⟨howner, hdrain, ⟨huntaken, -⟩ | ⟨-, -, hs⟩⟩ := h
    · exact ⟨huntaken, hidle howner, .inl ⟨hdrain, .inl rfl, howner⟩⟩
    · exact absurd hs hsettled
  | suspended =>
    obtain ⟨howner, hdrain, huntaken, -, -⟩ := h
    exact ⟨huntaken, hidle howner, .inl ⟨hdrain, .inr rfl, howner⟩⟩
  | clear =>
    obtain ⟨howner, hdrain, huntaken, -⟩ := h
    refine ⟨huntaken, ?_, .inr (.inl ⟨hdrain, rfl⟩)⟩
    obtain howner | howner := howner
    all_goals
      rw [howner]
      rfl
  | «over» =>
    obtain ⟨howner, ⟨-, hs⟩ | ⟨huntaken, fn, hdrain, hfn, -⟩⟩ := h
    · exact absurd hs hsettled
    · exact ⟨huntaken, hidle howner, .inr (.inr ⟨⟨fn, hdrain, hfn⟩, rfl, howner⟩)⟩
  | raised =>
    exact h.elim
  | terminated => exact absurd rfl hplace

theorem settled_ranCallback (hpc : s.control.pc (.task i) = .runReady (some fn))
    (hinstalled : s.block.seen.installed = [fn]) (hcleared : s.block.seen.cleared = [])
    (hran : s.block.seen.ran = []) : Settled (s.ranCallback i o).shared.seen := by
  rw [ranCallback_shared hpc]
  refine .inr ⟨fn, hinstalled, .inr ⟨hcleared, ?_⟩⟩
  change s.block.seen.ran ++ [fn] = [fn]
  rw [hran]
  rfl

theorem good_runCallback (h : Good s) (hpc : s.control.pc (.task i) = .runReady (some fn))
    (hplace : s.place ≠ .terminated) (hno : (s.runCallback i fn).overlap = false) :
    Good (s.runCallback i fn) := by
  have hphase := (h.local (.task i)).phase
  rw [hpc] at hphase
  obtain ⟨hstored, -, g, hg, hinstalled, hcleared, hran⟩ := hphase
  cases hg
  have harmed : Armed s.block.seen := ⟨fn, hinstalled, hcleared, hran⟩
  obtain ⟨huntaken, hcarried, hcases⟩ := h.placed.of_armed h.toBase harmed hplace
  obtain heq | ⟨o, hreached, heq⟩ := join_eq h.toBase h.callback hcarried huntaken hstored
    (finishCallback i fn)
  · rw [runCallback, heq]
    exact h
  have hsettled := settled_ranCallback (o := o) hpc hinstalled hcleared hran
  have howner : (s.ranCallback i o).pc .owner = s.control.pc .owner :=
    Threads.fire_pc_of_ne _ _ (by simp)
  have hbase : ∀ {s' : Life ι T E C}, _ → _ → _ → Base s' :=
    h.toBase.ranCallback hpc huntaken hreached
  rw [runCallback, heq, finishCallback] at hno ⊢
  have hother (hdrain : s.drainFn = none) : s.drainFn ≠ some fn := by
    rw [hdrain]
    exact (Option.some_ne_none _).symm
  obtain ⟨hdrain, hp, hidle⟩ | ⟨hdrain, hp⟩ | ⟨⟨d, hdrain, hd⟩, hp, hidle⟩ := hcases
  · -- the coroutine is resumed
    have htaken : s.consumed ++ [o] ≠ [] := List.concat_ne_nil _ _
    rw [if_neg (hother hdrain)]
    refine ⟨hbase rfl ?_ h.dropped, ?_⟩
    · rw [resume, huntaken.1, huntaken.2]
      rfl
    obtain hp | hp := hp
    · rw [At, resume, hp]
      exact ⟨howner.trans hidle, hdrain, .inr ⟨fun hno => htaken hno.1, huntaken.2, hsettled⟩⟩
    · rw [At, resume, hp]
      exact ⟨howner.trans hidle, .inl ⟨fun hno => htaken hno.1, hsettled⟩⟩
  · -- the awaiter is being destroyed
    rw [if_neg (hother hdrain), resume, hp] at hno
    rw [Bool.or_eq_false_iff] at hno
    exact absurd hno.2 Bool.noConfusion
  -- the outcome is drained
  rw [hinstalled] at hd
  cases hd
  rw [if_pos hdrain]
  refine ⟨hbase rfl ?_ ?_, howner.trans hidle, .inl ⟨?_, hsettled⟩⟩
  · rw [deliver, huntaken.1, huntaken.2]
    rfl
  · exact h.dropped_deliver huntaken o
  · exact fun hno => List.concat_ne_nil _ _ hno.2

/-! ## Runs -/

theorem good_fresh : Good ({} : Life ι T E C) where
  control := ⟨[], rfl⟩
  callback := rfl
  neutral _ := trivial
  abandoned := rfl
  handed := rfl
  dropped := rfl
  placed := ⟨rfl, ⟨rfl, rfl⟩, rfl, rfl⟩

/-- Every step without an overlap keeps the invariant. -/
theorem good_step (h : Good s) (m : Move ι T E C) (hno : (s.step m).overlap = false) :
    Good (s.step m) := by
  rw [step.eq_def] at hno ⊢
  split at hno
  · rename_i hplace
    rw [if_pos hplace]
    exact h
  rename_i hplace
  rw [if_neg hplace]
  cases m with
  | own choice => exact good_own h choice hno
  | task i request =>
    dsimp only at hno ⊢
    rw [task.eq_def] at hno ⊢
    split at hno
    · rename_i fn hpc
      exact good_runCallback h hpc hplace hno
    · rename_i hpc
      exact good_fire h i hpc request

end Life

end Conflux.Work.Slot
