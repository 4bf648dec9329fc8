import Conflux.Work.Control.Invariant

/-!
# Each step of a call keeps the invariant

For every place in a call: what its step makes of the block, of the thread itself and of the
other threads.
-/

namespace Conflux.Work.Control

open List Block

variable {T E C : Type} {b : Block T E C} {k k' : Pc T E C}

/-- What a step from `k` must leave. -/
structure Moves (b : Block T E C) (k : Pc T E C) (r : Block T E C × Pc T E C) : Prop where
  inv : BlockInv r.1
  own : Local r.1 r.2
  other : ∀ {k'}, Local b k' → Apart k k' → Local r.1 k'
  apart : ∀ {k'}, Local b k' → Apart k k' → Apart r.2 k'

variable {k₂ : Pc T E C} {b₁ : Block T E C} {r : Block T E C × Pc T E C} {o : Outcome T E}
  {fn : Nat} {completing : Bool} {child : C}

theorem Apart.not_winning (h : Apart k k') (hk : k.winning = true) : k'.winning = false :=
  Bool.eq_false_iff.mpr fun hk' => h.winning ⟨hk, hk'⟩

theorem Apart.not_carried (h : Apart k k') (hk : k.carried.isSome) : k'.carried = none :=
  Option.not_isSome_iff_eq_none.mp fun hk' => h.carried ⟨hk, hk'⟩

theorem Apart.not_held (h : Apart k k') (hk : k.held.isSome) : k'.held = none :=
  Option.not_isSome_iff_eq_none.mp fun hk' => h.held ⟨hk, hk'⟩

/-- A thread goes on without a change of the block. -/
theorem Moves.still (h : BlockInv b) (hown : Local b k₂)
    (hapart : ∀ {k'}, Apart k k' → Apart k₂ k') : Moves b k (b, k₂) :=
  ⟨h, hown, fun hk' _ => hk', fun _ ha => hapart ha⟩

/-- A step in two parts, of which the first leaves the thread where it is. -/
theorem Moves.after (hother : ∀ {k'}, Local b k' → Apart k k' → Local b₁ k') (h : Moves b₁ k r) :
    Moves b k r :=
  ⟨h.inv, h.own, fun hk' ha => h.other (hother hk' ha) ha, fun hk' ha => h.apart (hother hk' ha) ha⟩

/-- A thread goes on to a place without a role. -/
theorem Moves.free (h : BlockInv b) (hwinning : k₂.winning = false) (hplain : k₂.Plain) :
    Moves b k (b, k₂) := by
  refine .still h (.of_free hplain hwinning) fun ha => ha.mono (hplain.within fun hw => ?_)
  exact absurd hw (by rw [hwinning]; exact Bool.false_ne_true)

/-- The winner goes on to a place where it only wins, past the ready hook. -/
theorem Moves.stage {after : ReadyHookState} {onReadyFn : Option Nat} {ran : List Nat}
    (hk : Local b k) (hwinning : k.winning = true)
    (h : BlockInv { b with readyHookState := after, onReadyFn, seen := { b.seen with ran } })
    (hphase : Phase { b with readyHookState := after, onReadyFn, seen := { b.seen with ran } } k₂)
    (hplain : k₂.Plain)
    (hheld : ∀ {k' fn}, Local b k' → k'.held = some fn →
      onReadyFn = some fn ∧ after ≠ .armed ∧ after ≠ .disarmed) :
    Moves b k ({ b with readyHookState := after, onReadyFn, seen := { b.seen with ran } }, k₂) := by
  refine ⟨h, .of_plain hplain (fun _ => hk.winning hwinning) hphase, ?_, ?_⟩
  · intro k' hk' ha
    exact { hk' with phase := phase_of_not_winning (ha.not_winning hwinning)
                     held := fun fn hfn => ⟨(hk'.held fn hfn).1, hheld hk' hfn⟩ }
  · exact fun _ ha => ha.mono (hplain.within fun _ => hwinning)

theorem Moves.trans {k₁ : Pc T E C} (h : Moves b k (b₁, k₁)) (h' : Moves b₁ k₁ r) : Moves b k r :=
  ⟨h'.inv, h'.own, fun hk' ha => h'.other (h.other hk' ha) (h.apart hk' ha),
    fun hk' ha => h'.apart (h.other hk' ha) (h.apart hk' ha)⟩

theorem local_idle (b : Block T E C) : Local b (.idle : Pc T E C) :=
  .of_free ⟨rfl, rfl, rfl, rfl⟩ rfl

theorem within_idle (k : Pc T E C) : (Pc.idle : Pc T E C).Within k := {}

/-- A call returns from a block that it has changed. -/
theorem Moves.leave (h : BlockInv b₁) (hother : ∀ {k'}, Local b k' → Apart k k' → Local b₁ k') :
    Moves b k (b₁, .idle) :=
  ⟨h, local_idle b₁, hother, fun _ ha => ha.mono (within_idle k)⟩

theorem Moves.back (h : BlockInv b) : Moves b k (b, .idle) := .leave h fun hk' _ => hk'

/-- A section waits while the mutex is held. -/
theorem Moves.underMutex (h : BlockInv b) (hk : Local b k) {body : Block T E C × Pc T E C}
    (hbody : b.locked = false → Moves b k body) : Moves b k (b.underMutex k body) := by
  rw [Block.underMutex]
  split
  · exact .still h hk id
  · rename_i hlocked
    exact hbody (by simpa using hlocked)

/-! ## What the invariant says of single fields -/

namespace BlockInv

section

variable (h : BlockInv b)
include h

theorem ready_open (hs : b.readyHookState = .open) :
    b.seen.installed = [] ∧ b.seen.cleared = [] ∧ b.seen.ran = [] := by
  have hready := h.ready
  rw [ReadyOk, hs] at hready
  exact hready

theorem ready_armed (hs : b.readyHookState = .armed) :
    ∃ fn, b.onReadyFn = some fn ∧ b.seen.installed = [fn] ∧ b.seen.cleared = [] ∧
      b.seen.ran = [] := by
  have hready := h.ready
  rw [ReadyOk, hs] at hready
  exact hready

theorem ready_disarmed (hs : b.readyHookState = .disarmed) :
    ∃ fn, b.seen.installed = [fn] ∧ b.seen.cleared = [fn] ∧ b.seen.ran = [] := by
  have hready := h.ready
  rw [ReadyOk, hs] at hready
  exact hready

theorem ready_terminal (hs : b.readyHookState = .terminal) :
    b.terminalState ≠ .none ∧ Settled b.seen := by
  have hready := h.ready
  rw [ReadyOk, hs] at hready
  exact hready

/-- Before the outcome is stored the ready hook is not touched by completion. -/
theorem before (hs : b.terminalState = .none) :
    b.readyHookState ≠ .committing ∧ b.readyHookState ≠ .terminal := by
  have hready := h.ready
  constructor <;> intro hstate
  all_goals
    rw [ReadyOk, hstate] at hready
    exact hready.1 hs

/-- Before any attempt has won nothing is stored. -/
theorem unclaimed (hc : b.terminalClaimed = false) :
    b.seen.completed = [] ∧ b.terminalState = .none ∧ b.seen.finished = false := by
  obtain ⟨-, hcompleted, -⟩ := h.claimed.resolve_right fun hno => by
    rw [hno.1] at hc
    cases hc
  have hnone : b.terminalState = .none := by
    by_contra hne
    obtain ⟨o, ho, -⟩ := h.published hne
    rw [hcompleted] at ho
    cases ho
  refine ⟨hcompleted, hnone, ?_⟩
  cases hf : b.seen.finished with
  | false => rfl
  | true => exact absurd (h.finished hf) (h.before hnone).2

theorem accepted_eq (hr : b.cancelRequested = true) : b.seen.accepted = [b.cancellationReason] := by
  obtain ⟨hno, -⟩ | ⟨-, hyes⟩ := h.requested
  · rw [hr] at hno
    cases hno
  · exact hyes

theorem accepted_nil (hr : b.cancelRequested = false) : b.seen.accepted = [] := by
  obtain ⟨-, hno⟩ | ⟨hyes, -⟩ := h.requested
  · exact hno
  · rw [hr] at hyes
    cases hyes

theorem requested_of_accepted {r : CancelReason}
    (hr : b.seen.accepted = [r]) : b.cancelRequested = true := by
  cases hc : b.cancelRequested with
  | true => rfl
  | false =>
    rw [h.accepted_nil hc] at hr
    cases hr

/-- Where there is an outcome it was stored. -/
theorem stored {o : Outcome T E} (ho : b.outcome = some o) : b.terminalState ≠ .none := by
  intro hnone
  rw [(h.pending hnone).1] at ho
  cases ho

end

end BlockInv

/-! ## Completion -/

section

variable (h : BlockInv b)
include h

theorem moves_claim (o : Outcome T E) : Moves b (.claim o) (b.go (.claim o)) := by
  rw [go]
  split
  · rename_i hclaimed
    have hcompleted := h.claimed.resolve_left fun hno => by
      rw [hno.1] at hclaimed
      cases hclaimed
    exact .leave { h with claimed := .inr hcompleted } fun hk' _ => { hk' with }
  rename_i hclaimed
  obtain ⟨hcompleted, hnone, hfinished⟩ := h.unclaimed (by simpa using hclaimed)
  have hwon : b.seen.completed ++ [o] = [o] := by rw [hcompleted]; rfl
  have hfree : ∀ {k'}, Local b k' → k'.winning = false := by
    intro k' hk'
    cases hw : k'.winning with
    | false => rfl
    | true => exact absurd (hk'.winning hw).1 hclaimed
  refine ⟨{ h with claimed := .inr ⟨rfl, o, hwon⟩, published := ?_, outcome := ?_,
                   handed := ?_ }, ?_, ?_, ?_⟩
  · exact fun hp => absurd hnone hp
  · intro o' ho'
    exact absurd hnone (h.stored ho')
  · exact .inl (h.pending hnone).2
  · exact .of_plain ⟨rfl, rfl, rfl, rfl⟩ (fun _ => ⟨rfl, hfinished⟩) ⟨hwon, hnone⟩
  · intro k' hk' _
    refine { hk' with winning := ?_, phase := phase_of_not_winning (hfree hk'), carried := ?_ }
    · intro hw
      rw [hfree hk'] at hw
      cases hw
    · intro o' ho'
      exact absurd hnone (hk'.carried o' ho').2.2.2
  · intro k' hk' ha
    exact { ha with winning := fun hw => Bool.false_ne_true ((hfree hk').symm.trans hw.2) }

theorem moves_publish (hk : Local b (.publish o)) : Moves b (.publish o) (b.go (.publish o)) := by
  obtain ⟨hcompleted, hnone⟩ := hk.phase
  have hsome : o.terminalState ≠ .none := by cases o <;> exact TerminalState.noConfusion
  obtain ⟨hcommitting, hterminal⟩ := h.before hnone
  rw [go]
  refine .underMutex h hk fun _ => ⟨{ h with pending := ?_, published := ?_, outcome := ?_,
                                             ready := ?_, bound := ?_ }, ?_, ?_, ?_⟩
  · exact fun hp => absurd hp hsome
  · exact fun _ => ⟨o, hcompleted, rfl⟩
  · intro o' ho'
    cases ho'
    exact ⟨hcompleted, (h.pending hnone).2⟩
  · have hready := h.ready
    rw [ReadyOk] at hready ⊢
    split
    all_goals simp_all
  · exact fun _ hp => absurd hp hsome
  · exact .of_plain ⟨rfl, rfl, rfl, rfl⟩ (fun _ => hk.winning rfl) ⟨hsome, hcommitting, hterminal⟩
  · intro k' hk' ha
    exact { hk' with phase := phase_of_not_winning (ha.not_winning rfl),
                     carried := fun o' ho' => absurd hnone (hk'.carried o' ho').2.2.2 }
  · exact fun _ ha => { ha with }

theorem moves_fireCas (hk : Local b .fireCas) : Moves b .fireCas (b.go .fireCas) := by
  obtain ⟨hstored, hcommitting, hterminal⟩ := hk.phase
  rw [go]
  cases hs : b.readyHookState with
  | «open» =>
    have hopen := h.ready_open hs
    refine .stage hk rfl { h with ready := ⟨hstored, .inl hopen⟩, finished := ?_ }
      ⟨hstored, rfl, .inl hopen⟩ ⟨rfl, rfl, rfl, rfl⟩ fun hk' hfn => ?_
    · exact fun hf => absurd (h.finished hf) hterminal
    · exact ⟨(hk'.held _ hfn).2.1, ReadyHookState.noConfusion, ReadyHookState.noConfusion⟩
  | armed =>
    exact .still h { hk with phase := ⟨hstored, .inl hs⟩ } fun ha => { ha with }
  | disarmed =>
    exact .still h { hk with phase := ⟨hstored, hs⟩ } fun ha => { ha with }
  | committing => exact absurd hs hcommitting
  | terminal => exact absurd hs hterminal

/-- Completion ends the hook of a callback that was cleared. -/
theorem moves_disarmed (hk : Local b k) (hwinning : k.winning = true)
    (hstored : b.terminalState ≠ .none) (hs : b.readyHookState = .disarmed) :
    Moves b k ({ b with readyHookState := .terminal }, .abandonPath true) := by
  obtain ⟨fn, hinstalled, hcleared, hran⟩ := h.ready_disarmed hs
  refine .stage hk hwinning { h with ready := ?_, finished := fun _ => rfl } rfl
    ⟨rfl, rfl, rfl, rfl⟩ fun hk' hfn => ?_
  · exact ⟨hstored, .inr ⟨fn, hinstalled, .inl ⟨hcleared, hran⟩⟩⟩
  · exact absurd hs (hk'.held _ hfn).2.2.2

theorem moves_fireLock (hk : Local b .fireLock) : Moves b .fireLock (b.go .fireLock) := by
  obtain ⟨hstored, hs⟩ := hk.phase
  rw [go]
  refine .underMutex h hk fun _ => ?_
  obtain hs | hs := hs
  · obtain ⟨fn, hfn, hinstalled, hcleared, hran⟩ := h.ready_armed hs
    rw [hs]
    refine .stage hk rfl { h with ready := ?_, finished := ?_ }
      ⟨hstored, rfl, fn, hfn, hinstalled, hcleared, hran⟩ ⟨rfl, rfl, rfl, rfl⟩ fun hk' hfn => ?_
    · exact ⟨hstored, .inr ⟨fn, hinstalled, hcleared, .inl hran⟩⟩
    · intro hf
      rw [h.finished hf] at hs
      cases hs
    · exact absurd hs (hk'.held _ hfn).2.2.1
  · have hmoves := moves_disarmed h hk rfl hstored hs
    rw [hs]
    exact hmoves

theorem moves_storeDisarmed (hk : Local b .storeDisarmed) :
    Moves b .storeDisarmed (b.go .storeDisarmed) := by
  obtain ⟨hstored, hs⟩ := hk.phase
  rw [go]
  exact .underMutex h hk fun _ => moves_disarmed h hk rfl hstored hs

theorem moves_runReady {fn : Option Nat} (hk : Local b (.runReady fn)) :
    Moves b (.runReady fn) (b.go (.runReady fn)) := by
  obtain ⟨hstored, hs, g, rfl, hinstalled, hcleared, hran⟩ := hk.phase
  have hrun : b.seen.ran ++ [g] = [g] := by rw [hran]; rfl
  rw [go]
  refine .stage hk rfl { h with ready := ?_ } ?_ ⟨rfl, rfl, rfl, rfl⟩ fun hk' hfn =>
    (hk'.held _ hfn).2
  · rw [ReadyOk, hs]
    exact ⟨hstored, .inr ⟨g, hinstalled, hcleared, .inr hrun⟩⟩
  · exact ⟨hstored, hs, .inr ⟨g, hinstalled, .inr ⟨hcleared, hrun⟩⟩⟩

theorem moves_storeTerminal (hk : Local b .storeTerminal) :
    Moves b .storeTerminal (b.go .storeTerminal) := by
  obtain ⟨hstored, hs, hsettled⟩ := hk.phase
  rw [go]
  refine .stage hk rfl { h with ready := ⟨hstored, hsettled⟩, finished := fun _ => rfl } rfl
    ⟨rfl, rfl, rfl, rfl⟩ fun hk' hfn => ?_
  exact ⟨(hk'.held _ hfn).2.1, ReadyHookState.noConfusion, ReadyHookState.noConfusion⟩

/-- The end of the completing call, or of the call that installed the sink. -/
theorem moves_finish
    (hphase : completing = true → k.winning = true ∧ b.readyHookState = .terminal) :
    Moves b k (b.finish completing, .idle) := by
  cases completing with
  | false => exact .back h
  | true =>
    obtain ⟨hwinning, hs⟩ := hphase rfl
    refine .leave { h with finished := fun _ => hs } ?_
    intro k' hk' ha
    refine { hk' with winning := ?_ }
    intro hw
    rw [ha.not_winning hwinning] at hw
    cases hw

theorem moves_abandonPath (hk : Local b (.abandonPath completing)) :
    Moves b (.abandonPath completing) (b.go (.abandonPath completing)) := by
  have hphase : completing = true →
      (Pc.abandonPath completing : Pc T E C).winning = true ∧ b.readyHookState = .terminal := by
    rintro rfl
    exact ⟨rfl, hk.phase⟩
  rw [go]
  refine .underMutex h hk fun _ => ?_
  split
  · rename_i o _ ho
    obtain ⟨hcompleted, hhanded⟩ := h.outcome o ho
    refine ⟨{ h with pending := ?_, outcome := ?_ }, ?_, ?_, ?_⟩
    · exact fun hn => absurd hn (h.stored ho)
    · intro o' ho'
      cases ho'
    · refine { hk with phase := ?_, carried := ?_ }
      · cases completing with
        | false => trivial
        | true => exact hk.phase
      intro o' ho'
      cases ho'
      exact ⟨rfl, hhanded, hcompleted, h.stored ho⟩
    · intro k' hk' _
      exact { hk' with carried := fun o' ho' => ⟨rfl, (hk'.carried o' ho').2⟩ }
    intro k' hk' ha
    have hnone : k'.carried = none := by
      cases hc : k'.carried with
      | none => rfl
      | some o' =>
        rw [(hk'.carried o' hc).1] at ho
        cases ho
    refine { ha with winning := fun hw => ha.winning hw, carried := ?_ }
    intro hc
    rw [hnone] at hc
    exact Bool.false_ne_true hc.2
  · exact moves_finish h hphase

theorem moves_runSink (hk : Local b (.runSink o completing)) :
    Moves b (.runSink o completing) (b.go (.runSink o completing)) := by
  obtain ⟨hnone, hhanded, hcompleted, hstored⟩ := hk.carried o rfl
  have hgiven : b.seen.handed ++ [o] = [o] := by rw [hhanded]; rfl
  have hinv : BlockInv (b.note fun seen => { seen with handed := seen.handed ++ [o] }) := by
    refine { h with pending := ?_, outcome := ?_, handed := .inr ⟨o, hgiven, hcompleted⟩ }
    · exact fun hn => absurd hn hstored
    intro o' ho'
    rw [note, hnone] at ho'
    cases ho'
  have hother : ∀ {k'}, Local b k' → Apart (.runSink o completing) k' →
      Local (b.note fun seen => { seen with handed := seen.handed ++ [o] }) k' := by
    intro k' hk' ha
    refine { hk' with carried := ?_ }
    intro o' ho'
    rw [ha.not_carried rfl] at ho'
    cases ho'
  rw [go]
  refine .after hother (moves_finish hinv ?_)
  rintro rfl
  exact ⟨rfl, hk.phase⟩

/-! ## Callbacks -/

/-- A callback that its call brings goes back. -/
theorem moves_reject (hfn : k.callback = some fn) (hlt : fn < b.seen.callbacks)
    (hinstalled : fn ∉ b.seen.installed) :
    Moves b k (b.reject fn, .idle) := by
  refine .leave { h with numbered := ?_, rejected := ?_ } ?_
  · intro g hg
    obtain hg | hg := mem_append.mp hg
    · exact h.numbered g (mem_append_left _ hg)
    obtain hg | hg := mem_append.mp hg
    · exact h.numbered g (mem_append_right _ hg)
    · rw [mem_singleton.mp hg]
      exact hlt
  · intro g hg
    obtain hg | hg := mem_append.mp hg
    · exact h.rejected g hg
    · rw [mem_singleton.mp hg]
      exact hinstalled
  · intro k' hk' ha
    refine { hk' with callback := ?_ }
    intro g hg
    obtain ⟨hlt', hinstalled', hrejected'⟩ := hk'.callback g hg
    refine ⟨hlt', hinstalled', ?_⟩
    intro hmem
    obtain hmem | hmem := mem_append.mp hmem
    · exact hrejected' hmem
    · rw [mem_singleton.mp hmem] at hg
      exact ha.callback fn hfn hg

theorem moves_readyLoad (hk : Local b (.readyLoad fn)) :
    Moves b (.readyLoad fn) (b.go (.readyLoad fn)) := by
  obtain ⟨hlt, hnew, -⟩ := hk.callback fn rfl
  rw [go]
  split
  · exact moves_reject h rfl hlt hnew
  · exact .still h { hk with } fun ha => { ha with }

theorem moves_readyLock (hk : Local b (.readyLock fn)) :
    Moves b (.readyLock fn) (b.go (.readyLock fn)) := by
  obtain ⟨hlt, hnew, -⟩ := hk.callback fn rfl
  rw [go]
  refine .underMutex h hk fun hunlocked => ?_
  have hfree : ∀ {k'}, Local b k' → k'.held = none := by
    intro k' hk'
    cases hh : k'.held with
    | none => rfl
    | some g =>
      rw [(hk'.held g hh).1] at hunlocked
      cases hunlocked
  split
  · rename_i hs
    refine ⟨{ h with ready := ?_ }, ?_, ?_, ?_⟩
    · rw [ReadyOk, hs]
      exact h.ready_open hs
    · refine { hk with held := ?_ }
      rintro g ⟨⟩
      exact ⟨rfl, rfl, by rw [hs]; exact ReadyHookState.noConfusion,
        by rw [hs]; exact ReadyHookState.noConfusion⟩
    · intro k' hk' _
      refine { hk' with held := ?_ }
      intro g hg
      rw [hfree hk'] at hg
      cases hg
    intro k' hk' ha
    refine { ha with held := ?_ }
    intro hh
    rw [hfree hk'] at hh
    exact Bool.false_ne_true hh.2
  · exact moves_reject h rfl hlt hnew

end

/-- Arming the hook and disarming it disturb no phase of completion. -/
theorem Phase.moved (h : Phase b k')
    (hs : b.readyHookState = .open ∨ b.readyHookState = .armed) {after : ReadyHookState}
    (hafter : after = .armed ∨ after = .disarmed) {onReadyFn : Option Nat} {locked : Bool}
    {seen : Seen T E C} (hcompleted : seen.completed = b.seen.completed) :
    Phase { b with readyHookState := after, onReadyFn, locked, seen } k' := by
  have hcommitting : b.readyHookState ≠ .committing := by rcases hs with hs | hs <;> simp [hs]
  have hterminal : b.readyHookState ≠ .terminal := by rcases hs with hs | hs <;> simp [hs]
  have hdisarmed : b.readyHookState ≠ .disarmed := by rcases hs with hs | hs <;> simp [hs]
  cases k' with
  | publish o => exact ⟨hcompleted.trans h.1, h.2⟩
  | fireCas =>
    refine ⟨h.1, ?_, ?_⟩ <;> rcases hafter with rfl | rfl <;> exact ReadyHookState.noConfusion
  | fireLock => exact ⟨h.1, hafter⟩
  | runReady fn | storeTerminal => exact absurd h.2.1 hcommitting
  | storeDisarmed => exact absurd h.2 hdisarmed
  | abandonPath completing | runSink _ completing =>
    cases completing with
    | false => trivial
    | true => exact absurd h hterminal
  | _ => trivial

section

variable (h : BlockInv b)
include h

theorem moves_readyCas (hk : Local b (.readyCas fn)) :
    Moves b (.readyCas fn) (b.go (.readyCas fn)) := by
  obtain ⟨hlocked, hfn, harmed, hdisarmed⟩ := hk.held fn rfl
  obtain ⟨hlt, hnew, hrejected⟩ := hk.callback fn rfl
  rw [go]
  split
  · rename_i hs
    obtain ⟨hinstalled, hcleared, hran⟩ := h.ready_open hs
    have hone : b.seen.installed ++ [fn] = [fn] := by rw [hinstalled]; rfl
    refine .leave { h with ready := ⟨fn, hfn, hone, hcleared, hran⟩, numbered := ?_, rejected := ?_,
                           finished := ?_ } ?_
    · intro g hg
      obtain hg | hg := mem_append.mp hg
      · rw [note, hone] at hg
        rw [mem_singleton.mp hg]
        exact hlt
      · exact h.numbered g (mem_append_right _ hg)
    · intro g hg hmem
      rw [note, hone] at hmem
      rw [mem_singleton.mp hmem] at hg
      exact hrejected hg
    · intro hf
      rw [h.finished hf] at hs
      cases hs
    · intro k' hk' ha
      refine { hk' with phase := hk'.phase.moved (.inl hs) (.inl rfl) rfl, held := ?_,
                        callback := ?_ }
      · intro g hg
        rw [ha.not_held rfl] at hg
        cases hg
      intro g hg
      obtain ⟨hlt', -, hrejected'⟩ := hk'.callback g hg
      refine ⟨hlt', ?_, hrejected'⟩
      intro hmem
      rw [note, hone] at hmem
      rw [mem_singleton.mp hmem] at hg
      exact ha.callback fn rfl hg
  rename_i hs
  have hinv : BlockInv { b with onReadyFn := none, locked := false } := by
    refine { h with ready := ?_ }
    have hready := h.ready
    rw [ReadyOk] at hready ⊢
    split
    all_goals simp_all
  have hother : ∀ {k' : Pc T E C}, Local b k' → Apart (.readyCas fn) k' →
      Local { b with onReadyFn := none, locked := false } k' := by
    intro k' hk' ha
    refine { hk' with held := ?_ }
    intro g hg
    rw [ha.not_held rfl] at hg
    cases hg
  exact .after hother (moves_reject hinv rfl hlt hnew)

theorem moves_clearLock (hk : Local b .clearLock) : Moves b .clearLock (b.go .clearLock) := by
  rw [go]
  refine .underMutex h hk fun _ => ?_
  split
  · rename_i hs
    obtain ⟨fn, hfn, hinstalled, hcleared, hran⟩ := h.ready_armed hs
    have hone : b.seen.cleared ++ b.onReadyFn.toList = [fn] := by rw [hcleared, hfn]; rfl
    refine .leave { h with ready := ⟨fn, hinstalled, hone, hran⟩, finished := ?_ } ?_
    · intro hf
      rw [h.finished hf] at hs
      cases hs
    · intro k' hk' _
      refine { hk' with phase := hk'.phase.moved (.inr hs) (.inr rfl) rfl, held := ?_ }
      intro g hg
      exact absurd hs (hk'.held g hg).2.2.1
  · exact .back h

/-! ## Cancellation -/

variable {reason : CancelReason}

theorem moves_cancelLock (hk : Local b (.cancelLock reason)) :
    Moves b (.cancelLock reason) (b.go (.cancelLock reason)) := by
  rw [go]
  refine .underMutex h hk fun _ => ?_
  split
  · exact .back h
  rename_i hno
  rw [Bool.or_eq_true, not_or] at hno
  have haccepted := h.accepted_nil (by simpa using hno.2)
  have hone : b.seen.accepted ++ [reason] = [reason] := by rw [haccepted]; rfl
  refine ⟨{ h with requested := .inr ⟨rfl, hone⟩, hookRan := ?_, bound := ?_ }, ?_, ?_, ?_⟩
  · obtain hran | ⟨r, -, hr⟩ := h.hookRan
    · exact .inl hran
    · rw [haccepted] at hr
      cases hr
  · exact fun hf => absurd hf (Bool.noConfusion)
  · cases b.activeChildCancel with
    | some child | none =>
      exact { local_idle _ with reason := fun r hr => by cases hr; exact hone }
  · intro k' hk' _
    refine { hk' with hooking := ?_, reason := ?_ }
    · intro hh
      exact ⟨(hk'.hooking hh).1, (hk'.hooking hh).2.1, rfl⟩
    intro r hr
    have hold := hk'.reason r hr
    rw [haccepted] at hold
    cases hold
  · cases b.activeChildCancel with
    | some child | none => exact fun _ ha => { ha with }

theorem moves_askChild {cancelling : Bool} (hk : Local b (.askChild child reason cancelling)) :
    Moves b (.askChild child reason cancelling)
      (b.go (.askChild child reason cancelling)) := by
  rw [go]
  cases cancelling with
  | false => exact .leave { h with } fun hk' _ => { hk' with }
  | true =>
    exact ⟨{ h with }, { hk with },
      fun hk' _ => { hk' with }, fun _ ha => { ha with }⟩

/-- A thread takes the hook while nobody has it. -/
theorem moves_takeHook {hookInstalled : Bool} (hclaimed : b.hookClaimed = false)
    (hown : Local { b with hookInstalled, hookClaimed := true, hookFn := false } k₂)
    (hapart : ∀ {k'}, Apart k k' → ¬ k'.hooking = true → Apart k₂ k') :
    Moves b k ({ b with hookInstalled, hookClaimed := true, hookFn := false }, k₂) := by
  refine ⟨{ h with hookIdle := fun hf => absurd hf Bool.noConfusion }, hown, ?_, ?_⟩
  · intro k' hk' _
    exact { hk' with hooking := fun hh => ⟨rfl, (hk'.hooking hh).2⟩ }
  · intro k' hk' ha
    refine hapart ha fun hh => ?_
    rw [(hk'.hooking hh).1] at hclaimed
    cases hclaimed

theorem moves_claimHook (hk : Local b (.claimHook reason)) :
    Moves b (.claimHook reason) (b.go (.claimHook reason)) := by
  have haccepted := hk.reason reason rfl
  rw [go]
  refine .underMutex h hk fun _ => ?_
  split
  · exact .back h
  rename_i hno
  simp only [Bool.or_eq_true, Bool.not_eq_true', not_or, Bool.not_eq_true] at hno
  have hrequested := h.requested_of_accepted haccepted
  split
  · refine moves_takeHook h hno.1.2 ?_ fun ha hh =>
      { ha with hooking := fun hboth => hh hboth.2 }
    exact { hk with hooking := fun _ => ⟨rfl, h.hookIdle hno.1.2, hrequested⟩ }
  · exact moves_takeHook h hno.1.2 (local_idle _) fun ha _ => ha.mono (within_idle _)

theorem moves_hookCheck (hk : Local b (.hookCheck reason)) :
    Moves b (.hookCheck reason) (b.go (.hookCheck reason)) := by
  rw [go]
  split
  · exact .back h
  · exact .still h { hk with } fun ha => { ha with }

theorem moves_hookRun (hk : Local b (.hookRun reason)) :
    Moves b (.hookRun reason) (b.go (.hookRun reason)) := by
  obtain ⟨hclaimed, hran, -⟩ := hk.hooking rfl
  have hone : b.seen.hookRan ++ [reason] = [reason] := by rw [hran]; rfl
  rw [go]
  refine .leave { h with hookRan := .inr ⟨reason, hone, hk.reason reason rfl⟩, hookIdle := ?_ } ?_
  · intro hf
    rw [note, hclaimed] at hf
    cases hf
  · intro k' hk' ha
    refine { hk' with hooking := ?_ }
    intro hh
    exact absurd ⟨rfl, hh⟩ ha.hooking

theorem moves_hookLock (hk : Local b .hookLock) : Moves b .hookLock (b.go .hookLock) := by
  rw [go]
  refine .underMutex h hk fun _ => ?_
  split
  · exact .back h
  split
  · rename_i hnow
    rw [Bool.and_eq_true, Bool.not_eq_true'] at hnow
    refine moves_takeHook h hnow.1 ?_ fun ha hh =>
      { ha with hooking := fun hboth => hh hboth.2 }
    exact { hk with hooking := fun _ => ⟨rfl, h.hookIdle hnow.1, hnow.2⟩ }
  · exact .leave { h with } fun hk' _ => { hk' with }

theorem moves_hookNowCheck (hk : Local b .hookNowCheck) :
    Moves b .hookNowCheck (b.go .hookNowCheck) := by
  rw [go]
  split
  · exact .back h
  · exact .still h { hk with } fun ha => { ha with }

theorem moves_hookNowLoad (hk : Local b .hookNowLoad) :
    Moves b .hookNowLoad (b.go .hookNowLoad) := by
  have haccepted := h.accepted_eq (hk.hooking rfl).2.2
  rw [go]
  exact .still h { hk with reason := fun r hr => by cases hr; exact haccepted }
    fun ha => { ha with }

theorem moves_bindLock (hk : Local b (.bindLock child)) :
    Moves b (.bindLock child) (b.go (.bindLock child)) := by
  rw [go]
  refine .underMutex h hk fun _ => ?_
  split
  · exact .back h
  rename_i hactive
  refine ⟨{ h with bound := ?_ }, ?_, fun hk' _ => { hk' with }, ?_⟩
  · intro hrequested hnone c hc
    obtain hc | hc := mem_append.mp hc
    · rw [h.bound hrequested hnone c hc] at hactive
      exact absurd rfl hactive
    · rw [mem_singleton.mp hc]
      rfl
  · split
    · rename_i hrequested
      have haccepted := h.accepted_eq hrequested
      exact { hk with reason := fun r hr => by cases hr; exact haccepted }
    · exact local_idle _
  · split
    · exact fun _ ha => { ha with }
    · exact fun _ ha => ha.mono (within_idle _)

/-! ## Handing out the outcome -/

theorem moves_takeLock (hk : Local b .takeLock) : Moves b .takeLock (b.go .takeLock) := by
  rw [go]
  refine .underMutex h hk fun _ => ?_
  split
  · rename_i o ho
    split
    · exact .back h
    rename_i hstored
    obtain ⟨hcompleted, hhanded⟩ := h.outcome o ho
    have hone : b.seen.handed ++ [o] = [o] := by rw [hhanded]; rfl
    refine .leave { h with pending := ?_, outcome := ?_, handed := .inr ⟨o, hone, hcompleted⟩ } ?_
    · exact fun hn => absurd hn hstored
    · intro o' ho'
      cases ho'
    · intro k' hk' _
      refine { hk' with carried := ?_ }
      intro o' ho'
      rw [(hk'.carried o' ho').1] at ho
      cases ho
  · exact .back h

theorem moves_sinkLock (hk : Local b .sinkLock) : Moves b .sinkLock (b.go .sinkLock) := by
  rw [go]
  refine .underMutex h hk fun _ => ?_
  split
  · exact .back h
  · exact ⟨{ h with }, .of_free ⟨rfl, rfl, rfl, rfl⟩ rfl, fun hk' _ => { hk' with },
      fun _ ha => { ha with }⟩

/-! ## Every step -/

/-- A new callback gets a number of its own. -/
theorem moves_bring :
    Moves b .idle (b.note fun seen => { seen with callbacks := seen.callbacks + 1 },
      .readyLoad b.seen.callbacks) := by
  have hnew : ∀ fn ∈ b.seen.installed ++ b.seen.rejected, fn ≠ b.seen.callbacks :=
    fun fn hfn => Nat.ne_of_lt (h.numbered fn hfn)
  refine ⟨{ h with numbered := fun fn hfn => Nat.lt_succ_of_lt (h.numbered fn hfn) }, ?_, ?_, ?_⟩
  · refine { local_idle _ with callback := ?_ }
    intro fn hfn
    cases hfn
    exact ⟨Nat.lt_succ_self _, fun hin => hnew _ (mem_append_left _ hin) rfl,
      fun hin => hnew _ (mem_append_right _ hin) rfl⟩
  · intro k' hk' _
    refine { hk' with callback := ?_ }
    intro fn hfn
    obtain ⟨hlt, hrest⟩ := hk'.callback fn hfn
    exact ⟨Nat.lt_succ_of_lt hlt, hrest⟩
  intro k' hk' ha
  refine { ha with callback := ?_ }
  intro fn hfn hfn'
  cases hfn
  exact Nat.lt_irrefl _ (hk'.callback _ hfn').1

theorem moves_start (request : Request T E C) : Moves b .idle (b.start request) := by
  cases request with
  | trySetOutcome o =>
    exact .free h rfl ⟨rfl, rfl, rfl, rfl⟩
  | trySetOnReady given =>
    rw [start]
    split
    · exact moves_bring h
    have hbring := moves_bring h
    obtain ⟨hlt, hnew, -⟩ := hbring.own.callback _ rfl
    exact hbring.trans (moves_reject hbring.inv rfl hlt hnew)
  | clearOnReady | requestCancel reason =>
    exact .free h rfl ⟨rfl, rfl, rfl, rfl⟩
  | installCancelHook given =>
    cases given with
    | true =>
      exact .free h rfl ⟨rfl, rfl, rfl, rfl⟩
    | false => exact .back h
  | bindChildForCancellation child =>
    cases child with
    | some child =>
      exact .free h rfl ⟨rfl, rfl, rfl, rfl⟩
    | none => exact .back h
  | tryTakeReadyOutcome =>
    exact .free h rfl ⟨rfl, rfl, rfl, rfl⟩
  | tryInstallAbandonSink given =>
    cases given with
    | true =>
      exact .free h rfl ⟨rfl, rfl, rfl, rfl⟩
    | false => exact .back h

theorem moves_go (hk : Local b k) : Moves b k (b.go k) := by
  cases k with
  | idle => exact .still h hk id
  | claim o => exact moves_claim h o
  | publish o => exact moves_publish h hk
  | fireCas => exact moves_fireCas h hk
  | fireLock => exact moves_fireLock h hk
  | runReady fn => exact moves_runReady h hk
  | storeTerminal => exact moves_storeTerminal h hk
  | storeDisarmed => exact moves_storeDisarmed h hk
  | abandonPath completing => exact moves_abandonPath h hk
  | runSink o completing => exact moves_runSink h hk
  | readyLoad fn => exact moves_readyLoad h hk
  | readyLock fn => exact moves_readyLock h hk
  | readyCas fn => exact moves_readyCas h hk
  | clearLoad =>
    rw [go]
    split
    · exact .free h rfl ⟨rfl, rfl, rfl, rfl⟩
    · exact .back h
  | clearLock => exact moves_clearLock h hk
  | cancelLock reason => exact moves_cancelLock h hk
  | askChild child reason cancelling => exact moves_askChild h hk
  | claimHook reason => exact moves_claimHook h hk
  | hookCheck reason => exact moves_hookCheck h hk
  | hookRun reason => exact moves_hookRun h hk
  | hookLock => exact moves_hookLock h hk
  | hookNowCheck => exact moves_hookNowCheck h hk
  | hookNowLoad => exact moves_hookNowLoad h hk
  | bindLock child => exact moves_bindLock h hk
  | takeLoad =>
    rw [go]
    split
    · exact .back h
    · exact .free h rfl ⟨rfl, rfl, rfl, rfl⟩
  | takeLock => exact moves_takeLock h hk
  | sinkLock => exact moves_sinkLock h hk

theorem moves_step (hk : Local b k) (request : Request T E C) :
    Moves b k (Block.step request b k) := by
  cases k with
  | idle => exact moves_start h request
  | _ => exact moves_go h hk

end

/-- The invariant is modular. -/
theorem modular_step :
    Conflux.Core.Modular (Block.step (T := T) (E := E) (C := C)) BlockInv Local Apart where
  symm := Apart.symm
  own h hk a := ⟨(moves_step h hk a).inv, (moves_step h hk a).own⟩
  other h hk hk' ha a := (moves_step h hk a).other hk' ha
  apart h hk hk' ha a := (moves_step h hk a).apart hk' ha

end Conflux.Work.Control
