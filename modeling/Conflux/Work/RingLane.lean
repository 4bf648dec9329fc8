import Mathlib.Data.List.Basic
import Mathlib.Data.List.Count
import Mathlib.Data.List.Perm.Basic
import Mathlib.Algebra.Ring.Nat
import Mathlib.Data.List.Induction
import Conflux.Core.Interleave

/-!
# Ring lane

A lane is a queue of jobs that its owner thread drains when a wake message arrives. Other
threads push under the lock and send a message only into an empty queue, with a flag that a
wake is pending. The flag is cleared exactly where the queue becomes empty, so it is set
exactly while the queue holds a job. A drain that stops at its budget looks for a clear flag
before it sends the message for the jobs it leaves behind, and never finds one.
-/

namespace Conflux.Work

open List

/-- Settings of a lane. -/
structure RingLaneOptions where
  /-- Ring to send wake messages to. -/
  ringFd : Int := -1
  /-- Jobs that one drain may run, with zero for no limit. -/
  drainBudget : Nat := 0
  deriving DecidableEq, Repr

/-- The number of jobs after which a drain stops. -/
def RingLaneOptions.budget (o : RingLaneOptions) : Nat :=
  if o.drainBudget = 0 then 2 ^ 64 - 1 else o.drainBudget

/-- A lane of jobs. -/
structure RingLane (J : Type) where
  options : RingLaneOptions
  queue : List J := []
  stopped : Bool := false
  wakePending : Bool := false
  deriving DecidableEq, Repr

namespace RingLane

variable {J : Type}

/-- Send a wake message. The kernel's answer is `sent`. -/
def wakeRing (l : RingLane J) (sent : Bool) : Bool :=
  if l.options.ringFd < 0 then false else sent

/-- The part of `enqueue` under the lock: its answer, and whether a wake message was sent. -/
def enqueue (l : RingLane J) (job : J) (sent : Bool) : Bool × Bool × RingLane J :=
  if l.queue.isEmpty && !l.wakePending then
    if l.wakeRing sent then
      (true, true, { l with queue := l.queue ++ [job], wakePending := true })
    else (false, false, { l with queue := (l.queue ++ [job]).dropLast, wakePending := false })
  else (true, false, { l with queue := l.queue ++ [job] })

/-- The part of a turn of `drain` under the lock: the job to run. -/
def takeJob (l : RingLane J) : Option J × RingLane J :=
  match l.queue with
  | [] => (none, { l with wakePending := false })
  | job :: rest =>
    (some job, { l with queue := rest, wakePending := !rest.isEmpty && l.wakePending })

/-- The part of `drain` under the lock after its budget is spent: whether it sent a wake message. -/
def rewake (l : RingLane J) (sent : Bool) : Bool × RingLane J :=
  if !l.queue.isEmpty && !l.wakePending then
    (l.wakeRing sent, { l with wakePending := true })
  else (false, l)

/-- A wake is pending exactly while the queue holds a job. -/
def Flagged (l : RingLane J) : Prop := l.wakePending = !l.queue.isEmpty

variable {l : RingLane J}

theorem enqueue_nil (hflag : l.Flagged) (hqueue : l.queue = []) (job : J) (sent : Bool) :
    l.enqueue job sent =
      if l.wakeRing sent then (true, true, { l with queue := [job], wakePending := true })
      else (false, false, l) := by
  have hclear : l.wakePending = false := by rw [hflag, hqueue]; rfl
  obtain ⟨options, queue, stopped, wakePending⟩ := l
  subst hqueue hclear
  rfl

theorem enqueue_cons (hqueue : l.queue ≠ []) (job : J) (sent : Bool) :
    l.enqueue job sent = (true, false, { l with queue := l.queue ++ [job] }) := by
  simp [enqueue, hqueue]

theorem Flagged.enqueue (hflag : l.Flagged) (job : J) (sent : Bool) :
    (l.enqueue job sent).2.2.Flagged := by
  by_cases hqueue : l.queue = []
  · rw [enqueue_nil hflag hqueue]
    split
    · rfl
    · exact hflag
  rw [enqueue_cons hqueue]
  have hset : l.wakePending = true := by
    have hflag' : l.wakePending = !l.queue.isEmpty := hflag
    simp [hflag', hqueue]
  simp [Flagged, hset]

theorem Flagged.takeJob (hflag : l.Flagged) : l.takeJob.2.Flagged := by
  rw [RingLane.takeJob]
  cases hqueue : l.queue with
  | nil => simp [Flagged]
  | cons job rest =>
    have hset : l.wakePending = true := by rw [hflag, hqueue]; rfl
    simp [Flagged, hset]

/-- After a spent budget no wake message is sent. -/
theorem Flagged.rewake (hflag : l.Flagged) (sent : Bool) : l.rewake sent = (false, l) := by
  have hflag' : l.wakePending = !l.queue.isEmpty := hflag
  rw [RingLane.rewake, hflag']
  simp

end RingLane

open RingLane

/-! ## Runs -/

/-- Where the owner is. -/
inductive Drain where
  /-- Not in a drain. -/
  | idle
  /-- At the head of the loop, after some jobs. -/
  | turn (ran : Nat)
  /-- Running a job, which is the one with this number. -/
  | running (ran job : Nat)
  deriving DecidableEq, Repr

/-- A lane with the calls in progress and what came of the finished ones. Enqueue calls are
numbered in their order, and a job bears the number of its call. -/
structure LaneRun where
  lane : RingLane Nat
  /-- Number of enqueue calls made. -/
  calls : Nat := 0
  /-- Calls that have found the lane not stopped and have still to take the lock. -/
  entered : List Nat := []
  /-- Calls that returned true, in the order in which they held the lock. -/
  accepted : List Nat := []
  /-- Calls that returned false. -/
  rejected : List Nat := []
  /-- Wake messages sent and not delivered. -/
  inFlight : Nat := 0
  drain : Drain := .idle
  /-- Jobs that were run, oldest first. -/
  ran : List Nat := []
  deriving DecidableEq, Repr

/-- A step of some thread. -/
inductive LaneStep where
  /-- A new enqueue call looks whether the lane is stopped. -/
  | call
  /-- An enqueue call takes the lock. -/
  | lock (call : Nat) (sent : Bool)
  | stop
  /-- A wake message reaches the owner, who is not in a drain. -/
  | deliver
  /-- The owner's drain makes its next step. -/
  | drain (sent : Bool)
  deriving DecidableEq, Repr

namespace LaneRun

/-- What a step does. A step that is not possible changes nothing. -/
def step (s : LaneRun) : LaneStep → LaneRun
  | .call =>
    if s.lane.stopped then
      { s with calls := s.calls + 1, rejected := s.rejected ++ [s.calls] }
    else { s with calls := s.calls + 1, entered := s.entered ++ [s.calls] }
  | .lock call sent =>
    if s.entered.contains call then
      match s.lane.enqueue call sent with
      | (true, woke, lane) =>
        { s with
          lane := lane
          entered := s.entered.erase call
          accepted := s.accepted ++ [call]
          inFlight := s.inFlight + woke.toNat }
      | (false, woke, lane) =>
        { s with
          lane := lane
          entered := s.entered.erase call
          rejected := s.rejected ++ [call]
          inFlight := s.inFlight + woke.toNat }
    else s
  | .stop => { s with lane := { s.lane with stopped := true } }
  | .deliver =>
    match s.drain, s.inFlight with
    | .idle, n + 1 => { s with inFlight := n, drain := .turn 0 }
    | _, _ => s
  | .drain sent =>
    match s.drain with
    | .idle => s
    | .turn ran =>
      if ran < s.lane.options.budget then
        match s.lane.takeJob with
        | (none, lane) => { s with lane := lane, drain := .idle }
        | (some job, lane) => { s with lane := lane, drain := .running ran job }
      else
        { s with
          lane := (s.lane.rewake sent).2
          inFlight := s.inFlight + (s.lane.rewake sent).1.toNat
          drain := .idle }
    | .running ran job => { s with drain := .turn (ran + 1), ran := s.ran ++ [job] }

/-- A sequence of steps. -/
def run (s : LaneRun) (steps : List LaneStep) : LaneRun := steps.foldl step s

/-- A new lane. -/
def start (o : RingLaneOptions) : LaneRun := { lane := { options := o } }

/-- No enqueue call and no drain is in progress. -/
def Quiescent (s : LaneRun) : Prop := s.entered = [] ∧ s.drain = .idle

/-- Quiescence is decidable. -/
instance (s : LaneRun) : Decidable s.Quiescent := inferInstanceAs (Decidable (_ ∧ _))

/-- Where nothing is in progress, queued jobs have a wake message in flight. -/
def Awake (s : LaneRun) : Prop := s.Quiescent → s.lane.queue ≠ [] → 0 < s.inFlight

/-- A drain ends with its budget spent, jobs left and no message in flight. -/
def Strands (s : LaneRun) (a : LaneStep) : Prop :=
  (∃ sent, a = .drain sent) ∧ (∃ ran, s.drain = .turn ran ∧ s.lane.options.budget ≤ ran) ∧
    s.lane.queue ≠ [] ∧ s.inFlight = 0

/-- The job that is being run. -/
def current (s : LaneRun) : List Nat :=
  match s.drain with
  | .running _ job => [job]
  | _ => []

/-- Jobs run once, in the order of acceptance, and no rejected job runs. -/
structure Orderly (s : LaneRun) : Prop where
  ran_once : (s.ran ++ s.current).Nodup
  fifo : s.accepted = s.ran ++ s.current ++ s.lane.queue
  rejected_idle : ∀ job ∈ s.rejected, job ∉ s.ran ++ s.current

/-! ## What every run keeps -/

/-- What holds of every lane with the given settings. -/
structure Kept (o : RingLaneOptions) (s : LaneRun) : Prop where
  options_eq : s.lane.options = o
  flagged : s.lane.Flagged
  /-- Accepted jobs ran, run or wait, in order. -/
  fifo : s.accepted = s.ran ++ s.current ++ s.lane.queue
  /-- Each call is in progress or decided. -/
  calls_perm : (s.entered ++ (s.accepted ++ s.rejected)).Perm (List.range s.calls)
  /-- Without a ring no job is accepted. -/
  unwakeable : o.ringFd < 0 → s.accepted = []
  /-- A drain counts jobs that ran. -/
  spent : ∀ ran, s.drain = .turn ran ∨ (∃ job, s.drain = .running ran job) → ran ≤ s.ran.length

theorem kept_start (o : RingLaneOptions) : Kept o (start o) where
  options_eq := rfl
  flagged := rfl
  fifo := rfl
  calls_perm := List.Perm.refl _
  unwakeable _ := rfl
  spent ran h := by simp [start] at h

variable {o : RingLaneOptions} {entered : List Nat} {ran left : Nat} {s : LaneRun}

theorem Kept.call (h : Kept o s) : Kept o (s.step .call) := by
  have hnext : (List.range s.calls ++ [s.calls]).Perm (List.range (s.calls + 1)) := by
    rw [range_succ]
  rw [step]
  split
  · refine { h with calls_perm := ?_ }
    rw [← append_assoc, ← append_assoc, append_assoc s.entered]
    exact (h.calls_perm.append_right _).trans hnext
  refine { h with calls_perm := ?_ }
  refine List.Perm.trans ?_ ((h.calls_perm.append_right [s.calls]).trans hnext)
  rw [append_assoc, append_assoc]
  exact perm_append_comm.append_left _

theorem perm_accept {accepted rejected : List Nat} {call : Nat} (h : call ∈ entered) :
    (entered.erase call ++ (accepted ++ [call] ++ rejected)).Perm
      (entered ++ (accepted ++ rejected)) := by
  have hentered := (perm_cons_erase h).append_right (accepted ++ rejected)
  refine List.Perm.trans ?_ hentered.symm
  have hmiddle : (entered.erase call ++ accepted ++ call :: rejected).Perm
      (call :: (entered.erase call ++ accepted ++ rejected)) := perm_middle
  simpa using hmiddle

theorem perm_reject {accepted rejected : List Nat} {call : Nat} (h : call ∈ entered) :
    (entered.erase call ++ (accepted ++ (rejected ++ [call]))).Perm
      (entered ++ (accepted ++ rejected)) := by
  refine List.Perm.trans ?_ (perm_accept h)
  rw [append_assoc accepted]
  exact (perm_append_comm.append_left _).append_left _

section

variable (h : Kept o s)
include h

theorem Kept.lock (call : Nat) (sent : Bool) :
    Kept o (s.step (.lock call sent)) := by
  rw [step]
  split
  case isFalse => exact h
  case isTrue hentered =>
    have hmem : call ∈ s.entered := contains_iff_mem.mp hentered
    have hflagged := h.flagged.enqueue call sent
    by_cases hqueue : s.lane.queue = []
    · rw [enqueue_nil h.flagged hqueue] at hflagged ⊢
      by_cases hwake : s.lane.wakeRing sent = true
      · rw [if_pos hwake] at hflagged ⊢
        refine { h with flagged := hflagged, fifo := ?_, calls_perm := ?_, unwakeable := ?_ }
        · change s.accepted ++ [call] = s.ran ++ s.current ++ [call]
          rw [h.fifo, hqueue, append_nil]
        · exact (perm_accept hmem).trans h.calls_perm
        · intro hfd
          rw [wakeRing, h.options_eq, if_pos hfd] at hwake
          cases hwake
      · rw [if_neg hwake] at hflagged ⊢
        exact { h with calls_perm := (perm_reject hmem).trans h.calls_perm }
    rw [enqueue_cons hqueue] at hflagged ⊢
    refine { h with flagged := hflagged, fifo := ?_, calls_perm := ?_, unwakeable := ?_ }
    · change s.accepted ++ [call] = s.ran ++ s.current ++ (s.lane.queue ++ [call])
      rw [h.fifo, append_assoc]
    · exact (perm_accept hmem).trans h.calls_perm
    · intro hfd
      have hnil := h.fifo.symm.trans (h.unwakeable hfd)
      exact absurd (append_eq_nil_iff.mp hnil).2 hqueue

theorem Kept.deliver : Kept o (s.step .deliver) := by
  rw [step]
  split
  case h_2 => exact h
  case h_1 n hidle hflight =>
    have hcurrent : s.current = [] := by rw [current, hidle]
    refine { h with fifo := ?_, spent := by simp }
    change s.accepted = s.ran ++ [] ++ s.lane.queue
    rw [h.fifo, hcurrent]

theorem Kept.drain (sent : Bool) : Kept o (s.step (.drain sent)) := by
  rw [step]
  split
  case h_1 => exact h
  case h_2 ran hturn =>
    have hcurrent : s.current = [] := by rw [current, hturn]
    have hfifo := h.fifo
    rw [hcurrent, append_nil] at hfifo
    split
    case isFalse hspent =>
      rw [h.flagged.rewake]
      refine { h with fifo := ?_, spent := by simp }
      change s.accepted = s.ran ++ [] ++ s.lane.queue
      rw [hfifo, append_nil]
    case isTrue hlt =>
      have hflagged := h.flagged.takeJob
      rw [takeJob] at hflagged ⊢
      cases hqueue : s.lane.queue with
      | nil =>
        rw [hqueue] at hflagged hfifo
        refine { h with flagged := hflagged, fifo := ?_, spent := by simp }
        change s.accepted = s.ran ++ [] ++ []
        rw [hfifo, append_nil, append_nil]
      | cons job rest =>
        rw [hqueue] at hflagged hfifo
        refine { h with flagged := hflagged, fifo := ?_, spent := ?_ }
        · change s.accepted = s.ran ++ [job] ++ rest
          rw [hfifo, append_assoc]
          rfl
        · rintro ran' (hturn' | ⟨job', hrunning⟩)
          · cases hturn'
          · cases hrunning
            exact h.spent ran (.inl hturn)
  case h_3 ran job hrunning =>
    have hcurrent : s.current = [job] := by rw [current, hrunning]
    refine { h with fifo := ?_, spent := ?_ }
    · change s.accepted = s.ran ++ [job] ++ [] ++ s.lane.queue
      rw [h.fifo, hcurrent, append_nil]
    · rintro ran' (hturn' | ⟨job', hrunning'⟩)
      · cases hturn'
        rw [length_append]
        exact Nat.succ_le_succ (h.spent ran (.inr ⟨job, hrunning⟩))
      · cases hrunning'

/-- Every step keeps the invariant. -/
theorem Kept.step (a : LaneStep) : Kept o (s.step a) := by
  cases a with
  | call => exact h.call
  | lock call sent => exact h.lock call sent
  | stop => exact { h with }
  | deliver => exact h.deliver
  | drain sent => exact h.drain sent

theorem Kept.run (steps : List LaneStep) : Kept o (s.run steps) :=
  List.foldlRecOn steps LaneRun.step h fun _ h a _ => h.step a

end

/-- The invariant holds in every run. -/
theorem kept_run (o : RingLaneOptions) (steps : List LaneStep) : Kept o ((start o).run steps) :=
  (kept_start o).run steps

theorem Kept.orderly (h : Kept o s) : s.Orderly := by
  have hnodup : (s.entered ++ (s.accepted ++ s.rejected)).Nodup :=
    h.calls_perm.nodup_iff.mpr nodup_range
  obtain ⟨haccepted, -, hdisjoint⟩ := nodup_append.mp (nodup_append.mp hnodup).2.1
  have hfifo := h.fifo
  refine ⟨?_, hfifo, ?_⟩
  · rw [hfifo] at haccepted
    exact (nodup_append.mp haccepted).1
  intro job hrejected hran
  have hmem : job ∈ s.accepted := by
    rw [hfifo]
    exact mem_append_left _ hran
  exact hdisjoint job hmem job hrejected rfl

/-! ## Wake messages -/

/-- Queued jobs have a wake message in flight or a drain at work. -/
def Attended (s : LaneRun) : Prop := s.lane.queue ≠ [] → 0 < s.inFlight ∨ s.drain ≠ .idle

theorem Attended.awake (h : s.Attended) : s.Awake := by
  intro hquiescent hqueue
  obtain hflight | hdrain := h hqueue
  · exact hflight
  · exact absurd hquiescent.2 hdrain

theorem Kept.attended_lock (h : Kept o s) (hs : s.Attended) (call : Nat) (sent : Bool) :
    (s.step (.lock call sent)).Attended := by
  rw [LaneRun.step]
  split
  case isFalse => exact hs
  case isTrue =>
    by_cases hqueue : s.lane.queue = []
    · rw [enqueue_nil h.flagged hqueue]
      by_cases hwake : s.lane.wakeRing sent = true
      · rw [if_pos hwake]
        exact fun _ => .inl (Nat.succ_pos _)
      · rw [if_neg hwake]
        exact hs
    · rw [enqueue_cons hqueue]
      exact fun _ => hs hqueue

theorem Kept.attended_drain (h : Kept o s) (hs : s.Attended) {sent : Bool}
    (hno : ¬ s.Strands (.drain sent)) : (s.step (.drain sent)).Attended := by
  rw [LaneRun.step]
  split
  case h_1 => exact hs
  case h_2 ran hturn =>
    split
    case isTrue =>
      rw [takeJob]
      cases s.lane.queue with
      | nil => exact fun hqueue => absurd rfl hqueue
      | cons job rest => exact fun _ => .inr Drain.noConfusion
    case isFalse hspent =>
      rw [h.flagged.rewake]
      refine fun hqueue => .inl (Nat.pos_of_ne_zero fun hflight => hno ?_)
      exact ⟨⟨sent, rfl⟩, ⟨ran, hturn, Nat.le_of_not_lt hspent⟩, hqueue, hflight⟩
  case h_3 => exact fun _ => .inr Drain.noConfusion

/-- Only a drain that ends with its budget spent leaves queued jobs unattended. -/
theorem Kept.attended_step (h : Kept o s) (hs : s.Attended) {a : LaneStep} (hno : ¬ s.Strands a) :
    (s.step a).Attended := by
  cases a with
  | call =>
    rw [LaneRun.step]
    split
    all_goals exact hs
  | lock call sent => exact h.attended_lock hs call sent
  | stop => exact hs
  | deliver =>
    rw [LaneRun.step]
    split
    · exact fun _ => .inr Drain.noConfusion
    · exact hs
  | drain sent => exact h.attended_drain hs hno

theorem attended_run (o : RingLaneOptions) {steps : List LaneStep}
    (hno : ∀ before a after, steps = before ++ a :: after → ¬ ((start o).run before).Strands a) :
    ((start o).run steps).Attended := by
  induction steps using List.reverseRecOn with
  | nil => exact fun hqueue => absurd rfl hqueue
  | append_singleton steps a ih =>
    rw [Core.forall_split_concat] at hno
    rw [LaneRun.run, foldl_append]
    exact (kept_run o steps).attended_step (ih hno.1) hno.2

/-- A drain that strands jobs leaves the lane asleep, if no enqueue call is in progress. -/
theorem Kept.not_awake_of_strands (h : Kept o s) {a : LaneStep} (hstrands : s.Strands a)
    (hentered : s.entered = []) : ¬ (s.step a).Awake := by
  obtain ⟨⟨sent, rfl⟩, ⟨ran, hturn, hspent⟩, hqueue, hflight⟩ := hstrands
  have hlast : s.step (.drain sent) = { s with drain := .idle } := by
    simp [LaneRun.step, hturn, Nat.not_lt.mpr hspent, h.flagged.rewake]
  rw [hlast]
  intro hawake
  have hpos : 0 < s.inFlight := hawake ⟨hentered, rfl⟩ hqueue
  exact absurd hflight (Nat.ne_of_gt hpos)

/-- A drain that has spent its budget has run as many jobs. -/
theorem Kept.not_strands_of_few (h : Kept o s) (hfew : s.accepted.length ≤ o.budget)
    (a : LaneStep) : ¬ s.Strands a := by
  rintro ⟨-, ⟨ran, hturn, hspent⟩, hqueue, -⟩
  rw [h.options_eq] at hspent
  have hran := h.spent ran (.inl hturn)
  have hlength := congrArg List.length h.fifo
  have hpos := length_pos_iff.mpr hqueue
  rw [length_append, length_append] at hlength
  omega

theorem accepted_le_step (s : LaneRun) (a : LaneStep) :
    s.accepted.length ≤ (s.step a).accepted.length := by
  cases a with
  | lock call sent =>
    rw [LaneRun.step]
    repeat' split
    all_goals simp
  | _ =>
    rw [LaneRun.step]
    repeat' split
    all_goals exact Nat.le_refl _

theorem accepted_le_run (s : LaneRun) (steps : List LaneStep) :
    s.accepted.length ≤ (s.run steps).accepted.length :=
  List.foldlRecOn (motive := fun t => s.accepted.length ≤ t.accepted.length) steps LaneRun.step
    (Nat.le_refl _) fun t h a _ => Nat.le_trans h (accepted_le_step t a)

theorem awake_of_few {steps : List LaneStep}
    (hfew : ((start o).run steps).accepted.length ≤ o.budget) : ((start o).run steps).Awake := by
  refine (attended_run o ?_).awake
  rintro before a after rfl
  refine (kept_run o before).not_strands_of_few (Nat.le_trans ?_ hfew) a
  rw [LaneRun.run, LaneRun.run, foldl_append]
  exact accepted_le_run _ (a :: after)

/-! ## Jobs left behind -/

/-- A lane that has accepted some jobs with nobody draining. -/
structure Loaded (o : RingLaneOptions) (jobs : Nat) (s : LaneRun) : Prop extends Kept o s where
  running : s.lane.stopped = false
  calls_eq : s.calls = jobs
  entered_nil : s.entered = []
  idle : s.drain = .idle
  queue_length : s.lane.queue.length = jobs
  accepted_length : s.accepted.length = jobs
  inFlight_eq : s.inFlight = min jobs 1

/-- Steps that enqueue some jobs one after the other. -/
def load : Nat → List LaneStep
  | 0 => []
  | jobs + 1 => load jobs ++ [.call, .lock jobs true]

theorem Loaded.next {jobs : Nat} (h : Loaded o jobs s) (hfd : ¬ o.ringFd < 0) :
    Loaded o (jobs + 1) (s.run [.call, .lock jobs true]) := by
  have hkept := h.toKept.run [.call, .lock jobs true]
  have hcall : s.step .call = { s with calls := jobs + 1, entered := [jobs] } := by
    simp [step, h.running, h.calls_eq, h.entered_nil]
  have hwake : s.lane.wakeRing true = true := by
    simp [wakeRing, h.options_eq, hfd]
  have hlength := h.queue_length
  have haccepted := h.accepted_length
  have hflight := h.inFlight_eq
  change Kept o ((s.step .call).step (.lock jobs true)) at hkept
  change Loaded o (jobs + 1) ((s.step .call).step (.lock jobs true))
  rw [hcall] at hkept ⊢
  by_cases hqueue : s.lane.queue = []
  · have hzero : jobs = 0 := by rw [← hlength, hqueue]; rfl
    refine { hkept with running := ?_, calls_eq := ?_, entered_nil := ?_, idle := ?_,
                        queue_length := ?_, accepted_length := ?_, inFlight_eq := ?_ }
    all_goals
      simp [step, enqueue_nil h.flagged hqueue, hwake, h.running, h.idle, haccepted,
        hflight, hzero]
  have hpos : 0 < jobs := hlength ▸ length_pos_iff.mpr hqueue
  refine { hkept with running := ?_, calls_eq := ?_, entered_nil := ?_, idle := ?_,
                      queue_length := ?_, accepted_length := ?_, inFlight_eq := ?_ }
  all_goals
    simp [step, enqueue_cons hqueue, h.running, h.idle, haccepted, hflight, hlength]
  omega

theorem loaded_load (hfd : ¬ o.ringFd < 0) (jobs : Nat) :
    Loaded o jobs ((start o).run (load jobs)) := by
  induction jobs with
  | zero => exact { kept_start o with running := rfl, calls_eq := rfl, entered_nil := rfl,
                                      idle := rfl, queue_length := rfl, accepted_length := rfl,
                                      inFlight_eq := rfl }
  | succ jobs ih =>
    rw [load, run, foldl_append]
    exact ih.next hfd

/-- A drain that has run some jobs, with others still queued. -/
structure Draining (o : RingLaneOptions) (ran left accepted : Nat) (s : LaneRun) : Prop
    extends Kept o s where
  entered_nil : s.entered = []
  turn : s.drain = .turn ran
  queue_length : s.lane.queue.length = left
  accepted_length : s.accepted.length = accepted
  grounded : s.inFlight = 0

theorem Draining.next {accepted : Nat} (h : Draining o ran (left + 1) accepted s)
    (hran : ran < o.budget) :
    Draining o (ran + 1) left accepted (s.run [.drain false, .drain false]) := by
  have hkept := h.toKept.run [.drain false, .drain false]
  have hlength := h.queue_length
  obtain ⟨job, rest, hqueue⟩ := exists_cons_of_length_eq_add_one hlength
  rw [hqueue, length_cons] at hlength
  have hbudget : ran < s.lane.options.budget := h.options_eq ▸ hran
  refine { hkept with entered_nil := ?_, turn := ?_, queue_length := ?_, accepted_length := ?_,
                      grounded := ?_ }
  all_goals
    simp [run, step, h.turn, hbudget, takeJob, hqueue, h.entered_nil,
      h.accepted_length, h.grounded]
  omega

/-- Steps of a drain that run some jobs. -/
def runJobs : Nat → List LaneStep
  | 0 => []
  | jobs + 1 => [.drain false, .drain false] ++ runJobs jobs

theorem Draining.run {accepted : Nat} (jobs : Nat) (h : Draining o ran (left + jobs) accepted s)
    (hran : ran + jobs ≤ o.budget) :
    Draining o (ran + jobs) left accepted (s.run (runJobs jobs)) := by
  induction jobs generalizing ran s with
  | zero => exact h
  | succ jobs ih =>
    have hnext : Draining o (ran + 1) (left + jobs) accepted
        (s.run [.drain false, .drain false]) := h.next (by omega)
    have hrest := ih hnext (by omega)
    rw [runJobs, LaneRun.run, foldl_append]
    rw [Nat.add_right_comm] at hrest
    exact hrest

/-- A run in which a drain spends its budget with one job left. -/
def leaveOne (o : RingLaneOptions) : List LaneStep :=
  load (o.budget + 1) ++ [.deliver] ++ runJobs o.budget ++ [.drain true]

theorem run_leaveOne (hfd : ¬ o.ringFd < 0) :
    ((start o).run (leaveOne o)).accepted.length = o.budget + 1 ∧
      ¬ ((start o).run (leaveOne o)).Awake := by
  have hload := loaded_load hfd (o.budget + 1)
  set s := (start o).run (load (o.budget + 1)) with hs
  have hdeliver : Draining o 0 (1 + o.budget) (o.budget + 1) (s.step .deliver) := by
    have hflight : s.inFlight = 0 + 1 := by rw [hload.inFlight_eq]; omega
    refine { hload.toKept.step .deliver with entered_nil := ?_, turn := ?_, queue_length := ?_,
                                             accepted_length := ?_, grounded := ?_ }
    all_goals
      simp [step, hload.idle, hflight, hload.entered_nil, hload.queue_length, hload.accepted_length]
    omega
  have hdrain := hdeliver.run o.budget (by omega)
  rw [zero_add] at hdrain
  set t := (s.step .deliver).run (runJobs o.budget) with ht
  have hrun : (start o).run (leaveOne o) = t.step (.drain true) := by
    rw [leaveOne, run, foldl_append, foldl_append, foldl_append]
    rfl
  have hqueue : t.lane.queue ≠ [] := by
    intro hnil
    have hlength := hdrain.queue_length
    rw [hnil] at hlength
    cases hlength
  have hstrands : t.Strands (.drain true) :=
    ⟨⟨true, rfl⟩, ⟨o.budget, hdrain.turn, by rw [hdrain.options_eq]⟩, hqueue, hdrain.grounded⟩
  have hsame : (t.step (.drain true)).accepted = t.accepted := by
    simp [step, hdrain.turn, hdrain.options_eq]
  rw [hrun, hsame]
  exact ⟨hdrain.accepted_length, hdrain.not_awake_of_strands hstrands hdrain.entered_nil⟩

/-- In every run jobs run once, in the order of acceptance, and no rejected job runs. Queued
jobs have a wake message in flight wherever nothing is in progress, over all runs that accept
at most a given number of jobs, exactly if one drain may run that many, or no job is ever
accepted because the lane has no ring. In a single run they have one as long as no drain ends
with its budget spent, jobs left and no message in flight, and none behind such a step. -/
theorem ringLane_run (o : RingLaneOptions) :
    (∀ steps, ((start o).run steps).Orderly) ∧
    (∀ jobs, (∀ steps, ((start o).run steps).accepted.length ≤ jobs →
        ((start o).run steps).Awake) ↔ jobs ≤ o.budget ∨ o.ringFd < 0) ∧
    ∀ steps, ((∀ before a after, steps = before ++ a :: after →
          ¬ ((start o).run before).Strands a) → ((start o).run steps).Awake) ∧
      ∀ a, ((start o).run steps).Strands a → ((start o).run steps).entered = [] →
        ¬ ((start o).run (steps ++ [a])).Awake := by
  refine ⟨fun steps => (kept_run o steps).orderly, fun jobs => ⟨?_, ?_⟩, fun steps => ⟨?_, ?_⟩⟩
  · intro hawake
    by_contra hmore
    obtain ⟨hbudget, hfd⟩ := not_or.mp hmore
    obtain ⟨hlength, hleft⟩ := run_leaveOne hfd
    exact hleft (hawake (leaveOne o) (by omega))
  · rintro (hfew | hfd) steps hlength
    · exact awake_of_few (by omega)
    · have hnone := (kept_run o steps).unwakeable hfd
      exact awake_of_few (by rw [hnone]; exact Nat.zero_le _)
  · exact fun hno => (attended_run o hno).awake
  · intro a hstrands hentered
    rw [run, foldl_append]
    exact (kept_run o steps).not_awake_of_strands hstrands hentered

/-- With a budget of one, two jobs are enqueued and one wake is delivered: the first runs, the
second stays queued with no message in flight. -/
theorem run_budgetOne :
    let s := (start { ringFd := 3, drainBudget := 1 }).run
      [.call, .lock 0 true, .call, .lock 1 true, .deliver, .drain true, .drain true, .drain true]
    s.Quiescent ∧ s.lane.queue = [1] ∧ s.inFlight = 0 ∧ ¬ s.Awake := by
  refine ⟨by decide, by decide, by decide, fun hawake => ?_⟩
  exact absurd (hawake (by decide) (by decide)) (by decide)

end LaneRun

end Conflux.Work
