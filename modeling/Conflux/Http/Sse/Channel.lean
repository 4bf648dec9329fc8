import Conflux.Http.Basic
import Conflux.Core.Guarded

/-!
# Channels of server-sent events

A channel queues frames for one connection up to a number of bytes. The limit binds except where
the oldest frames make room for a frame that is larger than it. Closing a channel runs the
callbacks that wait for it; a send that overflows under the policy `disconnect` closes it too, and
the callbacks then never run.
-/

namespace Conflux.Http.Sse

open List

open Conflux.Core (allowed forall_along_iff_allowed)

/-- What happens to a frame that does not fit. -/
inductive SseOverflowPolicy where
  | dropNewest
  | dropOldest
  | disconnect
  deriving DecidableEq, Repr

/-- A channel; callbacks are known by the values of a type. -/
structure SseChannel (κ : Type) where
  maxQueueBytes : Nat := 4 * 1024 * 1024
  overflow : SseOverflowPolicy := .dropNewest
  pending : List Bytes := []
  closed : Bool := false
  queuedBytes : Nat := 0
  dropped : Nat := 0
  droppedNewest : Nat := 0
  droppedOldest : Nat := 0
  disconnectedForPressure : Nat := 0
  closeCallbacks : List κ := []
  deriving DecidableEq, Repr

variable {κ : Type}

namespace SseChannel

/-- The loop that makes room: the counter and the queue that it leaves, and the number of dropped
frames. -/
def makeRoom (maxQueueBytes frameBytes : Nat) : Nat → List Bytes → Nat × List Bytes × Nat
  | queued, [] => (queued, [], 0)
  | queued, front :: rest =>
    if maxQueueBytes < queued + frameBytes then
      let (left, kept, gone) := makeRoom maxQueueBytes frameBytes (queued - front.length) rest
      (left, kept, gone + 1)
    else (queued, front :: rest, 0)

/-- The end of `send`. -/
def push (c : SseChannel κ) (frame : Bytes) : SseChannel κ :=
  if c.closed then c
  else { c with queuedBytes := c.queuedBytes + frame.length, pending := c.pending ++ [frame] }

/-- A frame does not fit. -/
def overflows (c : SseChannel κ) (frame : Bytes) : Bool :=
  c.maxQueueBytes < c.queuedBytes + frame.length && c.maxQueueBytes != 0

/-- Queue a frame. -/
def send (c : SseChannel κ) (frame : Bytes) : SseChannel κ :=
  if c.closed then c
  else if c.overflows frame then
    match c.overflow with
    | .dropNewest => { c with dropped := c.dropped + 1, droppedNewest := c.droppedNewest + 1 }
    | .dropOldest =>
      let (left, kept, gone) := makeRoom c.maxQueueBytes frame.length c.queuedBytes c.pending
      { c with
        queuedBytes := left, pending := kept, dropped := c.dropped + gone,
        droppedOldest := c.droppedOldest + gone }.push frame
    | .disconnect =>
      { c with
        closed := true, dropped := c.dropped + 1,
        disconnectedForPressure := c.disconnectedForPressure + 1 }.push frame
  else c.push frame

/-- Take all queued frames. -/
def drain (c : SseChannel κ) : Bytes × SseChannel κ :=
  (c.pending.flatten, { c with pending := [], queuedBytes := 0 })

/-- `close`, with the callbacks that it runs. -/
def close (c : SseChannel κ) : List κ × SseChannel κ :=
  if c.closed then ([], c) else (c.closeCallbacks, { c with closed := true, closeCallbacks := [] })

/-- `on_close`, with the callbacks that it runs. -/
def onClose (c : SseChannel κ) (callback : κ) : List κ × SseChannel κ :=
  if c.closed then ([callback], c)
  else ([], { c with closeCallbacks := c.closeCallbacks ++ [callback] })

/-- The total size of frames. -/
def totalBytes (frames : List Bytes) : Nat := (frames.map List.length).sum

/-- What making room for a frame does, where the counter is right. -/
theorem makeRoom_spec (maxQueueBytes frameBytes : Nat) (frames : List Bytes) :
    ∃ gone kept, frames = gone ++ kept ∧
      makeRoom maxQueueBytes frameBytes (totalBytes frames) frames =
        (totalBytes kept, kept, gone.length) ∧
      (totalBytes kept + frameBytes ≤ maxQueueBytes ∨ kept = []) := by
  induction frames with
  | nil => exact ⟨[], [], rfl, rfl, .inr rfl⟩
  | cons front rest ih =>
    have htotal : totalBytes (front :: rest) = front.length + totalBytes rest := sum_cons
    rw [makeRoom]
    split
    · obtain ⟨gone, kept, hsplit, heq, hroom⟩ := ih
      refine ⟨front :: gone, kept, by rw [hsplit, cons_append], ?_, hroom⟩
      rw [htotal, Nat.add_sub_cancel_left, heq]
      rfl
    · rename_i hfits
      exact ⟨[], front :: rest, rfl, rfl, .inl (Nat.le_of_not_lt hfits)⟩

end SseChannel

open SseChannel (totalBytes makeRoom_spec)

/-! ## Runs -/

/-- What is done to a channel; the server closes it when its peer is gone. -/
inductive ChannelOp (κ : Type) where
  | send (frame : Bytes)
  | drain
  | close
  | peerGone
  | onClose (callback : κ)
  deriving DecidableEq, Repr

/-- A channel with the numbers of frames offered and drained, and the callbacks registered and
run. -/
structure Ledger (κ : Type) where
  channel : SseChannel κ
  offered : Nat := 0
  drained : Nat := 0
  registered : List κ := []
  ran : List κ := []
  deriving DecidableEq, Repr

namespace Ledger

variable {s : Ledger κ} {frame : Bytes}

/-- The channel is closed and runs its callbacks. -/
def closing (s : Ledger κ) : Ledger κ :=
  { s with channel := s.channel.close.2, ran := s.ran ++ s.channel.close.1 }

/-- The ledger after one operation. -/
def step (s : Ledger κ) : ChannelOp κ → Ledger κ
  | .send frame =>
    { s with
      channel := s.channel.send frame
      offered := if s.channel.closed then s.offered else s.offered + 1 }
  | .drain =>
    { s with channel := s.channel.drain.2, drained := s.drained + s.channel.pending.length }
  | .close | .peerGone => s.closing
  | .onClose callback =>
    { s with
      channel := (s.channel.onClose callback).2
      registered := s.registered ++ [callback]
      ran := s.ran ++ (s.channel.onClose callback).1 }

/-- A new channel. -/
def fresh (maxQueueBytes : Nat) (overflow : SseOverflowPolicy) : Ledger κ where
  channel := { maxQueueBytes, overflow }

/-! ## The queue -/

/-- The counters are right and the limit, which is not zero, binds. -/
structure Accounted (s : Ledger κ) : Prop where
  limit : s.channel.maxQueueBytes ≠ 0
  bytes : s.channel.queuedBytes = totalBytes s.channel.pending
  bound : s.channel.queuedBytes ≤ s.channel.maxQueueBytes
  frames : s.offered = s.drained + s.channel.pending.length + s.channel.dropped

/-- A frame offered to an open channel that drops its oldest frames is not larger than the
limit. -/
def fits (s : Ledger κ) : ChannelOp κ → Bool
  | .send frame =>
    s.channel.closed || s.channel.overflow != .dropOldest || frame.length ≤ s.channel.maxQueueBytes
  | _ => true

open SseChannel

section

variable (h : s.Accounted)
include h

/-- A frame is queued behind `kept`, where `gone` frames have made room for it. -/
theorem Accounted.queued {gone kept : List Bytes}
    (hsplit : s.channel.pending = gone ++ kept) {c : SseChannel κ} (hopen : c.closed = false)
    (hpending : c.pending = kept) (hbytes : c.queuedBytes = totalBytes kept)
    (hdropped : c.dropped = s.channel.dropped + gone.length)
    (hlimit : c.maxQueueBytes = s.channel.maxQueueBytes) :
    ({ s with channel := c.push frame, offered := s.offered + 1 } : Ledger κ).Accounted ↔
      totalBytes kept + frame.length ≤ s.channel.maxQueueBytes := by
  have hframes := h.frames
  rw [hsplit, length_append] at hframes
  rw [push, hopen, if_neg Bool.false_ne_true, hpending, hbytes]
  refine ⟨fun hnew => hlimit ▸ hnew.bound, fun hroom => ⟨hlimit ▸ h.limit, ?_, hlimit ▸ hroom, ?_⟩⟩
  · simp [totalBytes]
  dsimp only
  rw [hdropped, length_append, length_singleton]
  omega

/-- A frame is dropped instead of being queued. -/
theorem Accounted.refused {c : SseChannel κ}
    (hpending : c.pending = s.channel.pending) (hbytes : c.queuedBytes = s.channel.queuedBytes)
    (hdropped : c.dropped = s.channel.dropped + 1)
    (hlimit : c.maxQueueBytes = s.channel.maxQueueBytes) :
    ({ s with channel := c, offered := s.offered + 1 } : Ledger κ).Accounted := by
  refine ⟨hlimit ▸ h.limit, ?_, ?_, ?_⟩
  · rw [hpending, hbytes, h.bytes]
  · rw [hbytes, hlimit]
    exact h.bound
  have hframes := h.frames
  dsimp only
  rw [hpending, hdropped]
  omega

/-- A send keeps the accounts exactly if the frame fits. -/
theorem Accounted.send (frame : Bytes) :
    (s.step (.send frame)).Accounted ↔ s.fits (.send frame) = true := by
  rw [step, fits, SseChannel.send]
  cases hclosed : s.channel.closed with
  | true => simpa using h
  | false =>
    rw [if_neg Bool.false_ne_true, if_neg Bool.false_ne_true, Bool.false_or, Bool.or_eq_true,
      bne_iff_ne, decide_eq_true_eq]
    split
    · cases hpolicy : s.channel.overflow with
      | dropNewest | disconnect => exact iff_of_true (h.refused rfl rfl rfl rfl) (.inl (by simp))
      | dropOldest =>
        obtain ⟨gone, kept, hsplit, heq, hroom⟩ :=
          makeRoom_spec s.channel.maxQueueBytes frame.length s.channel.pending
        rw [h.bytes, heq]
        refine Iff.trans (h.queued hsplit ?_ ?_ ?_ ?_ ?_) ?_
        iterate 5 rfl
        obtain hroom | rfl := hroom
        · exact iff_of_true hroom (.inr (by omega))
        · simp [totalBytes]
    rename_i hover
    have hroom : s.channel.queuedBytes + frame.length ≤ s.channel.maxQueueBytes := by
      simpa [overflows, h.limit] using hover
    refine (h.queued (nil_append _).symm hclosed rfl h.bytes rfl rfl).trans ?_
    exact iff_of_true (h.bytes ▸ hroom) (.inr (by omega))

theorem Accounted.step (op : ChannelOp κ) :
    (s.step op).Accounted ↔ s.fits op = true := by
  have hclosing : s.closing.Accounted := by
    rw [closing, close]
    cases s.channel.closed <;> exact { h with }
  cases op with
  | send frame => exact h.send frame
  | drain =>
    refine iff_of_true ⟨h.limit, rfl, Nat.zero_le _, ?_⟩ rfl
    have hframes := h.frames
    simp only [Ledger.step, drain, length_nil]
    omega
  | close | peerGone => exact iff_of_true hclosing rfl
  | onClose callback =>
    rw [Ledger.step, onClose]
    cases s.channel.closed <;> exact iff_of_true { h with } rfl

end

/-- The accounts are right in every state of a run exactly if no frame over the limit is offered
to an open channel that drops its oldest frames. -/
theorem accounted_along_iff {maxQueueBytes : Nat} (hlimit : maxQueueBytes ≠ 0)
    (overflow : SseOverflowPolicy) (run : List (ChannelOp κ)) :
    (∀ before after, run = before ++ after →
      (before.foldl Ledger.step (fresh maxQueueBytes overflow)).Accounted) ↔
        allowed Ledger.step fits (fresh maxQueueBytes overflow) run = true :=
  forall_along_iff_allowed (fun _ op h => h.step op) ⟨hlimit, rfl, Nat.zero_le _, rfl⟩ run

/-- The second frame takes the place of the first. -/
theorem accounted_along_two_sends :
    ((([.send [1], .send [2]] : List (ChannelOp Unit)).foldl Ledger.step
      (fresh 1 .dropOldest)).Accounted) :=
  (accounted_along_iff (by decide) .dropOldest [.send [1], .send [2]]).mpr (by decide) _ [] rfl

/-- A frame larger than the limit is queued. -/
theorem not_accounted_large_frame :
    ¬ (([.send [1, 2]] : List (ChannelOp Unit)).foldl Ledger.step
      (fresh 1 .dropOldest)).Accounted := by
  intro h
  exact absurd h.bound (by decide)

/-! ## The callbacks -/

/-- Every callback has run or waits, and none has run while the channel is open. -/
structure Kept (s : Ledger κ) : Prop where
  all : (s.ran ++ s.channel.closeCallbacks).Perm s.registered
  waits : s.channel.closed = false → s.ran = []

/-- Every callback has run once if the channel is closed, and none has run if it is open. -/
structure Notified (s : Ledger κ) : Prop where
  runs : s.channel.closed = true → s.ran.Perm s.registered
  waits : s.channel.closed = false → s.ran = []

/-- A send does not close a channel for which callbacks wait. -/
def disconnectsNone (s : Ledger κ) : ChannelOp κ → Bool
  | .send frame =>
    s.channel.closed || !s.channel.overflows frame || s.channel.overflow != .disconnect ||
      s.channel.closeCallbacks.isEmpty
  | _ => true

theorem closed_send (c : SseChannel κ) (frame : Bytes) :
    (c.send frame).closed = (c.closed || c.overflows frame && c.overflow == .disconnect) ∧
      (c.send frame).closeCallbacks = c.closeCallbacks := by
  have hpush (c : SseChannel κ) : (c.push frame).closed = c.closed ∧
      (c.push frame).closeCallbacks = c.closeCallbacks := by
    rw [push]
    split <;> exact ⟨rfl, rfl⟩
  rw [send]
  cases hclosed : c.closed with
  | true => simp [hclosed]
  | false =>
    cases hover : c.overflows frame with
    | false => simp [hpush, hclosed]
    | true => cases c.overflow <;> simp [hpush]

theorem Kept.notified_iff (h : s.Kept) :
    s.Notified ↔ s.channel.closed = true → s.channel.closeCallbacks = [] := by
  have hlength := h.all.length_eq
  rw [length_append] at hlength
  constructor
  · intro hn hclosed
    have hran := (hn.runs hclosed).length_eq
    exact eq_nil_of_length_eq_zero (by omega)
  intro hnone
  refine ⟨fun hclosed => ?_, h.waits⟩
  have hall := h.all
  rwa [hnone hclosed, append_nil] at hall

/-- Every operation keeps the account of the callbacks. -/
theorem Kept.step (h : s.Kept) (op : ChannelOp κ) : (s.step op).Kept := by
  have hclosing : s.closing.Kept := by
    rw [closing, close]
    split
    · exact ⟨by simpa using h.all, by simpa using h.waits⟩
    · exact ⟨by simpa using h.all, by simp⟩
  cases op with
  | send frame =>
    obtain ⟨hclosed, hcallbacks⟩ := closed_send s.channel frame
    refine ⟨hcallbacks ▸ h.all, fun hopen => h.waits ?_⟩
    simp only [Ledger.step, hclosed, Bool.or_eq_false_iff] at hopen
    exact hopen.1
  | drain => exact { h with }
  | close | peerGone => exact hclosing
  | onClose callback =>
    rw [Ledger.step, onClose]
    have hall := h.all.append_right [callback]
    split
    · refine ⟨.trans ?_ hall, by simp_all⟩
      rw [append_assoc, append_assoc]
      exact perm_append_comm.append_left s.ran
    · exact ⟨by simpa using hall, by simpa using h.waits⟩

theorem Notified.step (h : s.Notified) (hkept : s.Kept) (op : ChannelOp κ) :
    (s.step op).Notified ↔ s.disconnectsNone op = true := by
  rw [(hkept.step op).notified_iff]
  have hnone := hkept.notified_iff.mp h
  have hclosing : s.closing.channel.closeCallbacks = [] := by
    rw [closing, close]
    split
    · exact hnone (by assumption)
    · rfl
  cases op with
  | send frame =>
    obtain ⟨hclosed, hcallbacks⟩ := closed_send s.channel frame
    simp only [Ledger.step, hclosed, hcallbacks, disconnectsNone]
    cases hc : s.channel.closed with
    | true => simpa using hnone hc
    | false => cases s.channel.overflows frame <;> cases s.channel.overflow <;> simp
  | drain => exact iff_of_true hnone rfl
  | close | peerGone => exact iff_of_true (fun _ => hclosing) rfl
  | onClose callback =>
    refine iff_of_true ?_ rfl
    rw [Ledger.step, onClose]
    split
    · exact hnone
    · simp_all

/-- The callbacks have run as they should in every state of a run exactly if no overflowing send
closes a channel for which callbacks wait. -/
theorem notified_along_iff (maxQueueBytes : Nat) (overflow : SseOverflowPolicy)
    (run : List (ChannelOp κ)) :
    (∀ before after, run = before ++ after →
      (before.foldl Ledger.step (fresh maxQueueBytes overflow)).Notified) ↔
        allowed Ledger.step disconnectsNone (fresh maxQueueBytes overflow) run = true := by
  have hfresh : (fresh maxQueueBytes overflow : Ledger κ).Kept := ⟨.nil, fun _ => rfl⟩
  have hkept (run : List (ChannelOp κ)) :
      (run.foldl Ledger.step (fresh maxQueueBytes overflow)).Kept :=
    List.foldlRecOn run Ledger.step hfresh fun _ h op _ => h.step op
  have hstep (s : Ledger κ) (op : ChannelOp κ) (h : s.Kept ∧ s.Notified) :
      ((s.step op).Kept ∧ (s.step op).Notified) ↔ s.disconnectsNone op = true :=
    (and_iff_right (h.1.step op)).trans (h.2.step h.1 op)
  rw [← forall_along_iff_allowed hstep ⟨hfresh, hfresh.notified_iff.mpr fun _ => rfl⟩ run]
  exact ⟨fun h before after heq => ⟨hkept before, h before after heq⟩,
    fun h before after heq => (h before after heq).2⟩

/-- The send that overflows closes the channel, and the callback has not run. -/
theorem not_notified_disconnect :
    ¬ (([.onClose (), .send [1, 2], .close] : List (ChannelOp Unit)).foldl Ledger.step
      (fresh 1 .disconnect)).Notified := by
  intro h
  exact absurd (h.runs rfl).length_eq (by decide)

end Ledger

end Conflux.Http.Sse
