import Conflux.Http.WebSocket.Basic
import Conflux.Core.Interleave
import Mathlib.Data.List.Induction

/-!
# Sending on a WebSocket connection

Any number of threads send frames and close the connection. Each section under the send lock
is a step, and so is each operation on the closed flag and the shutdown of the socket for
writing. A write can fail at any time and does so after the shutdown.

Sending does not look at the closed flag, and closing shuts the socket down after it has left
the send lock. So a frame can follow the Close frame.
-/

namespace Conflux.Http.WebSocket

open List

open Conflux.Core (Threads Modular Answered forall_split_concat)

/-- A connection as its senders see it. -/
structure WsConn where
  closed : Bool := false
  /-- The socket is shut down for writing. -/
  shut : Bool := false
  /-- The frames written to the peer. -/
  written : List Frame := []
  deriving DecidableEq, Repr

/-- Where a thread is. -/
inductive SendPc where
  | idle
  /-- the section of a send, of a ping or of a pong -/
  | send (f : Frame)
  /-- `mark_remote_close_noexcept()` -/
  | mark
  /-- the wait of the keep-alive thread is over -/
  | keepalive
  /-- `closed_.test_and_set()` in `close` -/
  | close (f : Frame)
  /-- the section of `close` -/
  | closeSend (f : Frame)
  /-- `shutdown(fd_, SHUT_WR)`; the flag says whether the Close frame went out -/
  | shutdown (sent : Bool)
  deriving DecidableEq, Repr

/-- What a thread between two calls may do. -/
inductive SendRequest where
  | sendText (data : Bytes)
  | sendBinary (data : Bytes)
  | sendPing (data : Bytes)
  /-- a turn of the keep-alive thread -/
  | keepalive
  /-- the reply to a ping that `recv` has read -/
  | pong (payload : Bytes)
  /-- a call of `close`, also by `recv` after a violation of the protocol -/
  | close (code : Nat) (reason : Bytes)
  deriving DecidableEq, Repr

/-- The Close frame of a code and a reason; `none` is the exception for an invalid argument. -/
def closeFrame (code : Nat) (reason : Bytes) : Option Frame :=
  if !isValidCloseCode code then none
  else if 123 < reason.length then none
  else if !utf8IsValid reason then none
  else some ⟨.close, UInt8.ofNat (code / 256) :: UInt8.ofNat (code % 256) :: reason⟩

namespace WsConn

/-- The start of a call. -/
def start : SendRequest → SendPc
  | .sendText data => .send ⟨.text, data⟩
  | .sendBinary data => .send ⟨.binary, data⟩
  | .sendPing data => if 125 < data.length then .idle else .send ⟨.ping, data⟩
  | .keepalive => .keepalive
  | .pong payload => .send ⟨.pong, payload⟩
  | .close code reason =>
    match closeFrame code reason with
    | some f => .close f
    | none => .idle

/-- `do_send_frame`; the flag says whether the transport takes the frame. -/
def doSendFrame (c : WsConn) (takes : Bool) (f : Frame) : Bool × WsConn :=
  if takes && !c.shut then (true, { c with written := c.written ++ [f] }) else (false, c)

/-- The next step of a call. -/
def go (takes : Bool) (c : WsConn) : SendPc → WsConn × SendPc
  | .idle => (c, .idle)
  | .send f =>
    match c.doSendFrame takes f with
    | (true, c) => (c, .idle)
    | (false, c) => (c, .mark)
  | .mark => ({ c with closed := true }, .idle)
  | .keepalive => (c, if c.closed then .idle else .send ⟨.ping, []⟩)
  | .close f => ({ c with closed := true }, if c.closed then .idle else .closeSend f)
  | .closeSend f =>
    match c.doSendFrame takes f with
    | (sent, c) => (c, .shutdown sent)
  | .shutdown _ => ({ c with shut := true }, .idle)

/-- A thread between two calls starts one, another goes on with its call. -/
def step (a : SendRequest × Bool) (c : WsConn) (pc : SendPc) : WsConn × SendPc :=
  match pc with
  | .idle => (c, start a.1)
  | pc => c.go a.2 pc

/-- Threads at an open connection, all of them between two calls. -/
def fresh {ι : Type} : Threads ι WsConn SendPc where
  shared := {}
  pc _ := .idle

end WsConn

/-! ## One Close frame -/

/-- A Close frame was written. -/
def HasClose (frames : List Frame) : Prop :=
  ∃ f ∈ frames, f.opcode = .close

/-- The thread has set the closed flag and not yet shut down the socket. -/
def SendPc.closing : SendPc → Bool
  | .closeSend _ | .shutdown _ => true
  | _ => false

/-- Before the flag is set no Close frame is written. -/
def ConnInv (c : WsConn) : Prop :=
  HasClose c.written → c.closed = true

/-- What a thread knows. -/
def ConnLocal (c : WsConn) : SendPc → Prop
  | .send f => f.opcode ≠ .close
  | .close f => f.opcode = .close
  | .closeSend f => f.opcode = .close ∧ c.closed = true ∧ ¬ HasClose c.written
  | .shutdown sent => c.closed = true ∧ (sent = true → HasClose c.written)
  | _ => True

/-- Only one thread closes. -/
def ConnApart (k k' : SendPc) : Prop :=
  ¬ (k.closing = true ∧ k'.closing = true)

variable {frames : List Frame}

/-- A Close frame stays written. -/
theorem HasClose.concat (h : HasClose frames) (f : Frame) : HasClose (frames ++ [f]) := by
  obtain ⟨g, hg, hclose⟩ := h
  exact ⟨g, mem_append_left _ hg, hclose⟩

/-- Another frame makes no difference. -/
theorem hasClose_concat {f : Frame} (hf : f.opcode ≠ .close) :
    HasClose (frames ++ [f]) ↔ HasClose frames := by
  refine ⟨?_, fun h => h.concat f⟩
  rintro ⟨g, hg, hclose⟩
  obtain hg | hg := mem_append.mp hg
  · exact ⟨g, hg, hclose⟩
  · rw [mem_singleton.mp hg] at hclose
    exact absurd hclose hf

theorem not_hasClose_nil : ¬ HasClose [] := by
  rintro ⟨f, hf, -⟩
  cases hf

open WsConn

/-- The start of a call has its frame. -/
theorem connLocal_start (c : WsConn) (request : SendRequest) :
    ConnLocal c (start request) ∧ (start request).closing = false := by
  cases request with
  | sendText | sendBinary | pong => exact ⟨Opcode.noConfusion, rfl⟩
  | sendPing data =>
    rw [start]
    split
    · exact ⟨trivial, rfl⟩
    · exact ⟨Opcode.noConfusion, rfl⟩
  | keepalive => exact ⟨trivial, rfl⟩
  | close code reason =>
    rw [start]
    split
    · rename_i f hf
      refine ⟨?_, rfl⟩
      unfold closeFrame at hf
      repeat' split at hf
      all_goals cases hf
      rfl
    · exact ⟨trivial, rfl⟩

/-- A frame that is taken comes behind those that were written. -/
theorem doSendFrame_cases (c : WsConn) (takes : Bool) (f : Frame) :
    (takes = true ∧ c.shut = false ∧
        c.doSendFrame takes f = (true, { c with written := c.written ++ [f] })) ∨
      c.doSendFrame takes f = (false, c) := by
  rw [doSendFrame]
  split
  · rename_i htakes
    rw [Bool.and_eq_true, Bool.not_eq_true'] at htakes
    exact .inl ⟨htakes.1, htakes.2, rfl⟩
  · exact .inr rfl

/-- What a step from a place must leave. -/
structure Sends (c : WsConn) (k : SendPc) (r : WsConn × SendPc) : Prop where
  inv : ConnInv r.1
  own : ConnLocal r.1 r.2
  other : ∀ {k'}, ConnLocal c k' → ConnApart k k' → ConnLocal r.1 k'
  apart : ∀ {k'}, ConnLocal c k' → ConnApart k k' → ConnApart r.2 k'

theorem ConnApart.of_not_closing {k k' : SendPc} (h : k.closing = false) : ConnApart k k' := by
  rintro ⟨hk, -⟩
  rw [h] at hk
  cases hk

variable {c : WsConn}

/-- What a thread knows stays when another one writes a frame that is no Close frame. -/
theorem ConnLocal.written {f : Frame} {k : SendPc} (hf : f.opcode ≠ .close) (h : ConnLocal c k) :
    ConnLocal { c with written := c.written ++ [f] } k := by
  cases k with
  | closeSend g => exact ⟨h.1, h.2.1, fun hno => h.2.2 ((hasClose_concat hf).mp hno)⟩
  | shutdown sent => exact ⟨h.1, fun hsent => (h.2 hsent).concat f⟩
  | _ => exact h

/-- What a thread knows stays when another one sets the closed flag. -/
theorem ConnLocal.closed {k : SendPc} (h : ConnLocal c k) :
    ConnLocal { c with closed := true } k := by
  cases k with
  | closeSend g => exact ⟨h.1, rfl, h.2.2⟩
  | shutdown sent => exact ⟨rfl, h.2⟩
  | _ => exact h

/-- The flag is set where a thread is closing. -/
theorem ConnLocal.closed_of_closing {k : SendPc} (h : ConnLocal c k) (hk : k.closing = true) :
    c.closed = true := by
  cases k with
  | closeSend g => exact h.2.1
  | shutdown sent => exact h.1
  | _ => cases hk

/-- Sending a frame keeps the invariant. -/
theorem sends_send {f : Frame} (h : ConnInv c) (hk : ConnLocal c (.send f)) (takes : Bool) :
    Sends c (.send f) (c.go takes (.send f)) := by
  rw [go]
  obtain ⟨-, -, heq⟩ | heq := doSendFrame_cases c takes f
  · rw [heq]
    refine ⟨?_, trivial, fun hk' _ => hk'.written hk, fun _ _ => .of_not_closing rfl⟩
    exact fun hclose => h ((hasClose_concat hk).mp hclose)
  · rw [heq]
    exact ⟨h, trivial, fun hk' _ => hk', fun _ _ => .of_not_closing rfl⟩

/-- Setting the closed flag keeps the invariant, and only one thread goes on to close. -/
theorem sends_close {f : Frame} (h : ConnInv c) (hk : ConnLocal c (.close f)) (takes : Bool) :
    Sends c (.close f) (c.go takes (.close f)) := by
  rw [go]
  refine ⟨fun _ => rfl, ?_, fun hk' _ => hk'.closed, fun hk' _ => ?_⟩
  · split
    · trivial
    · rename_i hopen
      exact ⟨hk, rfl, fun hclose => hopen (h hclose)⟩
  · split
    · exact .of_not_closing rfl
    · rename_i hopen
      exact fun hclosing => hopen (hk'.closed_of_closing hclosing.2)

/-- Sending the Close frame keeps the invariant. -/
theorem sends_closeSend {f : Frame} (hk : ConnLocal c (.closeSend f)) (takes : Bool) :
    Sends c (.closeSend f) (c.go takes (.closeSend f)) := by
  obtain ⟨hf, hclosed, -⟩ := hk
  rw [go]
  obtain ⟨-, -, heq⟩ | heq := doSendFrame_cases c takes f
  · rw [heq]
    refine ⟨fun _ => hclosed, ⟨hclosed, fun _ => ⟨f, by simp, hf⟩⟩, ?_,
      fun _ ha hk' => ha ⟨rfl, hk'.2⟩⟩
    intro k' hk' ha
    cases k' with
    | closeSend | shutdown => exact absurd ⟨rfl, rfl⟩ ha
    | _ => exact hk'
  · rw [heq]
    exact ⟨fun _ => hclosed, ⟨hclosed, Bool.noConfusion⟩, fun hk' _ => hk',
      fun _ ha hk' => ha ⟨rfl, hk'.2⟩⟩

theorem sends_go {k : SendPc} (h : ConnInv c) (hk : ConnLocal c k) (takes : Bool) :
    Sends c k (c.go takes k) := by
  cases k with
  | idle => exact ⟨h, trivial, fun hk' _ => hk', fun _ ha => ha⟩
  | send f => exact sends_send h hk takes
  | mark => exact ⟨fun _ => rfl, trivial, fun hk' _ => hk'.closed, fun _ _ => .of_not_closing rfl⟩
  | keepalive =>
    rw [go]
    split
    · exact ⟨h, trivial, fun hk' _ => hk', fun _ _ => .of_not_closing rfl⟩
    · exact ⟨h, Opcode.noConfusion, fun hk' _ => hk', fun _ _ => .of_not_closing rfl⟩
  | close f => exact sends_close h hk takes
  | closeSend f => exact sends_closeSend hk takes
  | shutdown sent =>
    refine ⟨h, trivial, ?_, fun _ _ => .of_not_closing rfl⟩
    intro k' hk' _
    cases k' with
    | _ => exact hk'

theorem sends_step {k : SendPc} (h : ConnInv c) (hk : ConnLocal c k)
    (a : SendRequest × Bool) : Sends c k (step a c k) := by
  cases k with
  | idle =>
    obtain ⟨hlocal, hclosing⟩ := connLocal_start c a.1
    exact ⟨h, hlocal, fun hk' _ => hk', fun _ _ => .of_not_closing hclosing⟩
  | _ => exact sends_go h hk a.2

theorem modular_send : Modular step ConnInv ConnLocal ConnApart where
  symm h hk := h hk.symm
  own h hk a := ⟨(sends_step h hk a).inv, (sends_step h hk a).own⟩
  other h hk hk' ha a := (sends_step h hk a).other hk' ha
  apart h hk hk' ha a := (sends_step h hk a).apart hk' ha

/-- Until the socket is shut down, the thread that wrote the Close frame is about to do it. -/
theorem answered_close :
    Answered step ConnInv ConnLocal
      (fun c (_ : Unit) => HasClose c.written ∧ c.shut = false)
      (fun k _ => k = .shutdown true) where
  keep {c k} _ hk a _ hneed := by
    cases k with
    | idle => exact .inr ⟨hneed, SendPc.noConfusion⟩
    | send f =>
      revert hneed
      simp only [step, go]
      obtain ⟨-, -, heq⟩ | heq := doSendFrame_cases c a.2 f
      · rw [heq]
        exact fun hneed => .inr ⟨⟨(hasClose_concat hk).mp hneed.1, hneed.2⟩, SendPc.noConfusion⟩
      · rw [heq]
        exact fun hneed => .inr ⟨hneed, SendPc.noConfusion⟩
    | mark | keepalive | close => exact .inr ⟨hneed, SendPc.noConfusion⟩
    | closeSend f =>
      revert hneed
      simp only [step, go]
      obtain ⟨-, -, heq⟩ | heq := doSendFrame_cases c a.2 f
      · rw [heq]
        exact fun _ => .inl rfl
      · rw [heq]
        exact fun hneed => absurd hneed.1 hk.2.2
    | shutdown sent => exact absurd hneed.2 Bool.noConfusion

/-! ## Frames after the Close frame -/

/-- No frame comes after a Close frame, and so there is only one. -/
def EndsWithClose (frames : List Frame) : Prop :=
  ∀ before f after, frames = before ++ f :: after → f.opcode = .close → after = []

theorem endsWithClose_of_not_hasClose (h : ¬ HasClose frames) : EndsWithClose frames := by
  rintro before f after rfl hf
  exact absurd ⟨f, by simp, hf⟩ h

theorem endsWithClose_concat {f : Frame} : EndsWithClose (frames ++ [f]) ↔ ¬ HasClose frames := by
  constructor
  · rintro h ⟨g, hg, hclose⟩
    obtain ⟨before, after, rfl⟩ := append_of_mem hg
    have hnil := h before g (after ++ [f]) (by simp) hclose
    exact concat_ne_nil _ _ hnil
  rintro h before g after heq hclose
  obtain rfl | ⟨after', last, rfl⟩ := after.eq_nil_or_concat'
  · rfl
  rw [← cons_append, ← append_assoc] at heq
  obtain ⟨rfl, -⟩ := append_inj' heq rfl
  exact absurd ⟨g, by simp, hclose⟩ h

variable {ι : Type} [DecidableEq ι]

/-- A thread writes a frame while another is between its Close frame and the shutdown. -/
def LateSend (s : Threads ι WsConn SendPc) (m : ι × SendRequest × Bool) : Prop :=
  (∃ f, s.pc m.1 = .send f) ∧ m.2.2 = true ∧ s.shared.shut = false ∧
    ∃ j, s.pc j = .shutdown true

theorem written_fire (s : Threads ι WsConn SendPc) (m : ι × SendRequest × Bool) :
    (s.fire step m).shared.written = s.shared.written ∧
        ¬ ((∃ f, s.pc m.1 = .send f) ∧ m.2.2 = true ∧ s.shared.shut = false) ∨
      ∃ f, (s.fire step m).shared.written = s.shared.written ++ [f] ∧
        (s.pc m.1 = .send f ∧ m.2.2 = true ∧ s.shared.shut = false ∨ s.pc m.1 = .closeSend f) := by
  have hshared : (s.fire step m).shared = (step m.2 s.shared (s.pc m.1)).1 := rfl
  rw [hshared]
  cases hpc : s.pc m.1 with
  | send f =>
    simp only [step, go]
    obtain ⟨htakes, hshut, heq⟩ | heq := doSendFrame_cases s.shared m.2.2 f
    · rw [heq]
      exact .inr ⟨f, rfl, .inl ⟨rfl, htakes, hshut⟩⟩
    rw [heq]
    refine .inl ⟨rfl, ?_⟩
    rintro ⟨-, htakes, hshut⟩
    rw [doSendFrame, htakes, hshut] at heq
    cases congrArg Prod.fst heq
  | closeSend f =>
    simp only [step, go]
    obtain ⟨-, -, heq⟩ | heq := doSendFrame_cases s.shared m.2.2 f
    · rw [heq]
      exact .inr ⟨f, rfl, .inr rfl⟩
    · rw [heq]
      exact .inl ⟨rfl, by simp⟩
  | _ => exact .inl ⟨rfl, by simp⟩

omit [DecidableEq ι] in
theorem holds_fresh_send :
    (fresh : Threads ι WsConn SendPc).Holds ConnInv ConnLocal ConnApart where
  shared h := absurd h not_hasClose_nil
  each _ := trivial
  apart _ _ _ := .of_not_closing rfl

/-- Once a Close frame is written on an open socket, some thread is about to shut it down. -/
theorem exists_shutdown (moves : List (ι × SendRequest × Bool))
    (hclose : HasClose (fresh.run step moves).shared.written)
    (hshut : (fresh.run step moves).shared.shut = false) :
    ∃ j, (fresh.run step moves).pc j = .shutdown true :=
  answered_close.run modular_send holds_fresh_send
    (fun _ h => absurd h.1 not_hasClose_nil) moves () ⟨hclose, hshut⟩

/-- The frames end with the Close frame in exactly those runs in which no thread writes between a
closing thread's Close frame and its shutdown. -/
theorem endsWithClose_run_iff (moves : List (ι × SendRequest × Bool)) :
    EndsWithClose (WsConn.fresh.run WsConn.step moves).shared.written ↔
      ∀ before m after, moves = before ++ m :: after →
        ¬ LateSend (WsConn.fresh.run WsConn.step before) m := by
  induction moves using List.reverseRecOn with
  | nil =>
    refine ⟨fun _ before m after h => ?_, fun _ => endsWithClose_of_not_hasClose not_hasClose_nil⟩
    simp at h
  | append_singleton moves m ih =>
    rw [forall_split_concat, ← ih, Threads.run_append]
    have hholds := modular_send.run holds_fresh_send moves
    have hshutdown := exists_shutdown moves
    generalize WsConn.fresh.run WsConn.step moves = s at hholds hshutdown ⊢
    change EndsWithClose (s.fire WsConn.step m).shared.written ↔ _
    obtain ⟨heq, hno⟩ | ⟨f, heq, ⟨hpc, htakes, hopen⟩ | hpc⟩ := written_fire s m
    · rw [heq]
      exact ⟨fun h => ⟨h, fun hlate => hno ⟨hlate.1, hlate.2.1, hlate.2.2.1⟩⟩, fun h => h.1⟩
    · rw [heq, endsWithClose_concat]
      refine ⟨fun h => ⟨endsWithClose_of_not_hasClose h, ?_⟩, fun h hclose => ?_⟩
      · rintro ⟨-, -, -, j, hj⟩
        have hlocal := hholds.each j
        rw [hj] at hlocal
        exact h (hlocal.2 rfl)
      · exact h.2 ⟨⟨f, hpc⟩, htakes, hopen, hshutdown hclose hopen⟩
    have hlocal := hholds.each m.1
    rw [hpc] at hlocal
    rw [heq, endsWithClose_concat]
    refine ⟨fun h => ⟨endsWithClose_of_not_hasClose h, ?_⟩, fun _ => hlocal.2.2⟩
    rintro ⟨⟨g, hg⟩, -⟩
    rw [hpc] at hg
    cases hg

/-- A text of another thread goes out after the Close frame. -/
theorem run_textAfterClose :
    let moves : List (Bool × SendRequest × Bool) :=
      [(true, .close 1000 [], true), (true, .keepalive, true), (true, .keepalive, true),
        (false, .sendText [104, 105], true), (false, .keepalive, true), (true, .keepalive, true)]
    (WsConn.fresh.run WsConn.step moves).shared =
        { closed := true, shut := true,
          written := [⟨.close, [3, 232]⟩, ⟨.text, [104, 105]⟩] } ∧
      ¬ EndsWithClose (WsConn.fresh.run WsConn.step moves).shared.written := by
  refine ⟨by decide +kernel, fun h => ?_⟩
  have hafter := h [] ⟨.close, [3, 232]⟩ [⟨.text, [104, 105]⟩] (by decide +kernel) rfl
  cases hafter

end Conflux.Http.WebSocket
