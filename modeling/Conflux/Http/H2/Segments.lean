import Conflux.Http.H2.History

/-!
# Frames in receive buffers

The walk starts anew at the first byte of every receive buffer, and the session changes the
streams only after the whole buffer was walked. A buffer that starts inside a frame is read as if
a frame began there.

The session keeps its own framing state. What it does with a frame is a function of the frames
it has got.
-/

namespace Conflux.Http.H2

open List H2Frame

/-! ## The receive phase -/

/-- The events at the last of the frames that a session has got. -/
abbrev Session := List H2Frame → List StreamEvent

/-- A connection with its session. -/
structure H2Conn where
  tracking : Tracking := {}
  /-- A buffer has started with the client preface. -/
  clientPrefaceSeen : Bool := false
  /-- The session has passed the client preface. -/
  started : Bool := false
  /-- The bytes of an unfinished frame. -/
  pending : Bytes := []
  /-- The whole frames that the session has got. -/
  received : List H2Frame := []
  deriving DecidableEq, Repr

/-- The part of the tracking state that the walk decides on: the open streams are the
session's. -/
def Tracking.kept (t : Tracking) : List Nat × List (Nat × Nat) × Nat :=
  (t.closedStreams, t.streamWindowUpdates, t.maxClientStreamId)

namespace H2Conn

variable (session : Session)

/-- The session gets a frame. -/
def takeFrame (conn : H2Conn) (f : H2Frame) : H2Conn :=
  let received := conn.received ++ [f]
  { conn with
    received := received
    tracking := (session received).foldl Tracking.note conn.tracking }

/-- The session takes the whole frames of its bytes, one each round; the size bounds the rounds. -/
def takeFrames : Nat → H2Conn → H2Conn
  | 0, conn => conn
  | rounds + 1, conn =>
    match cutFrame conn.pending with
    | none => conn
    | some (f, rest) => takeFrames rounds (takeFrame session { conn with pending := rest } f)

/-- `nghttp2_session_mem_recv` -/
def memRecv (conn : H2Conn) (bytes : Bytes) : H2Conn :=
  let conn := { conn with pending := conn.pending ++ bytes }
  let conn :=
    if !conn.started && clientPreface.length ≤ conn.pending.length then
      { conn with started := true, pending := conn.pending.drop clientPreface.length }
    else conn
  if conn.started then takeFrames session conn.pending.length conn else conn

/-- The receive phase for a buffer: the rejection with its offset in the buffer, if any. -/
def receive (conn : H2Conn) (bytes : Bytes) : Option (Nat × Rejection) × H2Conn :=
  let seen := prefaceSeen conn.clientPrefaceSeen bytes
  match h2PrevalidateClientFrames conn.clientPrefaceSeen conn.tracking bytes with
  | (some rejection, t) => (some rejection, { conn with tracking := t, clientPrefaceSeen := seen })
  | (none, t) =>
    (none, memRecv session { conn with tracking := t, clientPrefaceSeen := seen } bytes)

/-- The receive phases up to the first rejection, whose offset counts from the start. -/
def run : Nat → H2Conn → List Bytes → Option (Nat × Rejection) × H2Conn
  | _, conn, [] => (none, conn)
  | base, conn, bytes :: buffers =>
    match receive session conn bytes with
    | (some (offset, rejection), conn) => (some (base + offset, rejection), conn)
    | (none, conn) => run (base + bytes.length) conn buffers

/-- The verdict and the tracking state after these buffers. -/
def outcome (base : Nat) (conn : H2Conn) (buffers : List Bytes) :
    Option (Nat × Rejection) × List Nat × List (Nat × Nat) × Nat :=
  ((run session base conn buffers).1, (run session base conn buffers).2.tracking.kept)

end H2Conn

/-! ## Frames at their places -/

/-- The bytes of frames one after the other. -/
def encodeAll (frames : List H2Frame) : Bytes := frames.flatMap encode

theorem encodeAll_cons (f : H2Frame) (frames : List H2Frame) :
    encodeAll (f :: frames) = f.encode ++ encodeAll frames := rfl

theorem encode_length (f : H2Frame) : f.encode.length = 9 + f.payload.length := by
  simp only [encode, length_append, length_cons, length_nil]

/-- Frames one after the other, each with the offset where it starts. -/
def placed : Nat → List H2Frame → List (Nat × H2Frame)
  | _, [] => []
  | offset, f :: frames => (offset, f) :: placed (offset + f.encode.length) frames

/-- The offset behind a frame. -/
def endOf (place : Nat × H2Frame) : Nat := place.1 + place.2.encode.length

/-- The frames that are read one after the other from some bytes; the size bounds the rounds. -/
def cutFrames : Nat → Nat → Bytes → List (Nat × H2Frame)
  | 0, _, _ => []
  | rounds + 1, offset, bytes =>
    match cutFrame bytes with
    | none => []
    | some (f, rest) => (offset, f) :: cutFrames rounds (offset + f.encode.length) rest

/-- The frames that are read from a buffer, behind the preface if the buffer starts with it. -/
def readFrames (seen : Bool) (base : Nat) (bytes : Bytes) : List (Nat × H2Frame) :=
  if !seen && clientPreface.isPrefixOf bytes then
    cutFrames bytes.length (base + clientPreface.length) (bytes.drop clientPreface.length)
  else cutFrames bytes.length base bytes

/-- The walk over frames at their places. -/
def walk : List (Nat × H2Frame) → Tracking → Option (Nat × Rejection) × Tracking
  | [], t => (none, t)
  | (offset, f) :: frames, t =>
    match prevalidateFrame t f with
    | (some rejection, t) => (some (offset, rejection), t)
    | (none, t) => walk frames t

theorem walkFrames_eq_walk (rounds offset : Nat) (bytes : Bytes) (t : Tracking) :
    walkFrames rounds offset bytes t = walk (cutFrames rounds offset bytes) t := by
  induction rounds generalizing offset bytes t with
  | zero => rfl
  | succ rounds ih =>
    rw [walkFrames, cutFrames]
    cases cutFrame bytes with
    | none => rfl
    | some cut =>
      obtain ⟨f, rest⟩ := cut
      dsimp only
      rw [walk]
      rcases prevalidateFrame t f with ⟨_ | rejection, t'⟩
      · dsimp only
        rw [ih, encode_length, add_assoc]
      · rfl

/-- A buffer is walked over the frames that are read from it. -/
theorem h2PrevalidateClientFrames_eq_walk (seen : Bool) (t : Tracking) (bytes : Bytes) :
    h2PrevalidateClientFrames seen t bytes = walk (readFrames seen 0 bytes) t := by
  rw [h2PrevalidateClientFrames, readFrames]
  split
  · rw [walkFrames_eq_walk, zero_add]
  · rw [walkFrames_eq_walk]

/-- The events at several frames. -/
def eventsAt (session : Session) : List H2Frame → List (Nat × H2Frame) → List StreamEvent
  | _, [] => []
  | received, (_, f) :: frames =>
    session (received ++ [f]) ++ eventsAt session (received ++ [f]) frames

/-- The history behind several frames. -/
def History.frames (h : History) (frames : List (Nat × H2Frame)) : History :=
  frames.foldl (fun h place => h.frame place.2) h

section

variable {session : Session} {t : Tracking} {h : History}

/-- Accepted frames are recorded. -/
theorem Records.walk (hrec : Records t h) {frames : List (Nat × H2Frame)} {t' : Tracking}
    (hwalk : walk frames t = (none, t')) : Records t' (h.frames frames) := by
  induction frames generalizing t h with
  | nil => exact (Prod.mk.inj hwalk).2 ▸ hrec
  | cons place frames ih =>
    rw [H2.walk] at hwalk
    cases hone : prevalidateFrame t place.2 with
    | mk verdict t'' =>
      rw [hone] at hwalk
      cases verdict with
      | none => exact ih (hrec.frame hone) hwalk
      | some rejection => cases hwalk

end

/-! ## What the session gets -/

theorem cutFrame_of_length_lt {bytes : Bytes} (h : bytes.length < 9) : cutFrame bytes = none := by
  rw [cutFrame.eq_def]
  split
  · simp only [length_cons] at h
    omega
  · rfl

/-- A part of a frame is no whole frame. -/
theorem cutFrame_part {f : H2Frame} {pending rest more : Bytes}
    (hbytes : pending ++ rest = f.encode ++ more) (hshort : pending.length < f.encode.length) :
    cutFrame pending = none := by
  have hpart : pending = f.encode.take pending.length := by
    have htake := congrArg (take pending.length) hbytes
    rwa [take_left, take_append_of_le_length hshort.le] at htake
  by_cases hheader : pending.length < 9
  · exact cutFrame_of_length_lt hheader
  obtain ⟨size, hsize⟩ : ∃ size, pending.length = size + 9 := ⟨pending.length - 9, by omega⟩
  rw [encode_length] at hshort
  rw [hpart, hsize, encode]
  simp only [cons_append, nil_append, take_succ_cons, cutFrame, f.length_of_bytes,
    length_take]
  rw [if_pos (by omega)]

/-- The session has got these frames. -/
structure Took (session : Session) (conn : H2Conn) (done : List (Nat × H2Frame))
    (conn' : H2Conn) : Prop where
  tracking : conn'.tracking =
    (eventsAt session conn.received done).foldl Tracking.note conn.tracking
  received : conn'.received = conn.received ++ done.map Prod.snd
  seen : conn'.clientPrefaceSeen = conn.clientPrefaceSeen

theorem Took.cons {session : Session} {conn conn' : H2Conn} {done : List (Nat × H2Frame)}
    {offset : Nat} {f : H2Frame} {rest : Bytes}
    (h : Took session (H2Conn.takeFrame session { conn with pending := rest } f) done conn') :
    Took session conn ((offset, f) :: done) conn' where
  tracking := by
    rw [eventsAt, foldl_append]
    exact h.tracking
  received := by
    rw [map_cons, append_cons]
    exact h.received
  seen := h.seen

/-- Where a connection stands in a stream of bytes: at an offset, with frames still to come and
these bytes. -/
inductive Stands (conn : H2Conn) (base : Nat) (todo : List (Nat × H2Frame)) (rest : Bytes) : Prop
  /-- inside the client preface -/
  | preface (frames : List H2Frame) (hstarted : conn.started = false)
      (hshort : conn.pending.length < clientPreface.length) (hbase : base = conn.pending.length)
      (htodo : todo = placed clientPreface.length frames)
      (hbytes : conn.pending ++ rest = clientPreface ++ encodeAll frames)
  /-- in the first of the frames -/
  | frame (offset : Nat) (frames : List H2Frame) (hstarted : conn.started = true)
      (hbase : base = offset + conn.pending.length) (htodo : todo = placed offset frames)
      (hbytes : conn.pending ++ rest = encodeAll frames)
      (hnext : ∀ place ∈ todo.head?, base < endOf place)

open H2Conn

variable {session : Session} {conn : H2Conn}

/-- The session takes exactly the frames that end in its bytes. -/
theorem took_takeFrames (frames : List H2Frame) {rounds : Nat}
    (hrounds : conn.pending.length ≤ rounds) (hstarted : conn.started = true) (offset : Nat)
    {rest : Bytes} (hbytes : conn.pending ++ rest = encodeAll frames) {base : Nat}
    (hbase : base = offset + conn.pending.length) :
    Took session conn ((placed offset frames).takeWhile fun place => endOf place ≤ base)
        (conn.takeFrames session rounds) ∧
      Stands (conn.takeFrames session rounds) base
        ((placed offset frames).dropWhile fun place => endOf place ≤ base) rest := by
  induction frames generalizing conn rounds offset with
  | nil =>
    have hpending : conn.pending = [] := (append_eq_nil_iff.mp hbytes).1
    have hstop : conn.takeFrames session rounds = conn := by
      cases rounds with
      | zero => rfl
      | succ rounds => rw [takeFrames, hpending, cutFrame_of_length_lt (by simp)]
    rw [hstop]
    exact ⟨⟨rfl, (append_nil _).symm, rfl⟩,
      .frame offset [] hstarted hbase rfl hbytes (by simp [placed])⟩
  | cons f frames ih =>
    rw [encodeAll_cons] at hbytes
    rw [placed]
    by_cases hends : f.encode.length ≤ conn.pending.length
    · -- the whole frame is there
      obtain ⟨pending, hpending⟩ : ∃ pending, conn.pending = f.encode ++ pending := by
        have hprefix : f.encode <+: conn.pending :=
          prefix_of_prefix_length_le ⟨_, hbytes.symm⟩ (prefix_append _ _) hends
        exact hprefix.imp fun _ h => h.symm
      rw [hpending, append_assoc, append_cancel_left_eq] at hbytes
      rw [hpending, length_append] at hbase hrounds
      have hlength := encode_length f
      obtain ⟨rounds, rfl⟩ : ∃ less, rounds = less + 1 := ⟨rounds - 1, by omega⟩
      have hfits : endOf (offset, f) ≤ base := by simp only [endOf]; omega
      rw [takeFrames, hpending, cutFrame_encode, takeWhile_cons_of_pos (by simpa using hfits),
        dropWhile_cons_of_pos (by simpa using hfits)]
      have hless :
          (takeFrame session { conn with pending := pending } f).pending.length ≤ rounds := by
        simp only [takeFrame]
        omega
      have hnext : base = offset + f.encode.length + pending.length := by omega
      obtain ⟨htook, hstands⟩ := ih hless hstarted (offset + f.encode.length) hbytes hnext
      exact ⟨htook.cons, hstands⟩
    · have hbeyond : ¬ endOf (offset, f) ≤ base := by simp only [endOf]; omega
      have hstop : conn.takeFrames session rounds = conn := by
        cases rounds with
        | zero => rfl
        | succ rounds => rw [takeFrames, cutFrame_part hbytes (by omega)]
      rw [hstop, takeWhile_cons_of_neg (by simpa using hbeyond),
        dropWhile_cons_of_neg (by simpa using hbeyond)]
      refine ⟨⟨rfl, (append_nil _).symm, rfl⟩,
        .frame offset (f :: frames) hstarted hbase rfl hbytes ?_⟩
      rintro place ⟨⟩
      omega

/-- No frame ends before the first one has started. -/
theorem takeWhile_placed {offset base : Nat} (h : base ≤ offset) (frames : List H2Frame) :
    ((placed offset frames).takeWhile fun place => endOf place ≤ base) = [] ∧
      ((placed offset frames).dropWhile fun place => endOf place ≤ base) =
        placed offset frames := by
  cases frames with
  | nil => exact ⟨rfl, rfl⟩
  | cons f frames =>
    have hlength := encode_length f
    have hbeyond : ¬ endOf (offset, f) ≤ base := by simp only [endOf]; omega
    rw [placed, takeWhile_cons_of_neg (by simpa using hbeyond),
      dropWhile_cons_of_neg (by simpa using hbeyond)]
    exact ⟨rfl, rfl⟩

/-- The session takes exactly the frames that end in a buffer. -/
theorem Stands.memRecv {base : Nat} {todo : List (Nat × H2Frame)} {bytes rest : Bytes}
    (h : Stands conn base todo (bytes ++ rest)) (session : Session) :
    Took session conn (todo.takeWhile fun place => endOf place ≤ base + bytes.length)
        (conn.memRecv session bytes) ∧
      Stands (conn.memRecv session bytes) (base + bytes.length)
        (todo.dropWhile fun place => endOf place ≤ base + bytes.length) rest := by
  cases h with
  | frame offset frames hstarted hbase htodo hbytes hnext =>
    subst htodo
    have hrecv : conn.memRecv session bytes =
        takeFrames session (conn.pending ++ bytes).length
          { conn with pending := conn.pending ++ bytes } := by
      simp [H2Conn.memRecv, hstarted]
    rw [hrecv]
    have hbytes : (conn.pending ++ bytes) ++ rest = encodeAll frames := by rwa [append_assoc]
    have hbehind : base + bytes.length = offset + (conn.pending ++ bytes).length := by
      rw [length_append]
      omega
    obtain ⟨htook, hstands⟩ := took_takeFrames frames (le_refl (H2Conn.pending
      { conn with pending := conn.pending ++ bytes }).length) hstarted offset hbytes hbehind
    exact ⟨⟨htook.tracking, htook.received, htook.seen⟩, hstands⟩
  | preface frames hstarted hshort hbase htodo hbytes =>
    subst htodo
    rw [← append_assoc] at hbytes
    by_cases hwhole : clientPreface.length ≤ (conn.pending ++ bytes).length
    · -- the rest of the preface is in the buffer, and perhaps frames
      obtain ⟨pending, hpending⟩ : ∃ pending, conn.pending ++ bytes = clientPreface ++ pending := by
        have hprefix : clientPreface <+: conn.pending ++ bytes :=
          prefix_of_prefix_length_le ⟨_, hbytes.symm⟩ (prefix_append _ _) hwhole
        exact hprefix.imp fun _ h => h.symm
      have hrecv : conn.memRecv session bytes =
          takeFrames session pending.length { conn with started := true, pending := pending } := by
        simp only [H2Conn.memRecv, hstarted, hwhole]
        simp [hpending]
      have hlength := congrArg length hpending
      rw [length_append, length_append] at hlength
      rw [hpending, append_assoc, append_cancel_left_eq] at hbytes
      have hbehind : base + bytes.length = clientPreface.length + pending.length := by omega
      rw [hrecv]
      obtain ⟨htook, hstands⟩ := took_takeFrames frames (le_refl (H2Conn.pending
        { conn with started := true, pending := pending }).length) rfl _ hbytes hbehind
      exact ⟨⟨htook.tracking, htook.received, htook.seen⟩, hstands⟩
    · have hrecv : conn.memRecv session bytes = { conn with pending := conn.pending ++ bytes } := by
        simp only [H2Conn.memRecv, hstarted, hwhole]
        simp
      have hlength : (conn.pending ++ bytes).length = base + bytes.length := by
        rw [length_append, hbase]
      have hnone := takeWhile_placed
        (show base + bytes.length ≤ clientPreface.length by omega) frames
      rw [hrecv, hnone.1, hnone.2]
      exact ⟨⟨rfl, (append_nil _).symm, rfl⟩, .preface frames hstarted (not_le.mp hwhole)
        hlength.symm rfl hbytes⟩

/-! ## Buffers -/

end Conflux.Http.H2
