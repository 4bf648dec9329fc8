import Conflux.Http.H2.Segments
import Conflux.Core.Guarded

/-!
# Conforming clients and the window totals

A ledger keeps what an HTTP/2 client has to keep: the streams it has used, those it may still use,
and the flow-control window of each, which grows with its updates and shrinks with the DATA octets
of the server. It also has the streams that the session has opened and closed, and the sum of the
updates that came while their stream was open.

The walk over the frames compares that sum with the greatest window, and never takes off what
the server has sent. It also rejects frames that cross with the closing of their stream, and
trailers on a stream that the session has not opened yet when a higher one was used.
-/

namespace Conflux.Http.H2

open Conflux.Core List

/-! ## What happens at a connection -/

/-- A step of the client, of the session or of the server. -/
inductive H2Step where
  /-- a frame of the client, in the order of the receive buffers -/
  | frame (f : H2Frame)
  /-- the session has taken a buffer and opens a stream -/
  | opened (id : Nat)
  /-- the session closes a stream -/
  | closed (id : Nat)
  /-- the server sends DATA -/
  | sent (id octets : Nat)
  /-- the client sees that a stream is closed -/
  | seen (id : Nat)
  deriving DecidableEq, Repr

/-- The tracking state after a step; `none` after a rejection. -/
def trackStep (t : Option Tracking) (x : H2Step) : Option Tracking :=
  match t with
  | none => none
  | some t =>
    match x with
    | .frame f =>
      match prevalidateFrame t f with
      | (some _, _) => none
      | (none, t) => some t
    | .opened id => some (t.onStreamOpen id)
    | .closed id => some (t.onStreamClose id)
    | .sent _ _ | .seen _ => some t

/-- The walk accepts every frame. -/
def acceptsAll (steps : List H2Step) : Bool :=
  (steps.foldl trackStep (some {})).isSome

theorem cutFrames_encodeAll (frames : List H2Frame) {rounds : Nat}
    (hrounds : frames.length ≤ rounds) (offset : Nat) :
    cutFrames rounds offset (encodeAll frames) = placed offset frames := by
  induction frames generalizing rounds offset with
  | nil => cases rounds <;> rfl
  | cons f frames ih =>
    obtain ⟨rounds, rfl⟩ : ∃ less, rounds = less + 1 :=
      ⟨rounds - 1, by rw [length_cons] at hrounds; omega⟩
    rw [cutFrames, encodeAll_cons, cutFrame_encode, placed]
    dsimp only
    rw [ih (Nat.le_of_succ_le_succ hrounds)]

theorem length_le_encodeAll (frames : List H2Frame) :
    frames.length ≤ (encodeAll frames).length := by
  induction frames with
  | nil => exact le_refl _
  | cons f frames ih =>
    rw [encodeAll_cons, length_append, encode_length, length_cons]
    omega

/-- A rejection stands. -/
theorem trackStep_rejected (steps : List H2Step) : steps.foldl trackStep none = none := by
  induction steps with
  | nil => rfl
  | cons step steps ih => exact ih

theorem trackStep_walk (t : Tracking) (offset : Nat) (frames : List H2Frame) :
    (frames.map H2Step.frame).foldl trackStep (some t) =
      match walk (placed offset frames) t with
      | (some _, _) => none
      | (none, t) => some t := by
  induction frames generalizing t offset with
  | nil => rfl
  | cons f frames ih =>
    rw [map_cons, foldl_cons, placed, walk, trackStep]
    rcases prevalidateFrame t f with ⟨_ | rejection, t'⟩
    · exact ih t' _
    · exact trackStep_rejected _

/-- A receive buffer of whole frames is walked frame by frame. -/
theorem trackStep_buffer (t : Tracking) (frames : List H2Frame) :
    (frames.map H2Step.frame).foldl trackStep (some t) =
      match h2PrevalidateClientFrames true t (encodeAll frames) with
      | (some _, _) => none
      | (none, t) => some t := by
  have hread : readFrames true 0 (encodeAll frames) = placed 0 frames :=
    cutFrames_encodeAll frames (length_le_encodeAll frames) 0
  rw [h2PrevalidateClientFrames_eq_walk, hread, trackStep_walk]

/-! ## The ledger -/

/-- What a client has to keep, and what the session knows. -/
structure Ledger where
  /-- The initial window that the client has announced. -/
  initialWindow : Nat
  /-- The highest stream the client has used. -/
  lastId : Nat := 0
  /-- The streams of the client that it has not closed or reset or seen closed. -/
  active : List Nat := []
  /-- The streams on which it has sent its last octet. -/
  ended : List Nat := []
  window : Nat → Int := fun _ => 0
  /-- The streams that the session has opened. -/
  opened : List Nat := []
  /-- The streams that the session has closed. -/
  closed : List Nat := []
  /-- The streams that the session has closed or the client has reset. -/
  gone : List Nat := []
  /-- The window updates that came while the stream was open. -/
  credit : Nat → Nat := fun _ => 0

/-- A function changed at one place. -/
def bump {α : Type} (g : Nat → α) (id : Nat) (v : α) : Nat → α :=
  fun other => if other = id then v else g other

/-- The stream may have updates counted: it is open at the session. -/
def Ledger.isOpen (l : Ledger) (id : Nat) : Bool :=
  l.opened.contains id && !l.closed.contains id

/-- A window update of a stream. -/
def H2Frame.isWindowUpdate (f : H2Frame) : Bool :=
  f.type == typeWindowUpdate && f.streamId != 0

/-- A frame with the flag for the end of the stream. -/
def H2Frame.endStream (f : H2Frame) : Bool := f.flags.toNat % 2 == 1

namespace Ledger

/-- A frame of the client. -/
def onFrame (l : Ledger) (f : H2Frame) : Ledger :=
  if f.type = typeHeaders then
    let l := if l.lastId < f.streamId then
        { l with
          lastId := f.streamId
          active := f.streamId :: l.active
          window := bump l.window f.streamId l.initialWindow }
      else l
    if f.endStream then { l with ended := f.streamId :: l.ended } else l
  else if f.type = typeData then
    if f.endStream then { l with ended := f.streamId :: l.ended } else l
  else if f.type = typeRstStream then
    { l with
      active := l.active.filter fun other => other != f.streamId
      gone := f.streamId :: l.gone }
  else if f.isWindowUpdate then
    { l with
      window := bump l.window f.streamId (l.window f.streamId + payload31 f.payload)
      credit := if l.isOpen f.streamId then
          bump l.credit f.streamId (l.credit f.streamId + payload31 f.payload)
        else l.credit }
  else l

/-- The ledger after one step. -/
def step (l : Ledger) : H2Step → Ledger
  | .frame f => l.onFrame f
  | .opened id => { l with opened := id :: l.opened }
  | .closed id => { l with closed := id :: l.closed, gone := id :: l.gone }
  | .sent id octets => { l with window := bump l.window id (l.window id - octets) }
  | .seen id => { l with active := l.active.filter fun other => other != id }

/-- The frame is one that the protocol lets the client send. -/
def conforms (l : Ledger) : H2Step → Bool
  | .frame f =>
    let id := f.streamId
    let sending := l.active.contains id && !l.ended.contains id
    if f.type = typeData then sending
    else if f.type = typeHeaders then sending || (id % 2 == 1 && l.lastId < id)
    else if f.type = typePriority then
      id != 0 && f.payload.length == 5 && payload31 f.payload != id
    else if f.type = typeRstStream then l.active.contains id
    else if f.isWindowUpdate then
      f.payload.length == 4 && 0 < payload31 f.payload && l.active.contains id &&
        l.window id + payload31 f.payload ≤ 2 ^ 31 - 1
    else true
  | _ => true

/-- The session opens and closes only streams that were used, and none again. -/
def orderly (l : Ledger) : H2Step → Bool
  | .opened id => id ≤ l.lastId && !l.closed.contains id
  | .closed id => id ≤ l.lastId
  | _ => true

/-- The updates of an open stream sum up to at most the greatest window. -/
def withinSum (l : Ledger) (f : H2Frame) : Bool :=
  !l.isOpen f.streamId || l.credit f.streamId + payload31 f.payload ≤ 2 ^ 31 - 1

/-- The stream is not known to be closed: it never was, or 256 higher ones were closed too. -/
def mayCome (l : Ledger) (f : H2Frame) : Bool := !recalled l.gone f.streamId

/-- The frames of a conforming client that the walk puts up with: DATA and HEADERS on no stream
known to be closed, HEADERS on a used stream only if it is open at the session or the highest one,
and updates that sum up to at most the greatest window. -/
def tolerated (l : Ledger) : H2Step → Bool
  | .frame f =>
    if f.type = typeData then l.mayCome f
    else if f.type = typeHeaders then
      l.lastId < f.streamId || (l.mayCome f && (l.isOpen f.streamId || f.streamId == l.lastId))
    else !f.isWindowUpdate || l.withinSum f
  | _ => true

end Ledger

/-! ## What the walk does with a kind of frame -/

variable {t : Tracking} {l : Ledger} {f : H2Frame}

theorem prevalidateFrame_data (h : f.type = typeData) (hid : f.streamId ≠ 0) :
    prevalidateFrame t f = (checkData t f, t) := by
  simp [prevalidateFrame_eq, H2Frame.kind, h, hid, typeData, typePriority, typeRstStream,
    typeWindowUpdate]

theorem prevalidateFrame_headers (h : f.type = typeHeaders) (hid : f.streamId ≠ 0) :
    prevalidateFrame t f = checkHeaders t f := by
  simp [prevalidateFrame_eq, H2Frame.kind, h, hid, typeData, typeHeaders, typePriority,
    typeRstStream, typeWindowUpdate]

theorem prevalidateFrame_priority (h : f.type = typePriority) (hok : checkPriority f = none) :
    prevalidateFrame t f = (none, t) := by
  simp [prevalidateFrame_eq, H2Frame.kind, h, hok]

theorem prevalidateFrame_rstStream (h : f.type = typeRstStream) (hid : f.streamId ≠ 0) :
    prevalidateFrame t f = (none, noteReset t f) := by
  simp [prevalidateFrame_eq, H2Frame.kind, h, hid, typePriority, typeRstStream]

theorem prevalidateFrame_windowUpdate (h : f.type = typeWindowUpdate) (hid : f.streamId ≠ 0)
    (hlen : f.payload.length = 4) : prevalidateFrame t f = checkWindow t f := by
  simp [prevalidateFrame_eq, H2Frame.kind, h, hid, hlen, typePriority, typeRstStream,
    typeWindowUpdate]

theorem prevalidateFrame_other (hdata : f.type ≠ typeData) (hheaders : f.type ≠ typeHeaders)
    (hpriority : f.type ≠ typePriority) (hreset : f.type ≠ typeRstStream)
    (hupdate : f.isWindowUpdate = false) : prevalidateFrame t f = (none, t) := by
  have hboth : (decide (f.type = typeWindowUpdate) && f.streamId != 0) = false := hupdate
  simp [prevalidateFrame, hdata, hheaders, hpriority, hreset, hboth]

/-! ## Totals -/

variable {id : Nat}

/-- The total of the updates of a stream. -/
def Tracking.total (t : Tracking) (id : Nat) : Nat :=
  (assocFind id t.streamWindowUpdates).getD 0

/-- A stream whose updates are erased has none, the others keep theirs. -/
theorem getD_erased (id other : Nat) (entries : List (Nat × Nat)) :
    (assocFind other (entries.filter fun entry => entry.1 != id)).getD 0 =
      if other = id then 0 else (assocFind other entries).getD 0 := by
  by_cases h : other = id
  · rw [if_pos h, h, assocFind_filter_self]
    rfl
  · rw [if_neg h, assocFind_filter_of_ne h]

/-- A new total of a stream. -/
def Tracking.store (t : Tracking) (id total : Nat) : Tracking :=
  { t with streamWindowUpdates := assocUpdate id 0 (fun _ => total) t.streamWindowUpdates }

theorem total_store (t : Tracking) (id total other : Nat) :
    (t.store id total).total other = if other = id then total else t.total other := by
  rw [Tracking.total, Tracking.store, assocFind_assocUpdate]
  by_cases h : other = id
  · rw [if_pos h, if_pos h.symm]
    rfl
  · rw [if_neg h, if_neg (Ne.symm h)]
    rfl

/-- The check of an update of an open stream. -/
theorem checkWindow_open {f : H2Frame} {t : Tracking} (hclosed : f.streamId ∉ t.closedStreams)
    (hstream : f.streamId ∈ t.streams) :
    checkWindow t f =
      if 2 ^ 31 - 1 - t.total f.streamId < payload31 f.payload then
        (some (.rstStream f.streamId .flowControlError), t.store f.streamId (t.total f.streamId))
      else (none, t.store f.streamId (t.total f.streamId + payload31 f.payload)) := by
  rw [checkWindow, if_neg (by simp [hclosed, hstream])]
  rfl

/-! ## Tracking follows the ledger -/

/-- What the tracking state has of the ledger of a conforming client. -/
structure Follows (t : Tracking) (l : Ledger) : Prop where
  streams : ∀ id, id ∈ t.streams ↔ l.isOpen id = true
  recalls : Recalls t.closedStreams l.gone
  gone : ∀ id ∈ l.gone, id ≤ l.lastId ∧ (id ∈ l.closed ∨ id ∉ l.active)
  activeUsed : ∀ id ∈ l.active, 0 < id ∧ id ≤ l.lastId
  openedUsed : ∀ id ∈ l.opened, id ≤ l.lastId
  fresh : ∀ id, id ∉ l.opened → t.total id = 0 ∧ l.credit id = 0
  total : ∀ id ∈ l.active, l.isOpen id = true → t.total id = l.credit id
  highest : t.maxClientStreamId = l.lastId

open Ledger

theorem isOpen_iff : l.isOpen id = true ↔ id ∈ l.opened ∧ id ∉ l.closed := by
  simp [isOpen]

section

variable (h : Follows t l)
include h

/-- An open stream of the client is not taken for a closed one. -/
theorem Follows.not_closed (hactive : id ∈ l.active) (hopen : l.isOpen id = true) :
    id ∉ t.closedStreams := by
  intro hmem
  obtain ⟨-, hclosed | hnot⟩ := h.gone id (h.recalls.noted id hmem)
  · exact (isOpen_iff.mp hopen).2 hclosed
  · exact hnot hactive

theorem Follows.opened (hok : l.orderly (.opened id) = true) :
    Follows (t.onStreamOpen id) (l.step (.opened id)) := by
  rw [orderly, Bool.and_eq_true, decide_eq_true_iff] at hok
  obtain ⟨hused, hnot⟩ := hok
  have hnot : id ∉ l.closed := by simpa using hnot
  have hopen (other : Nat) : (l.step (.opened id)).isOpen other = true ↔
      other = id ∨ l.isOpen other = true := by
    rw [isOpen_iff, isOpen_iff]
    constructor
    · rintro ⟨hmem, hclosed⟩
      obtain rfl | hmem := mem_cons.mp hmem
      · exact .inl rfl
      · exact .inr ⟨hmem, hclosed⟩
    · rintro (rfl | ⟨hmem, hclosed⟩)
      · exact ⟨mem_cons_self, hnot⟩
      · exact ⟨mem_cons_of_mem _ hmem, hclosed⟩
  refine { h with streams := ?_, openedUsed := ?_, fresh := ?_, total := ?_ }
  · intro other
    rw [hopen, ← h.streams]
    exact mem_insertId
  · intro other hmem
    obtain rfl | hmem := mem_cons.mp hmem
    · exact hused
    · exact h.openedUsed other hmem
  · intro other hother
    exact h.fresh other fun hmem => hother (mem_cons_of_mem _ hmem)
  intro other hactive hother
  by_cases hbefore : l.isOpen other = true
  · exact h.total other hactive hbefore
  obtain rfl | hother := (hopen other).mp hother
  · have hfresh : other ∉ l.opened := fun hmem => hbefore (isOpen_iff.mpr ⟨hmem, hnot⟩)
    have hzero := h.fresh other hfresh
    exact hzero.1.trans hzero.2.symm
  · exact absurd hother hbefore

/-- A stream that is closed or not used any more may be forgotten. -/
theorem Follows.forget (hused : id ≤ l.lastId) (hgone : id ∈ l.closed ∨ id ∉ l.active) :
    Follows { t with
      closedStreams := Tracking.rememberClosed t.closedStreams id
      streamWindowUpdates := t.streamWindowUpdates.filter fun entry => entry.1 != id }
      { l with gone := id :: l.gone } := by
  refine { h with recalls := h.recalls.insert id, gone := ?_, fresh := ?_, total := ?_ }
  · intro other hmem
    obtain rfl | hmem := mem_cons.mp hmem
    · exact ⟨hused, hgone⟩
    · exact h.gone other hmem
  · intro other hother
    have hzero := h.fresh other hother
    refine ⟨(getD_erased id other t.streamWindowUpdates).trans ?_, hzero.2⟩
    exact (ite_congr rfl (fun _ => rfl) fun _ => hzero.1).trans (ite_self 0)
  intro other hactive hopen
  have hne : other ≠ id := by
    rintro rfl
    exact hgone.elim (isOpen_iff.mp hopen).2 fun hnot => hnot hactive
  refine (getD_erased id other t.streamWindowUpdates).trans ?_
  rw [if_neg hne]
  exact h.total other hactive hopen

theorem Follows.closed (hok : l.orderly (.closed id) = true) :
    Follows (t.onStreamClose id) (l.step (.closed id)) := by
  rw [orderly, decide_eq_true_iff] at hok
  have hopen (other : Nat) : isOpen { l with closed := id :: l.closed } other = true ↔
      l.isOpen other = true ∧ other ≠ id := by
    rw [isOpen_iff, isOpen_iff]
    simp only [mem_cons, not_or]
    exact ⟨fun ⟨ho, hne, hc⟩ => ⟨⟨ho, hc⟩, hne⟩, fun ⟨⟨ho, hc⟩, hne⟩ => ⟨ho, hne, hc⟩⟩
  have hnext : Follows { t with streams := t.streams.filter fun other => other != id }
      { l with closed := id :: l.closed } := by
    refine { h with streams := ?_, gone := ?_, total := ?_ }
    · intro other
      rw [hopen, ← h.streams]
      simp
    · intro other hmem
      obtain ⟨hused, hclosed | hnot⟩ := h.gone other hmem
      · exact ⟨hused, .inl (mem_cons_of_mem _ hclosed)⟩
      · exact ⟨hused, .inr hnot⟩
    · exact fun other hactive hother => h.total other hactive ((hopen other).mp hother).1
  exact hnext.forget hok (.inl mem_cons_self)

theorem Follows.seen (id : Nat) : Follows t (l.step (.seen id)) := by
  have hsub {other : Nat} (hmem : other ∈ (l.step (.seen id)).active) : other ∈ l.active :=
    (mem_filter.mp hmem).1
  refine { h with gone := ?_, activeUsed := ?_, total := ?_ }
  · intro other hmem
    obtain ⟨hused, hclosed | hnot⟩ := h.gone other hmem
    · exact ⟨hused, .inl hclosed⟩
    · exact ⟨hused, .inr fun hactive => hnot (hsub hactive)⟩
  · exact fun other hmem => h.activeUsed other (hsub hmem)
  · exact fun other hmem => h.total other (hsub hmem)

end

/-! ## The frames of a conforming client -/

theorem isWindowUpdate_of_ne (h : f.type ≠ typeWindowUpdate) : f.isWindowUpdate = false := by
  rw [H2Frame.isWindowUpdate, beq_eq_false_iff_ne.mpr h, Bool.false_and]

/-- The walk decides a step as the ledger says: a tolerated frame is accepted and the tracking
state goes on to follow the ledger, any other is rejected. -/
def Decided (t : Tracking) (l : Ledger) (f : H2Frame) : Prop :=
  (l.tolerated (.frame f) = true ∧
      ∃ t', prevalidateFrame t f = (none, t') ∧ Follows t' (l.onFrame f)) ∨
    (l.tolerated (.frame f) = false ∧ ∃ r t', prevalidateFrame t f = (some r, t'))

section

variable (h : Follows t l)
include h

/-- The walk finds a stream closed unless a frame may come on it. -/
theorem Follows.mayCome_iff : l.mayCome f = true ↔ f.streamId ∉ t.closedStreams := by
  rw [mayCome, h.recalls.mem_iff]
  simp

theorem Follows.not_mayCome (hclosed : f.streamId ∈ t.closedStreams) : l.mayCome f = false := by
  rw [← Bool.not_eq_true, h.mayCome_iff, not_not]
  exact hclosed

/-- Only the ends of streams are noted. -/
theorem Follows.end (ended : List Nat) : Follows t { l with ended := ended } :=
  { h with }

theorem Follows.data (htype : f.type = typeData) (hconf : l.conforms (.frame f) = true) :
    Decided t l f := by
  simp only [conforms, if_pos htype, Bool.and_eq_true, contains_iff_mem] at hconf
  have hpos := (h.activeUsed f.streamId hconf.1).1
  have hne : f.type ≠ typeHeaders := by rw [htype]; decide
  have htolerated : l.tolerated (.frame f) = l.mayCome f := if_pos htype
  rw [Decided, htolerated, prevalidateFrame_data htype (by omega), checkData]
  by_cases hclosed : f.streamId ∈ t.closedStreams
  · rw [if_pos hclosed]
    exact .inr ⟨h.not_mayCome hclosed, _, t, rfl⟩
  rw [if_neg hclosed]
  refine .inl ⟨h.mayCome_iff.mpr hclosed, t, rfl, ?_⟩
  rw [onFrame, if_neg hne, if_pos htype]
  split
  · exact h.end _
  · exact h

/-- The headers of a new stream. -/
theorem Follows.newStream (htype : f.type = typeHeaders)
    (hodd : f.streamId % 2 = 1) (hnew : l.lastId < f.streamId) :
    ∃ t', prevalidateFrame t f = (none, t') ∧ Follows t' (l.onFrame f) := by
  have hclosed : f.streamId ∉ t.closedStreams := fun hmem =>
    absurd (h.gone _ (h.recalls.noted _ hmem)).1 (Nat.not_le.mpr hnew)
  have hopened : f.streamId ∉ l.opened := fun hmem =>
    absurd (h.openedUsed _ hmem) (Nat.not_le.mpr hnew)
  have hstream : f.streamId ∉ t.streams := fun hmem =>
    hopened (isOpen_iff.mp ((h.streams _).mp hmem)).1
  have hle := h.highest
  have hcheck : prevalidateFrame t f =
      (none, { t with maxClientStreamId := max t.maxClientStreamId f.streamId }) := by
    rw [prevalidateFrame_headers htype (by omega), checkHeaders, if_neg hclosed, if_neg hstream,
      if_neg (by omega), if_pos (by omega)]
  refine ⟨_, hcheck, ?_⟩
  have hfollows : Follows { t with maxClientStreamId := max t.maxClientStreamId f.streamId }
      { l with
        lastId := f.streamId
        active := f.streamId :: l.active
        window := bump l.window f.streamId l.initialWindow } := by
    refine { h with gone := ?_, activeUsed := ?_, openedUsed := ?_, total := ?_,
                    highest := ?_ }
    · intro id hmem
      obtain ⟨hused, hclosed | hnot⟩ := h.gone id hmem
      · exact ⟨by dsimp only; omega, .inl hclosed⟩
      refine ⟨by dsimp only; omega, .inr fun hactive => ?_⟩
      obtain rfl | hactive := mem_cons.mp hactive
      · omega
      · exact hnot hactive
    · intro id hmem
      obtain rfl | hmem := mem_cons.mp hmem
      · exact ⟨by omega, Nat.le_refl _⟩
      · have hused := h.activeUsed id hmem
        exact ⟨hused.1, by dsimp only; omega⟩
    · intro id hmem
      have hused := h.openedUsed id hmem
      dsimp only
      omega
    · intro id hmem hopen
      obtain rfl | hmem := mem_cons.mp hmem
      · exact absurd (isOpen_iff.mp hopen).1 hopened
      · exact h.total id hmem hopen
    · dsimp only
      omega
  rw [onFrame, if_pos htype, if_pos hnew]
  split
  · exact hfollows.end _
  · exact hfollows

/-- Headers on a stream that the client has used: its trailers. -/
theorem Follows.trailers (htype : f.type = typeHeaders) (hactive : f.streamId ∈ l.active) :
    Decided t l f := by
  have hne : f.type ≠ typeData := by rw [htype]; decide
  have hused := h.activeUsed f.streamId hactive
  have hold : ¬ l.lastId < f.streamId := by omega
  have hhighest := h.highest
  have htolerated : l.tolerated (.frame f) =
      (l.mayCome f && (l.isOpen f.streamId || f.streamId == l.lastId)) := by
    simp only [tolerated, if_neg hne, if_pos htype, hold, decide_false, Bool.false_or]
  have hfollows : Follows t (l.onFrame f) := by
    rw [onFrame, if_pos htype, if_neg hold]
    split
    · exact h.end _
    · exact h
  rw [Decided, htolerated, prevalidateFrame_headers htype (by omega)]
  by_cases hclosed : f.streamId ∈ t.closedStreams
  · rw [h.not_mayCome hclosed, checkHeaders, if_pos hclosed]
    exact .inr ⟨rfl, _, _, rfl⟩
  rw [h.mayCome_iff.mpr hclosed, Bool.true_and]
  by_cases hopen : f.streamId ∈ t.streams
  · rw [(h.streams _).mp hopen, checkHeaders, if_neg hclosed, if_pos hopen]
    exact .inl ⟨rfl, t, rfl, hfollows⟩
  have hunopened := hopen
  rw [h.streams, Bool.not_eq_true] at hunopened
  rw [hunopened, Bool.false_or]
  by_cases hlast : f.streamId = l.lastId
  · rw [checkHeaders_highest (by omega), if_neg hclosed]
    exact .inl ⟨beq_iff_eq.mpr hlast, t, rfl, hfollows⟩
  · rw [checkHeaders, if_neg hclosed, if_neg hopen, if_pos (by omega)]
    exact .inr ⟨beq_eq_false_iff_ne.mpr hlast, _, _, rfl⟩

theorem Follows.headers (htype : f.type = typeHeaders) (hconf : l.conforms (.frame f) = true) :
    Decided t l f := by
  have hne : f.type ≠ typeData := by rw [htype]; decide
  simp only [conforms, if_neg hne, if_pos htype, Bool.or_eq_true, Bool.and_eq_true,
    contains_iff_mem, beq_iff_eq, decide_eq_true_iff] at hconf
  obtain ⟨hactive, -⟩ | ⟨hodd, hnew⟩ := hconf
  · exact h.trailers htype hactive
  · have htolerated : l.tolerated (.frame f) = true := by
      simp [tolerated, if_neg hne, if_pos htype, hnew]
    exact .inl ⟨htolerated, h.newStream htype hodd hnew⟩

theorem Follows.priority (htype : f.type = typePriority) (hconf : l.conforms (.frame f) = true) :
    prevalidateFrame t f = (none, t) ∧ Follows t (l.onFrame f) := by
  have hok : checkPriority f = none := by
    have hdata : f.type ≠ typeData := by rw [htype]; decide
    have hheaders : f.type ≠ typeHeaders := by rw [htype]; decide
    simp only [conforms, if_neg hdata, if_neg hheaders, if_pos htype, Bool.and_eq_true,
      bne_iff_ne, beq_iff_eq] at hconf
    obtain ⟨⟨hid, hlen⟩, hdependency⟩ := hconf
    simp [checkPriority, hid, hlen, hdependency]
  refine ⟨prevalidateFrame_priority htype hok, ?_⟩
  have hkeep : l.onFrame f = l := by
    have hupdate : f.isWindowUpdate = false := isWindowUpdate_of_ne (by rw [htype]; decide)
    simp [onFrame, htype, hupdate, typeHeaders, typeData, typePriority, typeRstStream]
  rw [hkeep]
  exact h

theorem Follows.rstStream (htype : f.type = typeRstStream) (hconf : l.conforms (.frame f) = true) :
    prevalidateFrame t f = (none, noteReset t f) ∧ Follows (noteReset t f) (l.onFrame f) := by
  have hactive : f.streamId ∈ l.active := by
    simpa [conforms, htype, typeData, typeHeaders, typePriority, typeRstStream] using hconf
  have hused := h.activeUsed f.streamId hactive
  have hledger : l.onFrame f =
      { l with
        active := l.active.filter fun other => other != f.streamId
        gone := f.streamId :: l.gone } := by
    simp [onFrame, htype, typeHeaders, typeData, typeRstStream]
  refine ⟨prevalidateFrame_rstStream htype (by omega), ?_⟩
  rw [hledger]
  exact (h.seen f.streamId).forget hused.2 (.inr (by simp [step]))

/-- A window update is accepted if the sum of the updates is within the greatest window. -/
theorem Follows.windowUpdate (hupdate : f.isWindowUpdate = true)
    (hconf : l.conforms (.frame f) = true) : Decided t l f := by
  have htype : f.type = typeWindowUpdate ∧ f.streamId ≠ 0 := by
    simpa [H2Frame.isWindowUpdate] using hupdate
  have hconf : (f.payload.length = 4 ∧ 0 < payload31 f.payload) ∧ f.streamId ∈ l.active := by
    simp only [conforms, htype.1, hupdate, typeData, typeHeaders, typePriority,
      typeRstStream, typeWindowUpdate] at hconf
    simp at hconf
    exact hconf.1
  obtain ⟨⟨hlen, hpos⟩, hactive⟩ := hconf
  have hledger : l.onFrame f =
      { l with
        window := bump l.window f.streamId (l.window f.streamId + payload31 f.payload)
        credit := if l.isOpen f.streamId then
            bump l.credit f.streamId (l.credit f.streamId + payload31 f.payload)
          else l.credit } := by
    simp [onFrame, htype.1, hupdate, typeHeaders, typeData, typeRstStream, typeWindowUpdate]
  have htolerated : l.tolerated (.frame f) = l.withinSum f := by
    simp [tolerated, htype.1, hupdate, typeHeaders, typeData, typeWindowUpdate]
  rw [Decided, htolerated, prevalidateFrame_windowUpdate htype.1 htype.2 hlen, hledger, withinSum]
  cases hopen : l.isOpen f.streamId with
  | false =>
    -- the update of a stream that is not open is passed over
    have hstream : f.streamId ∉ t.streams := by
      rw [h.streams, hopen]
      exact Bool.false_ne_true
    exact .inl ⟨rfl, t, by simp [checkWindow, hstream], { h with }⟩
  | true =>
    have hstream := (h.streams f.streamId).mpr hopen
    have hclosed := h.not_closed hactive hopen
    have htotal := h.total f.streamId hactive hopen
    rw [checkWindow_open hclosed hstream, Bool.not_true, Bool.false_or]
    by_cases hover : 2 ^ 31 - 1 - t.total f.streamId < payload31 f.payload
    · rw [if_pos hover]
      exact .inr ⟨decide_eq_false (by omega), _, _, rfl⟩
    rw [if_neg hover, if_pos rfl]
    refine .inl ⟨decide_eq_true (by omega), _, rfl, ?_⟩
    refine { h with fresh := ?_, total := ?_ }
    · intro id hid
      have hne : id ≠ f.streamId := by
        rintro rfl
        exact hid (isOpen_iff.mp hopen).1
      dsimp only [bump]
      rw [total_store, if_neg hne, if_neg hne]
      exact h.fresh id hid
    intro id hmem hopen'
    dsimp only [bump]
    rw [total_store]
    by_cases hne : id = f.streamId
    · rw [if_pos hne, if_pos hne, htotal]
    · rw [if_neg hne, if_neg hne]
      exact h.total id hmem hopen'

/-- A frame of a conforming client is accepted exactly if it is put up with. -/
theorem Follows.frame (hconf : l.conforms (.frame f) = true) : Decided t l f := by
  cases hupdate : f.isWindowUpdate with
  | true => exact h.windowUpdate hupdate hconf
  | false =>
    by_cases hdata : f.type = typeData
    · exact h.data hdata hconf
    by_cases hheaders : f.type = typeHeaders
    · exact h.headers hheaders hconf
    have htolerated : l.tolerated (.frame f) = true := by
      simp [tolerated, hdata, hheaders, hupdate]
    refine .inl ⟨htolerated, ?_⟩
    by_cases hpriority : f.type = typePriority
    · exact ⟨t, h.priority hpriority hconf⟩
    by_cases hreset : f.type = typeRstStream
    · exact ⟨_, h.rstStream hreset hconf⟩
    refine ⟨t, prevalidateFrame_other hdata hheaders hpriority hreset hupdate, ?_⟩
    have hkeep : l.onFrame f = l := by
      simp [onFrame, hdata, hheaders, hreset, hupdate]
    rw [hkeep]
    exact h

end

/-! ## Runs -/

/-- The ledger of a connection on which nothing has happened. -/
def Ledger.fresh (initialWindow : Nat) : Ledger := { initialWindow := initialWindow }

theorem follows_fresh (initialWindow : Nat) : Follows {} (fresh initialWindow) where
  streams id := by simp [isOpen, fresh]
  recalls := recalls_nil
  gone id h := absurd h not_mem_nil
  activeUsed id h := absurd h not_mem_nil
  openedUsed id h := absurd h not_mem_nil
  fresh id _ := ⟨rfl, rfl⟩
  total id h := absurd h not_mem_nil
  highest := rfl

/-- Along a run of a conforming client the tracking state follows the ledger as long as the frames
are tolerated, and else a frame is rejected. -/
theorem track_run {initialWindow : Nat} {steps : List H2Step}
    (hconf : allowed step conforms (.fresh initialWindow) steps = true)
    (horderly : allowed step orderly (.fresh initialWindow) steps = true) :
    (allowed step tolerated (.fresh initialWindow) steps = true ∧
        ∃ t, steps.foldl trackStep (some {}) = some t ∧
          Follows t (steps.foldl step (.fresh initialWindow))) ∨
      (allowed step tolerated (.fresh initialWindow) steps = false ∧
        steps.foldl trackStep (some {}) = none) := by
  induction steps using reverseRecOn with
  | nil => exact .inl ⟨rfl, {}, rfl, follows_fresh initialWindow⟩
  | append_singleton steps x ih =>
    rw [allowed_concat, Bool.and_eq_true] at hconf horderly
    rw [allowed_concat, foldl_append, foldl_append]
    obtain ⟨hsum, t, ht, hfollows⟩ | ⟨hsum, ht⟩ := ih hconf.1 horderly.1
    · rw [hsum, ht, Bool.true_and]
      generalize steps.foldl step (.fresh initialWindow) = l at *
      cases x with
      | frame f =>
        obtain ⟨hok, t', heq, hnext⟩ | ⟨hno, r, t', heq⟩ := hfollows.frame hconf.2
        · exact .inl ⟨hok, t', by simp [trackStep, heq], hnext⟩
        · exact .inr ⟨hno, by simp [trackStep, heq]⟩
      | opened id => exact .inl ⟨rfl, _, rfl, hfollows.opened horderly.2⟩
      | closed id => exact .inl ⟨rfl, _, rfl, hfollows.closed horderly.2⟩
      | sent id octets => exact .inl ⟨rfl, t, rfl, { hfollows with }⟩
      | seen id => exact .inl ⟨rfl, t, rfl, hfollows.seen id⟩
    · exact .inr ⟨by rw [hsum, Bool.false_and], by rw [ht]; rfl⟩

/-- A conforming client is accepted exactly if its DATA and HEADERS come on no stream that is
known to be closed, its trailers only on a stream that is open at the session or the highest one,
and the window updates of each open stream sum up to at most the greatest window. -/
theorem acceptsAll_iff (initialWindow : Nat) (steps : List H2Step)
    (hconf : allowed Ledger.step Ledger.conforms (.fresh initialWindow) steps = true)
    (horderly : allowed Ledger.step Ledger.orderly (.fresh initialWindow) steps = true) :
    acceptsAll steps = true ↔
      allowed Ledger.step Ledger.tolerated (.fresh initialWindow) steps = true := by
  rw [acceptsAll]
  obtain ⟨hsum, t, ht, -⟩ | ⟨hsum, ht⟩ := track_run hconf horderly
  · rw [hsum, ht]
    exact ⟨fun _ => rfl, fun _ => rfl⟩
  · rw [hsum, ht]
    exact ⟨fun h => absurd h Bool.false_ne_true, fun h => absurd h Bool.false_ne_true⟩

/-- Two requests in one buffer, the second with body and trailers, an update of its window, octets
of the server, and the end of the first stream. -/
def twoRequests : List H2Step :=
  [.frame { type := typeHeaders, flags := 1, id3 := 1 }, .frame { type := typeHeaders, id3 := 3 },
    .frame { type := typeData, id3 := 3, payload := [104, 105] },
    .frame { type := typeHeaders, flags := 1, id3 := 3 }, .opened 1, .opened 3,
    .frame { type := typeWindowUpdate, id3 := 3, payload := [0, 0, 4, 0] }, .sent 3 1000,
    .sent 1 20, .closed 1, .seen 1]

/-- A conforming and orderly client is accepted. -/
theorem acceptsAll_twoRequests :
    allowed Ledger.step Ledger.conforms (.fresh 65535) twoRequests = true ∧
      allowed Ledger.step Ledger.orderly (.fresh 65535) twoRequests = true ∧
      acceptsAll twoRequests = true := by
  have hconf : allowed Ledger.step Ledger.conforms (.fresh 65535) twoRequests = true := by
    decide +kernel
  have horderly : allowed Ledger.step Ledger.orderly (.fresh 65535) twoRequests = true := by
    decide +kernel
  refine ⟨hconf, horderly, ?_⟩
  exact (acceptsAll_iff 65535 twoRequests hconf horderly).mpr (by decide +kernel)

/-- A stream that gives the greatest window twice, the second time when the server has used up the
first. Then a conforming client that ends its body while the server has closed the stream, and one
whose trailers come in the buffer of its headers. -/
theorem acceptsAll_longStream :
    let long : List H2Step :=
      [.frame { type := typeHeaders, id3 := 1 }, .opened 1,
        .frame { type := typeWindowUpdate, id3 := 1, payload := [0x7F, 0xFF, 0, 0] },
        .sent 1 (2 ^ 31 - 1),
        .frame { type := typeWindowUpdate, id3 := 1, payload := [0x7F, 0xFF, 0, 0] }]
    let crossing : List H2Step :=
      [.frame { type := typeHeaders, id3 := 1 }, .opened 1, .closed 1,
        .frame { type := typeData, flags := 1, id3 := 1, payload := [104, 105] }]
    let trailers : List H2Step :=
      [.frame { type := typeHeaders, id3 := 1 }, .frame { type := typeHeaders, id3 := 3 },
        .frame { type := typeHeaders, flags := 1, id3 := 1 }]
    allowed Ledger.step Ledger.conforms (.fresh 65535) long = true ∧ acceptsAll long = false ∧
      allowed Ledger.step Ledger.conforms (.fresh 65535) crossing = true ∧
      acceptsAll crossing = false ∧
      allowed Ledger.step Ledger.conforms (.fresh 65535) trailers = true ∧
      acceptsAll trailers = false := by
  decide +kernel

end Conflux.Http.H2
