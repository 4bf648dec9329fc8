import Conflux.Http.H2.Prevalidate
import Mathlib.Data.List.Perm.Subperm

/-!
# What the walk has to know

The walk keeps a set of closed streams that forgets all but 256. A history forgets nothing: the
open streams, every stream that was closed or reset, and the highest stream of the client. The
tracking state of a connection records its history, and what the walk asks about a stream can be
read off the history.
-/

namespace Conflux.Http.H2

open Conflux.Core List

/-! ## Kinds of frames -/

/-- The kinds of frames that the walk tells apart. -/
inductive FrameKind where
  | priority
  /-- RST_STREAM of a stream -/
  | reset
  /-- WINDOW_UPDATE of a stream, with an increment -/
  | update
  | data
  | headers
  /-- a frame that the walk passes over -/
  | other
  deriving DecidableEq, Repr

/-- The kind of a frame. -/
def H2Frame.kind (f : H2Frame) : FrameKind :=
  if f.type = typePriority then .priority
  else if f.streamId = 0 then .other
  else if f.type = typeRstStream then .reset
  else if f.type = typeWindowUpdate then if f.payload.length = 4 then .update else .other
  else if f.type = typeData then .data
  else if f.type = typeHeaders then .headers
  else .other

/-- The check of DATA: it may not come on a closed stream. -/
def checkData (t : Tracking) (f : H2Frame) : Option Rejection :=
  if f.streamId ∈ t.closedStreams then some (.rstStream f.streamId .streamClosed) else none

/-- HEADERS may not come on a closed stream, and a new stream is not below the highest one. -/
def checkHeaders (t : Tracking) (f : H2Frame) : Option Rejection × Tracking :=
  if f.streamId ∈ t.closedStreams then (some (.terminate .streamClosed), t)
  else if f.streamId ∈ t.streams then (none, t)
  else if f.streamId < t.maxClientStreamId then (some (.terminate .protocolError), t)
  else if f.streamId % 2 ≠ 0 then
    (none, { t with maxClientStreamId := max t.maxClientStreamId f.streamId })
  else (none, t)

/-- What the walk does with a frame of each kind. -/
theorem prevalidateFrame_eq (t : Tracking) (f : H2Frame) :
    prevalidateFrame t f =
      match f.kind with
      | .priority => (checkPriority f, t)
      | .reset => (none, noteReset t f)
      | .update => checkWindow t f
      | .data => (checkData t f, t)
      | .headers => checkHeaders t f
      | .other => (none, t) := by
  by_cases hpriority : f.type = typePriority
  · simp only [H2Frame.kind, prevalidateFrame, hpriority, if_true]
    cases checkPriority f <;>
      simp [typePriority, typeRstStream, typeWindowUpdate, typeData, typeHeaders]
  by_cases hid : f.streamId = 0
  · simp [H2Frame.kind, prevalidateFrame, hpriority, hid]
  by_cases hreset : f.type = typeRstStream
  · simp [H2Frame.kind, prevalidateFrame, hid, hreset, typePriority, typeRstStream,
      typeWindowUpdate, typeData, typeHeaders]
  by_cases hupdate : f.type = typeWindowUpdate
  · by_cases hlen : f.payload.length = 4 <;>
      simp [H2Frame.kind, prevalidateFrame, hid, hupdate, hlen, typePriority, typeRstStream,
        typeWindowUpdate, typeData, typeHeaders]
  by_cases hdata : f.type = typeData
  · by_cases hclosed : f.streamId ∈ t.closedStreams <;>
      simp [H2Frame.kind, prevalidateFrame, hid, hdata, checkStream, checkData, hclosed,
        typePriority, typeRstStream, typeWindowUpdate, typeData, typeHeaders]
  by_cases hheaders : f.type = typeHeaders
  · by_cases hclosed : f.streamId ∈ t.closedStreams <;>
      by_cases hstream : f.streamId ∈ t.streams <;>
      simp [H2Frame.kind, prevalidateFrame, hid, hheaders, checkStream, checkHeaders, hclosed,
        hstream, typePriority, typeRstStream, typeWindowUpdate, typeData, typeHeaders]
  simp [H2Frame.kind, prevalidateFrame, hpriority, hreset, hupdate, hdata, hheaders]

/-- On the highest stream it makes no difference whether it is open. -/
theorem checkHeaders_highest {t : Tracking} {f : H2Frame}
    (htop : f.streamId = t.maxClientStreamId) :
    checkHeaders t f =
      if f.streamId ∈ t.closedStreams then (some (.terminate .streamClosed), t) else (none, t) := by
  have hnot : ¬ f.streamId < t.maxClientStreamId := by omega
  simp only [checkHeaders, hnot, if_false, max_eq_left htop.le, ite_self]

/-! ## The closed streams -/

variable {id : Nat} {ids gone : List Nat}

theorem mem_insertId {other : Nat} : other ∈ insertId id ids ↔ other = id ∨ other ∈ ids := by
  induction ids with
  | nil => simp [insertId]
  | cons x ids ih =>
    rw [insertId]
    split
    · simp
    split
    · rename_i heq
      subst heq
      simp
    · simp only [mem_cons, ih]
      exact or_left_comm

/-- An insertion keeps the order. -/
theorem ascending_insertId (h : ids.Pairwise (· < ·)) : (insertId id ids).Pairwise (· < ·) := by
  induction ids with
  | nil => simp [insertId]
  | cons x ids ih =>
    obtain ⟨hx, hids⟩ := pairwise_cons.mp h
    rw [insertId]
    split
    · rename_i hlt
      refine pairwise_cons.mpr ⟨fun other hother => ?_, h⟩
      obtain rfl | hother := mem_cons.mp hother
      · exact hlt
      · exact hlt.trans (hx other hother)
    split
    · exact h
    · refine pairwise_cons.mpr ⟨fun other hother => ?_, ih hids⟩
      obtain rfl | hother := mem_insertId.mp hother
      · omega
      · exact hx other hother

/-- What is in the set is not inserted again. -/
theorem insertId_of_mem (h : ids.Pairwise (· < ·)) (hid : id ∈ ids) : insertId id ids = ids := by
  induction ids with
  | nil => exact absurd hid not_mem_nil
  | cons x ids ih =>
    obtain ⟨hx, hids⟩ := pairwise_cons.mp h
    rw [insertId]
    obtain rfl | hid := mem_cons.mp hid
    · simp
    · have hlt := hx id hid
      rw [if_neg (by omega), if_neg (by omega), ih hids hid]

theorem length_insertId_of_notMem (hid : id ∉ ids) :
    (insertId id ids).length = ids.length + 1 := by
  induction ids with
  | nil => rfl
  | cons x ids ih =>
    rw [mem_cons, not_or] at hid
    rw [insertId]
    split
    · rfl
    · rw [if_neg hid.1, length_cons, ih hid.2, length_cons]

theorem mem_of_mem_rememberClosed {other : Nat}
    (h : other ∈ Tracking.rememberClosed ids id) : other = id ∨ other ∈ ids := by
  rw [Tracking.rememberClosed] at h
  split at h
  · exact mem_insertId.mp (mem_of_mem_tail h)
  · exact mem_insertId.mp h

/-- A set of closed streams and all that were put into it. Those it has forgotten are below all
others, and it is full then. -/
structure Recalls (ids gone : List Nat) : Prop where
  ascending : ids.Pairwise (· < ·)
  few : ids.length ≤ 256
  noted : ∀ id ∈ ids, id ∈ gone
  forgotten : ∀ id ∈ gone, id ∉ ids → ids.length = 256 ∧ ∀ other ∈ ids, id < other

theorem recalls_nil : Recalls [] [] :=
  ⟨.nil, Nat.zero_le _, fun _ h => h, fun _ h => absurd h not_mem_nil⟩

/-- A stream that is put in is recalled with the others, and the least is forgotten. -/
theorem Recalls.insert (h : Recalls ids gone) (id : Nat) :
    Recalls (Tracking.rememberClosed ids id) (id :: gone) := by
  have hgone : ∀ other ∈ insertId id ids, other ∈ id :: gone := fun other hother =>
    (mem_insertId.mp hother).elim (fun heq => heq ▸ mem_cons_self) fun hmem =>
      mem_cons_of_mem _ (h.noted other hmem)
  have hascending : (insertId id ids).Pairwise (· < ·) := ascending_insertId h.ascending
  by_cases hmem : id ∈ ids
  · rw [Tracking.rememberClosed, insertId_of_mem h.ascending hmem, if_neg (by have := h.few; omega)]
    refine ⟨h.ascending, h.few, fun other hother => mem_cons_of_mem _ (h.noted other hother), ?_⟩
    intro other hother hnot
    obtain rfl | hother := mem_cons.mp hother
    · exact absurd hmem hnot
    · exact h.forgotten other hother hnot
  have hlength := length_insertId_of_notMem hmem
  have hfew := h.few
  rw [Tracking.rememberClosed]
  split
  · -- the set was full, and its least stream goes
    obtain ⟨least, rest, heq⟩ : ∃ least rest, insertId id ids = least :: rest :=
      exists_cons_of_ne_nil (by rintro heq; simp [heq] at hlength)
    rw [heq] at hascending hlength hgone ⊢
    rw [length_cons] at hlength
    obtain ⟨hleast, hrest⟩ := pairwise_cons.mp hascending
    have hfull : rest.length = 256 := by simp_all; omega
    refine ⟨hrest, hfull.le, fun other hother => hgone other (mem_cons_of_mem _ hother), ?_⟩
    intro other hother hnot
    refine ⟨hfull, fun kept hkept => ?_⟩
    by_cases hnow : other ∈ insertId id ids
    · rw [heq] at hnow
      obtain rfl | hnow := mem_cons.mp hnow
      · exact hleast kept hkept
      · exact absurd hnow hnot
    rw [mem_insertId, not_or] at hnow
    have hbelow := (h.forgotten other ((mem_cons.mp hother).resolve_left hnow.1) hnow.2).2
    have hkeptIn : kept ∈ insertId id ids := heq ▸ mem_cons_of_mem _ hkept
    obtain rfl | hkeptIn := mem_insertId.mp hkeptIn
    · have hleastIn : least ∈ insertId kept ids := heq ▸ mem_cons_self
      obtain rfl | hleastIn := mem_insertId.mp hleastIn
      · exact absurd (hleast _ hkept) (lt_irrefl _)
      · exact (hbelow least hleastIn).trans (hleast kept hkept)
    · exact hbelow kept hkeptIn
  · refine ⟨hascending, by omega, hgone, fun other hother hnot => ?_⟩
    rw [mem_insertId, not_or] at hnot
    have hfull := (h.forgotten other ((mem_cons.mp hother).resolve_left hnot.1) hnot.2).1
    omega

/-- A stream is recalled if fewer than 256 higher ones are gone. -/
def recalled (gone : List Nat) (id : Nat) : Bool :=
  gone.contains id && (gone.dedup.filter fun other => id < other).length < 256

/-- The set has exactly the streams that are recalled. -/
theorem Recalls.mem_iff (h : Recalls ids gone) : id ∈ ids ↔ recalled gone id = true := by
  have hnodup : (gone.dedup.filter fun other => id < other).Nodup := (nodup_dedup gone).filter _
  rw [recalled, Bool.and_eq_true, contains_iff_mem, decide_eq_true_iff]
  constructor
  · intro hmem
    refine ⟨h.noted id hmem, ?_⟩
    -- the higher ones are in the set too, which has one more
    have hsub : (id :: gone.dedup.filter fun other => id < other) ⊆ ids := by
      intro other hother
      obtain rfl | hother := mem_cons.mp hother
      · exact hmem
      simp only [mem_filter, mem_dedup, decide_eq_true_iff] at hother
      by_contra hnot
      have hbelow := (h.forgotten other hother.1 hnot).2 id hmem
      omega
    have hle := (Nodup.subperm (nodup_cons.mpr ⟨by simp, hnodup⟩) hsub).length_le
    have hfew := h.few
    rw [length_cons] at hle
    omega
  rintro ⟨hgone, hless⟩
  by_contra hnot
  obtain ⟨hfull, hbelow⟩ := h.forgotten id hgone hnot
  have hsub : ids ⊆ gone.dedup.filter fun other => id < other := fun other hother => by
    simpa using ⟨h.noted other hother, hbelow other hother⟩
  have hle := (Nodup.subperm (h.ascending.imp ne_of_lt) hsub).length_le
  omega

/-- A stream that was in the set is not put in again: it is there, or would be forgotten at once. -/
theorem Recalls.insert_of_gone (h : Recalls ids gone) (hid : id ∈ gone) :
    Tracking.rememberClosed ids id = ids := by
  have hfew := h.few
  rw [Tracking.rememberClosed]
  by_cases hmem : id ∈ ids
  · rw [insertId_of_mem h.ascending hmem]
    exact if_neg (by omega)
  obtain ⟨hfull, hbelow⟩ := h.forgotten id hid hmem
  obtain ⟨x, rest, rfl⟩ := exists_cons_of_ne_nil (l := ids) (by rintro rfl; simp at hfull)
  rw [insertId, if_pos (hbelow x mem_cons_self)]
  exact if_pos (by rw [length_cons]; omega)

/-! ## Erased entries -/

theorem assocFind_filter_of_ne {other : Nat} (h : other ≠ id) (entries : List (Nat × Nat)) :
    assocFind other (entries.filter fun entry => entry.1 != id) = assocFind other entries := by
  induction entries with
  | nil => rfl
  | cons entry entries ih =>
    obtain ⟨key, v⟩ := entry
    by_cases hkey : key = id
    · subst hkey
      rw [filter_cons_of_neg (by simp), ih, assocFind, if_neg (Ne.symm h)]
    · rw [filter_cons_of_pos (by simpa using hkey), assocFind, assocFind, ih]

theorem assocFind_filter_self (id : Nat) (entries : List (Nat × Nat)) :
    assocFind id (entries.filter fun entry => entry.1 != id) = none := by
  rw [assocFind_eq_none]
  simp

/-- There is nothing to erase where there is no entry. -/
theorem filter_of_assocFind_none {entries : List (Nat × Nat)} (h : assocFind id entries = none) :
    (entries.filter fun entry => entry.1 != id) = entries := by
  rw [assocFind_eq_none] at h
  refine filter_eq_self.mpr fun entry hentry => ?_
  rw [bne_iff_ne]
  rintro rfl
  exact h (mem_map_of_mem hentry)

/-! ## Histories -/

/-- What the session tells the connection about its streams. -/
inductive StreamEvent where
  | opened (id : Nat)
  | closed (id : Nat)
  deriving DecidableEq, Repr

/-- The connection takes note of an event. -/
def Tracking.note (t : Tracking) : StreamEvent → Tracking
  | .opened id => t.onStreamOpen id
  | .closed id => t.onStreamClose id

/-- What has happened to the streams of a connection. -/
structure History where
  /-- The streams that are open at the session. -/
  opened : List Nat := []
  /-- All streams that were closed by the session or reset by the client. -/
  gone : List Nat := []
  /-- The highest stream of the client. -/
  highest : Nat := 0
  deriving DecidableEq, Repr

namespace History

/-- A stream is open at the session. -/
def isOpen (h : History) (id : Nat) : Bool := h.opened.contains id

/-- A stream is known to be closed. -/
def remembers (h : History) (id : Nat) : Bool := recalled h.gone id

/-- An event of the session. -/
def note (h : History) : StreamEvent → History
  | .opened id => { h with opened := id :: h.opened }
  | .closed id =>
    { h with opened := h.opened.filter fun other => other != id, gone := id :: h.gone }

/-- A frame that is accepted: RST_STREAM closes a stream, HEADERS may be on a new one. -/
def frame (h : History) (f : H2Frame) : History :=
  match f.kind with
  | .reset => { h with gone := f.streamId :: h.gone }
  | .headers =>
    if f.streamId % 2 ≠ 0 && !h.isOpen f.streamId then
      { h with highest := max h.highest f.streamId }
    else h
  | _ => h

/-- What the walk asks about the stream of a frame. -/
def lookup (h : History) (f : H2Frame) : List Bool :=
  match f.kind with
  | .update => [h.isOpen f.streamId && !h.remembers f.streamId]
  | .data => [h.remembers f.streamId]
  | .headers => [h.remembers f.streamId, h.isOpen f.streamId || f.streamId == h.highest]
  | _ => []

/-- The frame is accepted and changes nothing. -/
def passes (h : History) (f : H2Frame) : Bool :=
  match f.kind with
  | .priority =>
    f.streamId != 0 && f.payload.length == 5 && payload31 f.payload != f.streamId
  | .reset => h.remembers f.streamId
  | .update => !h.isOpen f.streamId || h.remembers f.streamId
  | .data => !h.remembers f.streamId
  | .headers =>
    !h.remembers f.streamId && (h.isOpen f.streamId || f.streamId == h.highest ||
      (f.streamId % 2 == 0 && h.highest < f.streamId))
  | .other => true

end History

/-- The tracking state has what the walk needs of a history. -/
structure Records (t : Tracking) (h : History) : Prop where
  streams : ∀ id, id ∈ t.streams ↔ h.isOpen id = true
  recalls : Recalls t.closedStreams h.gone
  erased : ∀ id ∈ t.closedStreams, assocFind id t.streamWindowUpdates = none
  highest : t.maxClientStreamId = h.highest

section

variable {t : Tracking} {h : History} {f : H2Frame} (hrec : Records t h)
include hrec

/-- The walk finds a stream closed where the history remembers it. -/
theorem Records.closed_iff (id : Nat) : id ∈ t.closedStreams ↔ h.remembers id = true :=
  hrec.recalls.mem_iff

theorem Records.contains_closed (id : Nat) : t.closedStreams.contains id = h.remembers id := by
  rw [Bool.eq_iff_iff, contains_iff_mem, hrec.closed_iff]

theorem Records.contains_streams (id : Nat) : t.streams.contains id = h.isOpen id := by
  rw [Bool.eq_iff_iff, contains_iff_mem, hrec.streams]

/-- A closed or reset stream is noted, and its window updates are erased. -/
theorem Records.forget (id : Nat) :
    Records { t with
      closedStreams := Tracking.rememberClosed t.closedStreams id
      streamWindowUpdates := t.streamWindowUpdates.filter fun entry => entry.1 != id }
      { h with gone := id :: h.gone } where
  streams := hrec.streams
  recalls := hrec.recalls.insert id
  highest := hrec.highest
  erased other hother := by
    by_cases heq : other = id
    · rw [heq, assocFind_filter_self]
    · rw [assocFind_filter_of_ne heq]
      exact hrec.erased other ((mem_of_mem_rememberClosed hother).resolve_left heq)

theorem Records.note (event : StreamEvent) : Records (t.note event) (h.note event) := by
  cases event with
  | opened id =>
    refine { hrec with streams := fun other => ?_ }
    rw [Tracking.note, Tracking.onStreamOpen, mem_insertId, hrec.streams]
    simp [History.isOpen, History.note]
  | closed id =>
    refine { hrec.forget id with streams := fun other => ?_ }
    have hstream := hrec.streams other
    simp only [History.isOpen, contains_iff_mem] at hstream
    simp [Tracking.note, Tracking.onStreamClose, History.isOpen, History.note, hstream]

/-- An update that is counted is of a stream that is not closed. -/
theorem Records.checkWindow {t' : Tracking} (hcheck : checkWindow t f = (none, t')) :
    Records t' h := by
  rw [H2.checkWindow] at hcheck
  split at hcheck
  · exact (Prod.mk.inj hcheck).2 ▸ hrec
  rename_i hopen
  dsimp only at hcheck
  split at hcheck
  · cases hcheck
  obtain ⟨-, rfl⟩ := Prod.mk.inj hcheck
  refine { hrec with erased := fun id hid => ?_ }
  have hne : f.streamId ≠ id := by
    rintro rfl
    simp [show f.streamId ∈ t.closedStreams from hid] at hopen
  rw [assocFind_assocUpdate, if_neg hne]
  exact hrec.erased id hid

/-- Headers that are accepted. -/
theorem Records.checkHeaders (hkind : f.kind = .headers) {t' : Tracking}
    (hcheck : checkHeaders t f = (none, t')) : Records t' (h.frame f) := by
  have hstream := hrec.streams f.streamId
  rw [H2.checkHeaders] at hcheck
  simp only [History.frame, hkind]
  split at hcheck
  · cases hcheck
  split at hcheck
  · rename_i hopen
    obtain ⟨-, rfl⟩ := Prod.mk.inj hcheck
    rw [if_neg (by simp [hstream.mp hopen])]
    exact hrec
  rename_i hopen
  rw [hstream, Bool.not_eq_true] at hopen
  split at hcheck
  · cases hcheck
  split at hcheck
  · rename_i hodd
    obtain ⟨-, rfl⟩ := Prod.mk.inj hcheck
    rw [if_pos (by simp [hopen]; omega)]
    exact { hrec with highest := by rw [hrec.highest] }
  · rename_i hodd
    obtain ⟨-, rfl⟩ := Prod.mk.inj hcheck
    rw [if_neg (by simp at hodd; simp [hodd])]
    exact hrec

/-- An accepted frame is recorded. -/
theorem Records.frame {t' : Tracking} (hwalk : prevalidateFrame t f = (none, t')) :
    Records t' (h.frame f) := by
  rw [prevalidateFrame_eq] at hwalk
  cases hkind : f.kind <;> simp only [hkind] at hwalk
  case headers => exact hrec.checkHeaders hkind hwalk
  all_goals rw [History.frame, hkind]
  case update => exact hrec.checkWindow hwalk
  all_goals
    obtain ⟨-, rfl⟩ := Prod.mk.inj hwalk
  case reset => exact hrec.forget f.streamId
  all_goals exact hrec

/-- A frame that the history passes over is accepted and changes nothing. -/
theorem Records.passes (hpass : h.passes f = true) : prevalidateFrame t f = (none, t) := by
  have hstream := hrec.streams f.streamId
  have hclosed := hrec.closed_iff f.streamId
  have hhighest := hrec.highest
  rw [prevalidateFrame_eq]
  rw [History.passes] at hpass
  cases hkind : f.kind <;> simp only [hkind] at hpass ⊢
  case priority =>
    simp only [Bool.and_eq_true, bne_iff_ne, beq_iff_eq] at hpass
    simp [checkPriority, hpass]
  case reset =>
    have hmem := hclosed.mpr hpass
    rw [noteReset, hrec.recalls.insert_of_gone (hrec.recalls.noted _ hmem),
      filter_of_assocFind_none (hrec.erased _ hmem)]
  case update =>
    have hskip :
        (t.closedStreams.contains f.streamId || !t.streams.contains f.streamId) = true := by
      simp only [Bool.or_eq_true, Bool.not_eq_true', contains_iff_mem, hclosed] at hpass ⊢
      refine hpass.symm.imp_right fun hnot => ?_
      rw [← Bool.not_eq_true, contains_iff_mem, hstream, hnot]
      exact Bool.false_ne_true
    rw [H2.checkWindow, if_pos hskip]
  case data =>
    have hnot : f.streamId ∉ t.closedStreams := by simpa [hclosed] using hpass
    rw [checkData, if_neg hnot]
  case headers =>
    simp only [Bool.and_eq_true, Bool.not_eq_true', Bool.or_eq_true, beq_iff_eq,
      decide_eq_true_iff] at hpass
    obtain ⟨hnot, hrest⟩ := hpass
    rw [← Bool.not_eq_true, ← hclosed] at hnot
    rw [H2.checkHeaders, if_neg hnot]
    split
    · rfl
    rename_i hunopened
    rw [hstream] at hunopened
    obtain (hopen | heq) | ⟨heven, hlt⟩ := hrest
    · exact absurd hopen hunopened
    · rw [if_neg (by omega), max_eq_left (by omega)]
      split <;> rfl
    · rw [if_neg (by omega), if_neg (by omega)]

end

/-! ## Events that wait for the end of a buffer -/

/-- The event changes nothing but the open streams. -/
def Settled (t : Tracking) : StreamEvent → Prop
  | .opened _ => True
  | .closed id =>
    Tracking.rememberClosed t.closedStreams id = t.closedStreams ∧
      assocFind id t.streamWindowUpdates = none

theorem Settled.note {t : Tracking} {event : StreamEvent} (h : Settled t event) :
    t.note event = { t with streams := (t.note event).streams } := by
  cases event with
  | opened id => rfl
  | closed id =>
    rw [Tracking.note, Tracking.onStreamClose, h.1, filter_of_assocFind_none h.2]

section

variable {t : Tracking} {h : History} {f : H2Frame} {waiting : List StreamEvent}
  (hrec : Records t h)
include hrec

/-- The frame is judged as if the streams were open that will be. -/
theorem Records.lookup {streams : List Nat} {h' : History}
    (hlater : Records { t with streams := streams } h') (heq : h'.lookup f = h.lookup f) :
    prevalidateFrame { t with streams := streams } f =
      ((prevalidateFrame t f).1, { (prevalidateFrame t f).2 with streams := streams }) := by
  rw [prevalidateFrame_eq, prevalidateFrame_eq]
  rw [History.lookup, History.lookup] at heq
  cases hkind : f.kind <;> simp only [hkind, cons.injEq, and_true] at heq ⊢
  case reset => rfl
  case data => rfl
  case update =>
    have hskip : (t.closedStreams.contains f.streamId || !streams.contains f.streamId) =
        (t.closedStreams.contains f.streamId || !t.streams.contains f.streamId) := by
      have hsame := congrArg Bool.not heq
      rw [← hrec.contains_streams, ← hrec.contains_closed, ← hlater.contains_streams,
        ← hlater.contains_closed] at hsame
      simpa [Bool.or_comm] using hsame
    simp only [H2.checkWindow, hskip]
    split
    · rfl
    · split <;> rfl
  case headers =>
    obtain ⟨-, hopen⟩ := heq
    rw [← hlater.contains_streams, ← hrec.contains_streams, ← hlater.highest,
      ← hrec.highest, Bool.eq_iff_iff] at hopen
    simp only [Bool.or_eq_true, contains_iff_mem, beq_iff_eq] at hopen
    by_cases htop : f.streamId = t.maxClientStreamId
    · have hlater := checkHeaders_highest (t := { t with streams := streams }) htop
      rw [hlater, checkHeaders_highest htop]
      split <;> rfl
    · simp only [htop, or_false] at hopen
      simp only [H2.checkHeaders, hopen]
      repeat' split
      all_goals rfl

end

end Conflux.Http.H2
