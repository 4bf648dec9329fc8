import Conflux.Http.Chunked.Model

/-!
# Runs of the chunked decoder

`Sound` is the invariant of the decoder: the position stays inside the buffer, the body that is
kept has the size that is counted, and what a chunk has promised still fits the body limit.
Every turn keeps it and moves ahead, so a decode always answers. Where the buffer fits the address
space, the decoder goes the same way with any arithmetic that is right in range, the one of the
machine included.
-/

namespace Conflux.Http.Chunked

open Conflux.Core SizeArith

@[simp] theorem SizeArith.exact_add (a b : Nat) : SizeArith.exact.add a b = a + b := by
  simp only [SizeArith.exact]

@[simp] theorem SizeArith.exact_sub (a b : Nat) : SizeArith.exact.sub a b = a - b := by
  simp only [SizeArith.exact]

/-- What holds of a decode between two turns. -/
structure Sound (bodyStart : Nat) (raw : Bytes) (limits : DecodeLimits)
    (st : ChunkedDecodeState) : Prop where
  active : st.active = true
  bodyStart_eq : st.bodyStart = bodyStart
  started : bodyStart ≤ st.pos
  inside : st.pos ≤ raw.length
  body_length : st.body.length = st.bodyBytes
  body_le : st.bodyBytes ≤ limits.maxBodySize
  data : st.phase = .data → 0 < st.remaining ∧ st.bodyBytes + st.remaining ≤ limits.maxBodySize
  chunks : st.chunksSeen ≤ st.pos
  trailerLines : st.trailerLines ≤ kMaxChunkTrailerLines
  trailerBytes : st.trailerBytes ≤ kMaxChunkTrailerBytes

/-- The state of a decode that begins. -/
theorem sound_fresh {raw : Bytes} (limits : DecodeLimits) {bodyStart : Nat}
    (h : bodyStart ≤ raw.length) :
    Sound bodyStart raw limits { active := true, bodyStart := bodyStart, pos := bodyStart } where
  active := rfl
  bodyStart_eq := rfl
  started := Nat.le_refl _
  inside := h
  body_length := rfl
  body_le := Nat.zero_le _
  data := nofun
  chunks := Nat.zero_le _
  trailerLines := Nat.zero_le _
  trailerBytes := Nat.zero_le _

variable {bodyStart : Nat} {raw : Bytes} {limits : DecodeLimits} {st st' : ChunkedDecodeState}

section

variable (h : Sound bodyStart raw limits st)
include h

/-- A buffer may grow between two calls. -/
theorem Sound.grow {raw' : Bytes}
    (hle : raw.length ≤ raw'.length) : Sound bodyStart raw' limits st :=
  { h with inside := le_trans h.inside hle }

/-- A decode that was started goes on where it stopped. -/
theorem Sound.resume_eq : resume bodyStart st = st := by
  simp [resume, h.active, h.bodyStart_eq]

/-- A terminator that is found ends inside the buffer. -/
theorem Sound.terminator_le {eol : Nat} (hends : findFrom crlf raw st.pos = some eol) :
    st.pos ≤ eol ∧ eol + 2 ≤ raw.length :=
  findFrom_eq_some_le h.inside hends

/-! ## What a turn does, phase by phase -/

/-- A size line that is there is refused or taken. -/
theorem sizeLineTurn_some {eol : Nat} (hends : findFrom crlf raw st.pos = some eol) :
    sizeLineTurn .exact raw limits st =
      if limits.maxChunks < st.chunksSeen + 1 then
        .done (-1, { st with chunksSeen := st.chunksSeen + 1 })
      else match parseChunkSizeLine ((raw.drop st.pos).take (eol - st.pos)) with
        | none => .done (-1, { st with chunksSeen := st.chunksSeen + 1 })
        | some chunkSize =>
          if chunkSize = 0 then
            .again { st with chunksSeen := st.chunksSeen + 1, pos := eol + 2,
                             currentChunkSize := chunkSize, phase := .trailers }
          else if limits.maxBodySize < st.bodyBytes + chunkSize then
            .done (-2, { st with chunksSeen := st.chunksSeen + 1, pos := eol + 2,
                                 currentChunkSize := chunkSize })
          else
            .again { st with chunksSeen := st.chunksSeen + 1, pos := eol + 2,
                             currentChunkSize := chunkSize, remaining := chunkSize,
                             phase := .data } := by
  have hroom := h.body_le
  have hlimit (chunkSize : Nat) : (limits.maxBodySize < st.bodyBytes ∨
      limits.maxBodySize - st.bodyBytes < chunkSize) ↔
      limits.maxBodySize < st.bodyBytes + chunkSize := by omega
  unfold sizeLineTurn
  rw [hends]
  simp only [exact_sub, exact_add, hlimit]
  all_goals rfl

end

/-- A size line that is not there yet is waited for, unless it is too long already. -/
theorem sizeLineTurn_none (hnone : findFrom crlf raw st.pos = none) :
    sizeLineTurn .exact raw limits st =
      .done (if kMaxChunkSizeLineBytes < raw.length - st.pos then -1 else 0, st) := by
  unfold sizeLineTurn
  rw [hnone]
  simp only [exact_sub]
  split <;> rfl

/-- The state after some data of a chunk. -/
def ChunkedDecodeState.took (raw : Bytes) (n : Nat) (st : ChunkedDecodeState) :
    ChunkedDecodeState :=
  { st with
    body := st.body ++ (raw.drop st.pos).take n
    pos := st.pos + n
    remaining := st.remaining - n
    bodyBytes := st.bodyBytes + n }

/-- The data of a chunk is taken whole, or as far as it is there. -/
theorem dataTurn_eq (h : Sound bodyStart raw limits st) (hphase : st.phase = .data) :
    dataTurn .exact raw st =
      if raw.length - st.pos < st.remaining then
        .done (0, st.took raw (raw.length - st.pos))
      else .again { st.took raw st.remaining with phase := .dataCrlf } := by
  obtain ⟨hrem, -⟩ := h.data hphase
  have hinside := h.inside
  unfold dataTurn
  by_cases hend : raw.length ≤ st.pos
  · have hzero : raw.length - st.pos = 0 := by omega
    have htook : st.took raw 0 = st := by simp [ChunkedDecodeState.took]
    rw [if_pos hend, hzero, if_pos hrem, htook]
  rw [if_neg hend]
  simp only [exact_sub, exact_add]
  by_cases hshort : raw.length - st.pos < st.remaining
  · have hmin : min st.remaining (raw.length - st.pos) = raw.length - st.pos := by omega
    have hsome : 0 < raw.length - st.pos := by omega
    have hleft : 0 < st.remaining - (raw.length - st.pos) := by omega
    rw [if_pos hshort, hmin]
    simp only [if_pos hsome, if_pos hleft]
    rfl
  · have hmin : min st.remaining (raw.length - st.pos) = st.remaining := by omega
    rw [if_neg hshort, hmin, if_pos hrem]
    simp [ChunkedDecodeState.took]

/-- The terminator behind the data is not there yet, or is checked. -/
theorem dataCrlfTurn_eq (raw : Bytes) (st : ChunkedDecodeState) :
    dataCrlfTurn .exact raw st =
      if raw.length - st.pos < 2 then .done (0, st)
      else if raw[st.pos]? ≠ some Ascii.cr ∨ raw[st.pos + 1]? ≠ some Ascii.lf then
        .done (-1, st)
      else .again { st with pos := st.pos + 2, phase := .sizeLine } := rfl

/-- A trailer line that is not there yet is waited for, unless it is too long already. -/
theorem trailersTurn_none (hnone : findFrom crlf raw st.pos = none) :
    trailersTurn .exact raw st =
      .done (if kMaxChunkTrailerBytes < raw.length - st.pos + 2 then -1 else 0, st) := by
  unfold trailersTurn
  rw [hnone]
  simp only [exact_sub, exact_add]
  split <;> rfl

/-- The empty trailer line ends the body. -/
theorem trailersTurn_empty (hends : findFrom crlf raw st.pos = some st.pos) :
    trailersTurn .exact raw st =
      .done (Int.ofNat (st.pos + 2 - st.bodyStart),
        { st with pos := st.pos + 2, phase := .complete }) := by
  unfold trailersTurn
  rw [hends]
  simp

/-- A trailer line that is there is counted or refused. -/
theorem trailersTurn_some {next : Nat} (hends : findFrom crlf raw st.pos = some next)
    (hne : next ≠ st.pos) :
    trailersTurn .exact raw st =
      if kMaxChunkTrailerLines < st.trailerLines + 1 ∨
          kMaxChunkTrailerBytes < st.trailerBytes + (next - st.pos + 2) then
        .done (-1, { st with trailerLines := st.trailerLines + 1 })
      else
        .again { st with trailerLines := st.trailerLines + 1,
                         trailerBytes := st.trailerBytes + (next - st.pos + 2),
                         pos := next + 2 } := by
  unfold trailersTurn acceptChunkTrailerLine
  rw [hends]
  have hbytes : (kMaxChunkTrailerBytes < next - st.pos + 2 ∨
      kMaxChunkTrailerBytes - (next - st.pos + 2) < st.trailerBytes) ↔
      kMaxChunkTrailerBytes < st.trailerBytes + (next - st.pos + 2) := by omega
  simp only [exact_sub, exact_add, if_neg hne, hbytes]
  by_cases hlines : kMaxChunkTrailerLines < st.trailerLines + 1
  · simp [hlines]
  by_cases hlarge : kMaxChunkTrailerBytes < st.trailerBytes + (next - st.pos + 2)
  all_goals simp [hlines, hlarge]

/-- The turns that go on: over the size line of a chunk or of the last one, over data or their
terminator, or over a trailer line. -/
inductive GoesOn (raw : Bytes) (limits : DecodeLimits) (st : ChunkedDecodeState) :
    ChunkedDecodeState → Prop
  | chunk {eol size : Nat} (hphase : st.phase = .sizeLine)
      (hends : findFrom crlf raw st.pos = some eol)
      (hsize : parseChunkSizeLine ((raw.drop st.pos).take (eol - st.pos)) = some size)
      (hpos : size ≠ 0) (hcounted : ¬ limits.maxChunks < st.chunksSeen + 1)
      (hfits : ¬ limits.maxBodySize < st.bodyBytes + size) :
      GoesOn raw limits st { st with chunksSeen := st.chunksSeen + 1, pos := eol + 2,
                                     currentChunkSize := size, remaining := size, phase := .data }
  | last {eol : Nat} (hphase : st.phase = .sizeLine)
      (hends : findFrom crlf raw st.pos = some eol)
      (hsize : parseChunkSizeLine ((raw.drop st.pos).take (eol - st.pos)) = some 0)
      (hcounted : ¬ limits.maxChunks < st.chunksSeen + 1) :
      GoesOn raw limits st { st with chunksSeen := st.chunksSeen + 1, pos := eol + 2,
                                     currentChunkSize := 0, phase := .trailers }
  | data (hphase : st.phase = .data) (hall : ¬ raw.length - st.pos < st.remaining) :
      GoesOn raw limits st { st.took raw st.remaining with phase := .dataCrlf }
  | closed (hphase : st.phase = .dataCrlf) (hroom : ¬ raw.length - st.pos < 2)
      (hends : raw[st.pos]? = some Ascii.cr ∧ raw[st.pos + 1]? = some Ascii.lf) :
      GoesOn raw limits st { st with pos := st.pos + 2, phase := .sizeLine }
  | trailer {next : Nat} (hphase : st.phase = .trailers)
      (hends : findFrom crlf raw st.pos = some next) (hne : next ≠ st.pos)
      (hfits : ¬ (kMaxChunkTrailerLines < st.trailerLines + 1 ∨
        kMaxChunkTrailerBytes < st.trailerBytes + (next - st.pos + 2))) :
      GoesOn raw limits st { st with trailerLines := st.trailerLines + 1,
                                     trailerBytes := st.trailerBytes + (next - st.pos + 2),
                                     pos := next + 2 }

section

variable (h : Sound bodyStart raw limits st)
include h

/-- Every such turn goes on. -/
theorem GoesOn.turn_eq (hgoes : GoesOn raw limits st st') :
    decodeTurn .exact raw limits st = .again st' := by
  unfold decodeTurn
  cases hgoes with
  | chunk hphase hends hsize hpos hcounted hfits =>
    simp only [hphase]
    rw [sizeLineTurn_some h hends, if_neg hcounted, hsize]
    dsimp only
    rw [if_neg hpos, if_neg hfits]
  | last hphase hends hsize hcounted =>
    simp only [hphase]
    rw [sizeLineTurn_some h hends, if_neg hcounted, hsize]
    dsimp only
    rw [if_pos rfl]
  | data hphase hall =>
    simp only [hphase]
    rw [dataTurn_eq h hphase, if_neg hall]
  | closed hphase hroom hends =>
    simp only [hphase]
    rw [dataCrlfTurn_eq, if_neg hroom, if_neg (by simp [hends])]
  | trailer hphase hends hne hfits =>
    simp only [hphase]
    rw [trailersTurn_some hends hne, if_neg hfits, hphase]

/-- No other turn goes on. -/
theorem Sound.goesOn (hturn : decodeTurn .exact raw limits st = .again st') :
    GoesOn raw limits st st' := by
  unfold decodeTurn at hturn
  cases hphase : st.phase with
  | sizeLine =>
    simp only [hphase] at hturn
    cases hf : findFrom crlf raw st.pos with
    | none => cases (sizeLineTurn_none hf).symm.trans hturn
    | some eol =>
      rw [sizeLineTurn_some h hf] at hturn
      split at hturn
      · cases hturn
      rename_i hcounted
      split at hturn
      · cases hturn
      rename_i size hsize
      split at hturn
      · rename_i hzero
        subst hzero
        cases hturn
        exact .last hphase hf hsize hcounted
      rename_i hpos
      split at hturn
      · cases hturn
      rename_i hfits
      cases hturn
      exact .chunk hphase hf hsize hpos hcounted hfits
  | data =>
    simp only [hphase, dataTurn_eq h hphase] at hturn
    split at hturn
    · cases hturn
    rename_i hall
    cases hturn
    exact .data hphase hall
  | dataCrlf =>
    simp only [hphase, dataCrlfTurn_eq] at hturn
    split at hturn
    · cases hturn
    rename_i hroom
    split at hturn
    · cases hturn
    rename_i hends
    cases hturn
    rw [not_or, not_not, not_not] at hends
    exact .closed hphase hroom hends
  | trailers =>
    simp only [hphase] at hturn
    cases hf : findFrom crlf raw st.pos with
    | none => cases (trailersTurn_none hf).symm.trans hturn
    | some next =>
      by_cases hne : next = st.pos
      · cases (trailersTurn_empty (hne ▸ hf)).symm.trans hturn
      rw [trailersTurn_some hf hne] at hturn
      split at hturn
      · cases hturn
      rename_i hfits
      cases hturn
      exact .trailer hphase hf hne hfits
  | complete =>
    simp only [hphase] at hturn
    cases hturn

/-! ## The invariant -/

theorem Sound.took (hphase : st.phase = .data) {n : Nat}
    (hn : n ≤ raw.length - st.pos) (hrem : n ≤ st.remaining) :
    (st.took raw n).body.length = (st.took raw n).bodyBytes ∧
      (st.took raw n).pos ≤ raw.length ∧
      (st.took raw n).bodyBytes + (st.took raw n).remaining ≤ limits.maxBodySize := by
  have hbody := h.body_length
  have hinside := h.inside
  have hdata := (h.data hphase).2
  have htake : ((raw.drop st.pos).take n).length = n := by
    apply List.length_take_of_le
    rw [List.length_drop]
    exact hn
  unfold ChunkedDecodeState.took
  refine ⟨?_, ?_, ?_⟩
  · simp only [List.length_append]
    omega
  all_goals
    dsimp only
    omega

/-- A turn that goes on keeps the invariant and moves ahead. -/
theorem Sound.again (hturn : decodeTurn .exact raw limits st = .again st') :
    Sound bodyStart raw limits st' ∧ st.pos < st'.pos := by
  have hstarted := h.started
  have hchunks := h.chunks
  cases h.goesOn hturn with
  | chunk _ hends _ hpos _ hfits =>
    obtain ⟨hle, hlen⟩ := h.terminator_le hends
    refine ⟨{ h with started := ?_, inside := hlen, data := fun _ => ?_, chunks := ?_ }, ?_⟩
    · dsimp only
      omega
    · exact ⟨Nat.pos_of_ne_zero hpos, Nat.not_lt.mp hfits⟩
    all_goals
      dsimp only
      omega
  | last _ hends _ _ =>
    obtain ⟨hle, hlen⟩ := h.terminator_le hends
    refine ⟨{ h with started := ?_, inside := hlen, data := nofun, chunks := ?_ }, ?_⟩
    all_goals dsimp only; omega
  | data hphase hall =>
    obtain ⟨hrem, hroom⟩ := h.data hphase
    obtain ⟨hbody, hpos, hle⟩ := h.took hphase (Nat.not_lt.mp hall) (Nat.le_refl _)
    refine ⟨{ h with started := ?_, inside := hpos, body_length := hbody, body_le := ?_,
                     data := nofun, chunks := ?_ }, ?_⟩
    · exact Nat.le_trans hstarted (Nat.le_add_right _ _)
    · exact Nat.le_trans (Nat.le_add_right _ _) hle
    · exact Nat.le_trans hchunks (Nat.le_add_right _ _)
    · exact Nat.lt_add_of_pos_right hrem
  | closed _ hroom _ =>
    refine ⟨{ h with started := ?_, inside := ?_, data := nofun, chunks := ?_ }, ?_⟩
    all_goals dsimp only; omega
  | trailer hphase hends _ hfits =>
    obtain ⟨hle, hlen⟩ := h.terminator_le hends
    rw [not_or, Nat.not_lt, Nat.not_lt] at hfits
    refine ⟨{ h with started := ?_, inside := hlen, data := ?_, chunks := ?_,
                     trailerLines := hfits.1, trailerBytes := hfits.2 }, ?_⟩
    · dsimp only
      omega
    · intro hdata
      rw [hphase] at hdata
      cases hdata
    all_goals
      dsimp only
      omega

/-- A request for more leaves a state to go on from, with the data so far. A rejection leaves the
position and the phase. -/
theorem Sound.answered {rc : Int} (hturn : decodeTurn .exact raw limits st = .done (rc, st')) :
    (rc = 0 → st' = st ∨ (st.phase = .data ∧ raw.length - st.pos < st.remaining ∧
        st' = st.took raw (raw.length - st.pos))) ∧
      (rc = -1 → st'.pos = st.pos ∧ st'.phase = st.phase) := by
  unfold decodeTurn at hturn
  cases hphase : st.phase with
  | sizeLine =>
    simp only [hphase] at hturn
    cases hf : findFrom crlf raw st.pos with
    | none =>
      cases (sizeLineTurn_none hf).symm.trans hturn
      exact ⟨fun _ => .inl rfl, fun _ => ⟨rfl, hphase⟩⟩
    | some eol =>
      rw [sizeLineTurn_some h hf] at hturn
      split at hturn
      · cases hturn
        exact ⟨by omega, fun _ => ⟨rfl, hphase⟩⟩
      split at hturn
      · cases hturn
        exact ⟨by omega, fun _ => ⟨rfl, hphase⟩⟩
      · split_ifs at hturn
        cases hturn
        exact ⟨by omega, by omega⟩
  | data =>
    simp only [hphase, dataTurn_eq h hphase] at hturn
    split at hturn
    · rename_i hshort
      cases hturn
      exact ⟨fun _ => .inr ⟨rfl, hshort, rfl⟩, by omega⟩
    · cases hturn
  | dataCrlf =>
    simp only [hphase, dataCrlfTurn_eq] at hturn
    split at hturn
    · cases hturn
      exact ⟨fun _ => .inl rfl, by omega⟩
    split at hturn
    · cases hturn
      exact ⟨by omega, fun _ => ⟨rfl, hphase⟩⟩
    · cases hturn
  | trailers =>
    simp only [hphase] at hturn
    cases hf : findFrom crlf raw st.pos with
    | none =>
      cases (trailersTurn_none hf).symm.trans hturn
      exact ⟨fun _ => .inl rfl, fun _ => ⟨rfl, hphase⟩⟩
    | some next =>
      by_cases hne : next = st.pos
      · rw [trailersTurn_empty (hne ▸ hf), h.bodyStart_eq, Int.ofNat_eq_natCast] at hturn
        have hstarted := h.started
        cases hturn
        exact ⟨by omega, by omega⟩
      rw [trailersTurn_some hf hne] at hturn
      split at hturn
      · cases hturn
        exact ⟨by omega, fun _ => ⟨rfl, hphase⟩⟩
      · cases hturn
  | complete =>
    simp only [hphase] at hturn
    cases hturn
    exact ⟨fun _ => .inl rfl, fun _ => ⟨rfl, hphase⟩⟩

/-- A request for more keeps the invariant. -/
theorem Sound.saved (hturn : decodeTurn .exact raw limits st = .done (0, st')) :
    Sound bodyStart raw limits st' := by
  rcases (h.answered hturn).1 rfl with rfl | ⟨hphase, hshort, rfl⟩
  · exact h
  obtain ⟨hbody, hpos, hle⟩ := h.took hphase (le_refl _) (le_of_lt hshort)
  refine { h with started := ?_, inside := hpos, body_length := hbody, body_le := ?_,
                  data := fun _ => ⟨?_, hle⟩, chunks := ?_ }
  · exact le_trans h.started (Nat.le_add_right _ _)
  · exact le_trans (Nat.le_add_right _ _) hle
  · exact Nat.sub_pos_of_lt hshort
  · exact le_trans h.chunks (Nat.le_add_right _ _)

theorem Sound.exists_ends :
    ∃ answer, loop (decodeTurn .exact raw limits) (raw.length + 1) st = some answer ∧
      Ends (decodeTurn .exact raw limits) st answer := by
  have hmeasure : ∀ s s', Sound bodyStart raw limits s →
      decodeTurn .exact raw limits s = .again s' →
        Sound bodyStart raw limits s' ∧ raw.length - s'.pos < raw.length - s.pos := by
    intro s s' hs hturn
    obtain ⟨hs', hlt⟩ := hs.again hturn
    have := hs'.inside
    exact ⟨hs', by omega⟩
  obtain ⟨answer, hloop⟩ := exists_loop_eq hmeasure h (n := raw.length + 1) (by omega)
  exact ⟨answer, hloop, ends_of_loop hloop⟩

end

/-! ## Sizes -/

/-- Right wherever the result is a size of 64 bits. -/
structure SizeArith.RightInRange (A : SizeArith) : Prop where
  add : ∀ a b, a + b < 2 ^ 64 → A.add a b = a + b
  sub : ∀ a b, b ≤ a → a < 2 ^ 64 → A.sub a b = a - b

theorem SizeArith.machine_rightInRange : SizeArith.machine.RightInRange where
  add := by
    intro a b h
    exact Nat.mod_eq_of_lt h
  sub := by
    intro a b hle h
    have heq : a + 2 ^ 64 - b = a - b + 2 ^ 64 := by omega
    change (a + 2 ^ 64 - b) % 2 ^ 64 = a - b
    rw [heq, Nat.add_mod_right, Nat.mod_eq_of_lt (by omega)]

/-- A buffer that fits the address space. -/
def Addressable (raw : Bytes) : Prop :=
  raw.length < 2 ^ 63

section

variable {A : SizeArith} {bodyStart : Nat} {raw : Bytes} {limits : DecodeLimits}
  {st : ChunkedDecodeState}

/-- The counters of a trailer line stay far below the range. -/
theorem acceptChunkTrailerLine_rightInRange (hA : A.RightInRange) {lineBytes : Nat}
    (hlines : st.trailerLines ≤ kMaxChunkTrailerLines)
    (hbytes : st.trailerBytes ≤ kMaxChunkTrailerBytes) :
    acceptChunkTrailerLine A lineBytes st.trailerLines st.trailerBytes =
      acceptChunkTrailerLine .exact lineBytes st.trailerLines st.trailerBytes := by
  unfold kMaxChunkTrailerLines at hlines
  unfold kMaxChunkTrailerBytes at hbytes
  unfold acceptChunkTrailerLine
  rw [hA.add st.trailerLines 1 (by omega)]
  by_cases hline : kMaxChunkTrailerBytes < lineBytes
  · simp [hline]
  unfold kMaxChunkTrailerBytes at hline
  simp only [hA.sub kMaxChunkTrailerBytes lineBytes (Nat.not_lt.mp hline) (by decide),
    hA.add st.trailerBytes lineBytes (by omega), exact_add, exact_sub]

/-- From a sound state every size that a turn computes is in range. -/
theorem Sound.decodeTurn_rightInRange (hA : A.RightInRange) (h : Sound bodyStart raw limits st)
    (hraw : Addressable raw) (hlimit : limits.maxBodySize < 2 ^ 64) :
    decodeTurn A raw limits st = decodeTurn .exact raw limits st := by
  have hinside := h.inside
  have hstarted := h.started
  have hchunks := h.chunks
  have hbody := h.body_le
  unfold Addressable at hraw
  have hrest := hA.sub raw.length st.pos hinside (by omega)
  unfold decodeTurn
  cases hphase : st.phase with
  | sizeLine =>
    simp only [sizeLineTurn, hrest, hA.add st.chunksSeen 1 (by omega), hA.sub _ _ hbody hlimit,
      exact_add, exact_sub]
    cases hf : findFrom crlf raw st.pos with
    | none => rfl
    | some eol =>
      obtain ⟨hle, hlen⟩ := findFrom_eq_some_le hinside hf
      rw [List.length_cons, List.length_cons, List.length_nil] at hlen
      simp only [hA.sub eol st.pos hle (by omega), hA.add eol 2 (by omega)]
  | data =>
    obtain ⟨-, hpromised⟩ := h.data hphase
    simp only [dataTurn, hrest, hA.add st.pos (min st.remaining (raw.length - st.pos)) (by omega),
      hA.sub st.remaining (min st.remaining (raw.length - st.pos)) (by omega) (by omega),
      hA.add st.bodyBytes (min st.remaining (raw.length - st.pos)) (by omega), exact_add, exact_sub]
  | dataCrlf =>
    simp only [dataCrlfTurn, hrest, hA.add st.pos 1 (by omega), hA.add st.pos 2 (by omega),
      exact_add, exact_sub]
  | trailers =>
    simp only [trailersTurn, hrest, hA.add (raw.length - st.pos) 2 (by omega),
      hA.add st.pos 2 (by omega), exact_add, exact_sub,
      hA.sub (st.pos + 2) st.bodyStart (by rw [h.bodyStart_eq]; omega) (by omega)]
    cases hf : findFrom crlf raw st.pos with
    | none => rfl
    | some next =>
      obtain ⟨hle, hlen⟩ := findFrom_eq_some_le hinside hf
      rw [List.length_cons, List.length_cons, List.length_nil] at hlen
      simp only [hA.sub next st.pos hle (by omega), hA.add (next - st.pos) 2 (by omega),
        hA.add next 2 (by omega),
        acceptChunkTrailerLine_rightInRange hA h.trailerLines h.trailerBytes]
  | complete =>
    simp only [hA.sub st.pos st.bodyStart (by rw [h.bodyStart_eq]; exact hstarted) (by omega),
      exact_sub]

end

/-- The states a decode passes through: from the start of the body turn by turn, and after a
request for more over a buffer that has grown. -/
inductive Reached (A : SizeArith) (bodyStart : Nat) (limits : DecodeLimits) :
    Bytes → ChunkedDecodeState → Prop
  | start {raw : Bytes} (hstart : bodyStart ≤ raw.length) (hraw : Addressable raw) :
      Reached A bodyStart limits raw (resume bodyStart {})
  | turn {raw : Bytes} {st st' : ChunkedDecodeState} (h : Reached A bodyStart limits raw st)
      (hturn : decodeTurn A raw limits st = .again st') : Reached A bodyStart limits raw st'
  | more {raw raw' : Bytes} {st st' : ChunkedDecodeState}
      (h : Reached A bodyStart limits raw st) (hturn : decodeTurn A raw limits st = .done (0, st'))
      (hgrow : raw <+: raw') (hraw : Addressable raw') : Reached A bodyStart limits raw' st'

/-- Every state a decode passes through is sound. -/
theorem Reached.sound {A : SizeArith} (hA : A.RightInRange) {bodyStart : Nat}
    {limits : DecodeLimits} (hlimit : limits.maxBodySize < 2 ^ 64) {raw : Bytes}
    {st : ChunkedDecodeState} (h : Reached A bodyStart limits raw st) :
    Sound bodyStart raw limits st ∧ Addressable raw := by
  induction h with
  | start hstart hraw =>
    have hfresh : resume bodyStart ({} : ChunkedDecodeState) =
        { active := true, bodyStart := bodyStart, pos := bodyStart } := rfl
    rw [hfresh]
    exact ⟨sound_fresh limits hstart, hraw⟩
  | turn _ hturn ih =>
    obtain ⟨hsound, hraw⟩ := ih
    rw [hsound.decodeTurn_rightInRange hA hraw hlimit] at hturn
    exact ⟨(hsound.again hturn).1, hraw⟩
  | more _ hturn hgrow hraw' ih =>
    obtain ⟨hsound, hraw⟩ := ih
    rw [hsound.decodeTurn_rightInRange hA hraw hlimit] at hturn
    exact ⟨(hsound.saved hturn).grow hgrow.length_le, hraw'⟩

end Conflux.Http.Chunked
