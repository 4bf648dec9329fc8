import Conflux.Http.Chunked.Layout

/-!
# A chunked body that arrives in pieces

The decoder is called on growing prefixes of a body with one saved state. Whatever it does on a
prefix it does on the whole body: turns that go on and answers carry over, and after a request for
more the saved state leads to the same end. The one exception is a line of exactly the allowed
size whose terminator is cut in half: its carriage return is counted with the unfinished line,
which is then over the limit.
-/

namespace Conflux.Http.Chunked

open Conflux.Core List Bool ChunkedDecodeState

/-- The calls on growing prefixes, up to the first that does not ask for more. -/
def decodePieces (w : Bytes) (limits : DecodeLimits) :
    List Nat → ChunkedDecodeState → Int × ChunkedDecodeState
  | [], st => (0, st)
  | k :: ks, st =>
    let (rc, st) := decodeChunkedIncremental .exact (w.take k) 0 limits st
    if rc = 0 then decodePieces w limits ks st else (rc, st)

/-- The largest line of a kind, without its terminator. -/
def LineKind.longest : LineKind → Nat
  | .size => kMaxChunkSizeLineBytes
  | .trailer => kMaxChunkTrailerBytes - 2

/-- The line that begins at `p` is of the given length, and its terminator stands around `k`. -/
def HalfEnded (w : Bytes) (k p length : Nat) : Prop :=
  ∃ i, findFrom crlf w p = some i ∧ k = i + 1 ∧ i - p = length

/-- The first `k` bytes end inside the terminator of a size line of exactly 256 bytes, or of a
trailer line of exactly 8190 bytes. -/
def CutsAtLimit (limits : DecodeLimits) (w : Bytes) (k : Nat) : Prop :=
  ∃ kind count bytes p, LineAt limits w kind count bytes p ∧ HalfEnded w k p kind.longest

variable {bodyStart : Nat} {raw more : Bytes} {limits : DecodeLimits} {st st' : ChunkedDecodeState}

/-! ## One turn -/

variable {eol : Nat} {rc : Int}

/-- The bytes of a line do not change when more is received. -/
theorem line_extend {pos : Nat} (hle : pos ≤ eol) (hlen : eol ≤ raw.length) (more : Bytes) :
    ((raw ++ more).drop pos).take (eol - pos) = (raw.drop pos).take (eol - pos) := by
  rw [drop_append_of_le_length (le_trans hle hlen),
    take_append_of_le_length (by rw [length_drop]; omega)]

/-- A size line that has been received is judged alike in a longer buffer. -/
theorem sizeLineTurn_extend (h : Sound bodyStart raw limits st) (more : Bytes)
    (hf : findFrom crlf raw st.pos = some eol) :
    sizeLineTurn .exact (raw ++ more) limits st = sizeLineTurn .exact raw limits st := by
  have hext := findFrom_extend h.inside hf more
  obtain ⟨hle, hlen⟩ := findFrom_eq_some_le h.inside hf
  have hline := @line_extend raw _ _ hle (Nat.le_of_add_right_le hlen) more
  unfold sizeLineTurn
  rw [hf, hext]
  simp only [SizeArith.exact_sub, SizeArith.exact_add, hline]

theorem trailersTurn_extend (h : Sound bodyStart raw limits st) (more : Bytes) {next : Nat}
    (hf : findFrom crlf raw st.pos = some next) :
    trailersTurn .exact (raw ++ more) st = trailersTurn .exact raw st := by
  have hext := findFrom_extend h.inside hf more
  unfold trailersTurn
  rw [hf, hext]

theorem dataCrlfTurn_extend (more : Bytes) (hlen : ¬ raw.length - st.pos < 2) :
    dataCrlfTurn .exact (raw ++ more) st = dataCrlfTurn .exact raw st := by
  have hlen' : ¬ (raw ++ more).length - st.pos < 2 := by
    rw [length_append]
    omega
  rw [dataCrlfTurn_eq, dataCrlfTurn_eq, if_neg hlen, if_neg hlen',
    List.getElem?_append_left (by omega), List.getElem?_append_left (by omega)]

section

variable (h : Sound bodyStart raw limits st)
include h

/-- The decoder stands before a line of exactly the allowed size whose terminator is cut in half. -/
def HalfRead (w : Bytes) (k : Nat) (st : ChunkedDecodeState) : Prop :=
  st.phase = .sizeLine ∧ HalfEnded w k st.pos (LineKind.longest .size) ∨
    st.phase = .trailers ∧ HalfEnded w k st.pos (LineKind.longest .trailer)

/-- An unfinished size line over the limit stays over it, unless half of its terminator is what
put it there. -/
theorem sizeLine_rejected_extend (more : Bytes) (hf : findFrom crlf raw st.pos = none)
    (hlong : kMaxChunkSizeLineBytes < raw.length - st.pos) :
    (∃ st', sizeLineTurn .exact (raw ++ more) limits st = .done (-1, st')) ∨
      HalfEnded (raw ++ more) raw.length st.pos (LineKind.longest .size) := by
  have hinside := h.inside
  have hgrown : Sound bodyStart (raw ++ more) limits st := h.grow (by simp)
  cases hfound : findFrom crlf (raw ++ more) st.pos with
  | none =>
    have hlong' : kMaxChunkSizeLineBytes < (raw ++ more).length - st.pos := by
      rw [length_append]
      omega
    exact .inl ⟨st, by rw [sizeLineTurn_none hfound, if_pos hlong']⟩
  | some eol =>
    obtain ⟨hle, hlen⟩ := hgrown.terminator_le hfound
    have hreach := findFrom_extend_none h.inside hf hfound
    rw [length_cons, length_cons, length_nil] at hreach
    by_cases hexact : eol - st.pos = kMaxChunkSizeLineBytes
    · exact .inr ⟨eol, hfound, by omega, hexact⟩
    have hline : (((raw ++ more).drop st.pos).take (eol - st.pos)).length = eol - st.pos := by
      apply length_take_of_le
      rw [length_drop]
      omega
    have hparse : parseChunkSizeLine (((raw ++ more).drop st.pos).take (eol - st.pos)) = none := by
      unfold parseChunkSizeLine
      rw [hline, if_pos (by unfold kMaxChunkSizeLineBytes at hlong hexact ⊢; omega)]
    have heq := sizeLineTurn_some hgrown hfound
    simp only [hparse, ite_self] at heq
    exact .inl ⟨_, heq⟩

/-- An unfinished trailer line over the limit stays over it, unless half of its terminator is
what put it there. -/
theorem trailers_rejected_extend (more : Bytes) (hf : findFrom crlf raw st.pos = none)
    (hlong : kMaxChunkTrailerBytes < raw.length - st.pos + 2) :
    (∃ st', trailersTurn .exact (raw ++ more) st = .done (-1, st')) ∨
      HalfEnded (raw ++ more) raw.length st.pos (LineKind.longest .trailer) := by
  have hinside := h.inside
  have hgrown : Sound bodyStart (raw ++ more) limits st := h.grow (by simp)
  unfold kMaxChunkTrailerBytes at hlong
  cases hfound : findFrom crlf (raw ++ more) st.pos with
  | none =>
    have hlong' : kMaxChunkTrailerBytes < (raw ++ more).length - st.pos + 2 := by
      unfold kMaxChunkTrailerBytes
      rw [length_append]
      omega
    exact .inl ⟨st, by rw [trailersTurn_none hfound, if_pos hlong']⟩
  | some next =>
    obtain ⟨hle, hlen⟩ := hgrown.terminator_le hfound
    have hreach := findFrom_extend_none h.inside hf hfound
    rw [length_cons, length_cons, length_nil] at hreach
    by_cases hexact : next - st.pos = LineKind.longest .trailer
    · refine .inr ⟨next, hfound, ?_, hexact⟩
      simp only [LineKind.longest, kMaxChunkTrailerBytes] at hexact
      omega
    have hlarge : kMaxChunkTrailerBytes < st.trailerBytes + (next - st.pos + 2) := by
      simp only [LineKind.longest, kMaxChunkTrailerBytes] at hexact ⊢
      omega
    exact .inl ⟨_, (trailersTurn_some hfound (by omega)).trans (if_pos (.inr hlarge))⟩

/-- A turn is the same in a longer buffer, unless it asks for more or rejects an unfinished
line. -/
theorem decodeTurn_extend (more : Bytes) :
    decodeTurn .exact (raw ++ more) limits st = decodeTurn .exact raw limits st ∨
      ∃ rc, rc ≤ 0 ∧ (∃ st', decodeTurn .exact raw limits st = .done (rc, st')) ∧
        (rc = 0 ∨ (∃ st'', decodeTurn .exact (raw ++ more) limits st = .done (rc, st'')) ∨
          rc = -1 ∧ HalfRead (raw ++ more) raw.length st) := by
  unfold decodeTurn
  cases hphase : st.phase with
  | sizeLine =>
    cases hf : findFrom crlf raw st.pos with
    | none =>
      right
      have heq : sizeLineTurn .exact raw limits st = _ := sizeLineTurn_none hf
      by_cases hlong : kMaxChunkSizeLineBytes < raw.length - st.pos
      · rw [if_pos hlong] at heq
        refine ⟨-1, by decide, ⟨st, heq⟩, .inr ?_⟩
        exact (sizeLine_rejected_extend h more hf hlong).imp_right fun hcut =>
          ⟨rfl, .inl ⟨hphase, hcut⟩⟩
      · rw [if_neg hlong] at heq
        exact ⟨0, Int.le_refl 0, ⟨st, heq⟩, .inl rfl⟩
    | some eol => exact .inl (sizeLineTurn_extend h more hf)
  | data =>
    have hgrown : Sound bodyStart (raw ++ more) limits st := h.grow (by simp)
    have hinside := h.inside
    simp only [dataTurn_eq h hphase, dataTurn_eq hgrown hphase]
    by_cases hshort : raw.length - st.pos < st.remaining
    · exact .inr ⟨0, Int.le_refl 0, ⟨_, if_pos hshort⟩, .inl rfl⟩
    have hall : ¬ (raw ++ more).length - st.pos < st.remaining := by
      rw [length_append]
      omega
    have hdata : ((raw ++ more).drop st.pos).take st.remaining =
        (raw.drop st.pos).take st.remaining := by
      rw [drop_append_of_le_length hinside, take_append_of_le_length (by rw [length_drop]; omega)]
    rw [if_neg hall, if_neg hshort, took, took, hdata]
    exact .inl rfl
  | dataCrlf =>
    by_cases hshort : raw.length - st.pos < 2
    · exact .inr ⟨0, Int.le_refl 0, ⟨st, if_pos hshort⟩, .inl rfl⟩
    · exact .inl (dataCrlfTurn_extend more hshort)
  | trailers =>
    cases hf : findFrom crlf raw st.pos with
    | none =>
      right
      have heq := trailersTurn_none hf
      by_cases hlong : kMaxChunkTrailerBytes < raw.length - st.pos + 2
      · rw [if_pos hlong] at heq
        refine ⟨-1, by decide, ⟨st, heq⟩, .inr ?_⟩
        exact (trailers_rejected_extend h more hf hlong).imp_right fun hcut =>
          ⟨rfl, .inr ⟨hphase, hcut⟩⟩
      · rw [if_neg hlong] at heq
        exact ⟨0, Int.le_refl 0, ⟨st, heq⟩, .inl rfl⟩
    | some next => exact .inl (trailersTurn_extend h more hf)
  | complete => exact .inl rfl

/-- A turn that goes on does so in a longer buffer. -/
theorem decodeTurn_again_extend (more : Bytes)
    (hturn : decodeTurn .exact raw limits st = .again st') :
    decodeTurn .exact (raw ++ more) limits st = .again st' := by
  obtain hsame | ⟨rc, -, ⟨_, hdone⟩, -⟩ := decodeTurn_extend h more
  · exact hsame.trans hturn
  · rw [hturn] at hdone
    cases hdone

/-- An answer is the answer in a longer buffer too. -/
theorem decodeTurn_done_extend (more : Bytes) (hrc : rc ≠ 0)
    (hturn : decodeTurn .exact raw limits st = .done (rc, st')) :
    (∃ st'', decodeTurn .exact (raw ++ more) limits st = .done (rc, st'') ∧
        (0 < rc → st'' = st')) ∨
      rc = -1 ∧ HalfRead (raw ++ more) raw.length st := by
  obtain hsame | ⟨_, hle, ⟨_, hdone⟩, hopen⟩ := decodeTurn_extend h more
  · exact .inl ⟨st', hsame.trans hturn, fun _ => rfl⟩
  rw [hturn] at hdone
  cases hdone
  obtain hzero | ⟨st'', hanswer⟩ | hcut := hopen
  · exact absurd hzero hrc
  · exact .inl ⟨st'', hanswer, fun hpos => by omega⟩
  · exact .inr hcut

/-! ## Whole calls -/

/-- Data that was taken in two parts is the data taken at once. -/
theorem took_extend (more : Bytes) {n : Nat} (hn : raw.length - st.pos ≤ n) :
    (st.took raw (raw.length - st.pos)).took (raw ++ more) (n - (raw.length - st.pos)) =
      st.took (raw ++ more) n := by
  have hinside := h.inside
  have hpos : st.pos + (raw.length - st.pos) = raw.length := by omega
  have hbody : (raw.drop st.pos).take (raw.length - st.pos) ++
      ((raw ++ more).drop raw.length).take (n - (raw.length - st.pos)) =
      ((raw ++ more).drop st.pos).take n := by
    have hall : (raw.drop st.pos).take (raw.length - st.pos) = raw.drop st.pos :=
      take_of_length_le (by rw [length_drop])
    have hfront : (raw.drop st.pos).take n = raw.drop st.pos :=
      take_of_length_le (by rw [length_drop]; exact hn)
    rw [hall, drop_left, drop_append_of_le_length hinside, take_append, hfront, length_drop]
  unfold took
  simp only [hpos, append_assoc, hbody]
  congr 1 <;> omega

/-- After a request for more the saved state goes on like the one before. -/
theorem decodeTurn_saved (more : Bytes) (hturn : decodeTurn .exact raw limits st = .done (0, st')) :
    decodeTurn .exact (raw ++ more) limits st' = decodeTurn .exact (raw ++ more) limits st := by
  rcases (h.answered hturn).1 rfl with rfl | ⟨hphase, hshort, heq⟩
  · rfl
  have hinside := h.inside
  have hgrown : Sound bodyStart (raw ++ more) limits st := h.grow (by simp)
  have hsaved : Sound bodyStart (raw ++ more) limits st' := (h.saved hturn).grow (by simp)
  have hphase' : st'.phase = .data := by rw [heq]; exact hphase
  have hpos : st'.pos = raw.length := by
    rw [heq]
    change st.pos + (raw.length - st.pos) = raw.length
    omega
  have hrem : st'.remaining = st.remaining - (raw.length - st.pos) := by rw [heq]; rfl
  have hold : decodeTurn .exact (raw ++ more) limits st = dataTurn .exact (raw ++ more) st := by
    unfold decodeTurn
    rw [hphase]
  have hnew : decodeTurn .exact (raw ++ more) limits st' = dataTurn .exact (raw ++ more) st' := by
    unfold decodeTurn
    rw [hphase']
  rw [dataTurn_eq hgrown hphase, length_append] at hold
  rw [dataTurn_eq hsaved hphase', hpos, hrem, length_append] at hnew
  have hmore : raw.length + more.length - raw.length =
      raw.length + more.length - st.pos - (raw.length - st.pos) := by omega
  by_cases hpart : raw.length + more.length - st.pos < st.remaining
  · rw [if_pos hpart] at hold
    rw [if_pos (by omega), hmore, heq, took_extend h more (by omega)] at hnew
    rw [hold, heq, hnew]
  rw [if_neg hpart] at hold
  rw [if_neg (by omega), heq, took_extend h more (le_of_lt hshort)] at hnew
  rw [hold, heq, hnew]

/-- A call that asks for more saves a state that leads to the same end on every longer buffer. -/
theorem Sound.call_needMore (hends : Ends (decodeTurn .exact raw limits) st (0, st')) :
    Sound bodyStart raw limits st' ∧
      ∀ more answer, Ends (decodeTurn .exact (raw ++ more) limits) st' answer ↔
        Ends (decodeTurn .exact (raw ++ more) limits) st answer := by
  generalize hans : ((0 : Int), st') = ans at hends
  induction hends with
  | done hturn =>
    subst hans
    exact ⟨h.saved hturn, fun more answer => ends_congr (decodeTurn_saved h more hturn)⟩
  | again hturn _ ih =>
    obtain ⟨hsound, hsame⟩ := ih (h.again hturn).1 hans
    refine ⟨hsound, fun more answer => (hsame more answer).trans ?_⟩
    exact (ends_again_iff (decodeTurn_again_extend h more hturn)).symm

/-- A call with an answer gives it on every longer buffer too, unless it stops at a half
terminator. -/
theorem Sound.call_answer (more : Bytes) (hrc : rc ≠ 0)
    (hends : Ends (decodeTurn .exact raw limits) st (rc, st')) :
    (∃ st'', Ends (decodeTurn .exact (raw ++ more) limits) st (rc, st'') ∧
        (0 < rc → st'' = st')) ∨
      rc = -1 ∧ ∃ st₁, Passes (decodeTurn .exact (raw ++ more) limits) st st₁ ∧
        HalfRead (raw ++ more) raw.length st₁ := by
  generalize hans : (rc, st') = ans at hends
  induction hends with
  | done hturn =>
    subst hans
    rcases decodeTurn_done_extend h more hrc hturn with ⟨st'', hdone, heq⟩ | ⟨hrc, hcut⟩
    · exact .inl ⟨st'', .done hdone, heq⟩
    · exact .inr ⟨hrc, _, .refl, hcut⟩
  | again hturn _ ih =>
    have hagain := decodeTurn_again_extend h more hturn
    rcases ih (h.again hturn).1 hans with ⟨st'', hdone, heq⟩ | ⟨hrc, st₁, hpasses, hcut⟩
    · exact .inl ⟨st'', .again hagain hdone, heq⟩
    · exact .inr ⟨hrc, st₁, .head hagain hpasses, hcut⟩

end

theorem Sound.call_eq (h : Sound bodyStart raw limits (resume bodyStart st)) :
    Ends (decodeTurn .exact raw limits) (resume bodyStart st)
      (decodeChunkedIncremental .exact raw bodyStart limits st) := by
  obtain ⟨answer, hloop, hends⟩ := h.exists_ends
  unfold decodeChunkedIncremental
  simp only [hloop]
  exact hends

/-! ## Prefixes of a body -/

variable {w : Bytes} {k : Nat}

/-- What a run of calls is compared with: the answer and, of a complete body, the bytes. -/
def outcome (answer : Int × ChunkedDecodeState) : Int × Bytes :=
  (answer.1, if 0 < answer.1 then answer.2.body else [])

theorem outcome_of_nonpos {answer : Int × ChunkedDecodeState} (h : answer.1 ≤ 0) :
    outcome answer = (answer.1, []) := by
  rw [outcome, if_neg (by omega)]

theorem decodeChunked_eq_outcome (w : Bytes) (limits : DecodeLimits) :
    decodeChunked .exact w limits = outcome (decodeChunkedIncremental .exact w 0 limits {}) := rfl

theorem ends_decodeChunked (w : Bytes) (limits : DecodeLimits) :
    Ends (decodeTurn .exact w limits) (resume 0 {})
      (decodeChunkedIncremental .exact w 0 limits {}) :=
  (sound_fresh limits (Nat.zero_le _) : Sound 0 w limits (resume 0 {})).call_eq

/-- A line that the decoder has read half is a line of the text. -/
theorem HalfRead.cutsAtLimit (h : HalfRead w k st)
    (hpasses : Passes (decodeTurn .exact w limits) (resume 0 {}) st) : CutsAtLimit limits w k := by
  have hplaced := (placed_of_passes hpasses).1
  obtain ⟨hphase, hcut⟩ | ⟨hphase, hcut⟩ := h
  · rw [Placed, hphase] at hplaced
    exact ⟨.size, _, _, _, hplaced.1, hcut⟩
  · rw [Placed, hphase] at hplaced
    exact ⟨.trailer, _, _, _, hplaced, hcut⟩

/-- A prefix of a body asks for more, or answers what the whole body answers, or it ends in the
terminator of a line of the allowed size and is rejected. -/
theorem decodeChunked_take (limits : DecodeLimits) (hk : k ≤ w.length) :
    decodeChunked .exact (w.take k) limits = (0, []) ∨
      decodeChunked .exact (w.take k) limits = decodeChunked .exact w limits ∨
      decodeChunked .exact (w.take k) limits = (-1, []) ∧ CutsAtLimit limits w k := by
  have hsound : Sound 0 (w.take k) limits (resume 0 {}) := sound_fresh limits (Nat.zero_le _)
  have hends := ends_decodeChunked (w.take k) limits
  rw [decodeChunked_eq_outcome, decodeChunked_eq_outcome]
  cases hcall : decodeChunkedIncremental .exact (w.take k) 0 limits {} with
  | mk rc st =>
    rw [hcall] at hends
    by_cases hrc : rc = 0
    · exact .inl (by rw [hrc]; rfl)
    right
    obtain ⟨st', hdone, heq⟩ | ⟨hrc, st₁, hpasses, hcut⟩ :=
      hsound.call_answer (w.drop k) hrc hends
    · left
      rw [take_append_drop] at hdone
      rw [(ends_decodeChunked w limits).unique hdone]
      unfold outcome
      split
      · rename_i hpos
        rw [heq hpos]
      · rfl
    · right
      rw [take_append_drop] at hpasses hcut
      rw [length_take_of_le hk] at hcut
      exact ⟨by rw [hrc]; rfl, hcut.cutsAtLimit hpasses⟩

/-- A terminator whose second byte is missing is not there. -/
theorem findFrom_take_none {p i : Nat} (hp : p ≤ k) (hk : k ≤ w.length)
    (h : findFrom crlf w p = some i) (hi : k < i + 2) : findFrom crlf (w.take k) p = none := by
  cases hf : findFrom crlf (w.take k) p with
  | none => rfl
  | some j =>
    have hlen : (w.take k).length = k := length_take_of_le hk
    have hext := findFrom_extend (by omega) hf (w.drop k)
    rw [take_append_drop, h] at hext
    have hle := (findFrom_eq_some_le (by omega) hf).2
    rw [length_cons, length_cons, length_nil] at hle
    obtain rfl := Option.some.inj hext
    omega

/-- A prefix that ends in the terminator of a line of the allowed size is rejected. -/
theorem CutsAtLimit.decodeChunked_take (h : CutsAtLimit limits w k) :
    k ≤ w.length ∧ decodeChunked .exact (w.take k) limits = (-1, []) := by
  obtain ⟨kind, count, bytes, p, hline, i, hfind, rfl, hlength⟩ := h
  obtain ⟨hle, hroom⟩ := findFrom_eq_some_le hline.le_length hfind
  rw [length_cons, length_cons, length_nil] at hroom
  refine ⟨by omega, ?_⟩
  have hnone := findFrom_take_none (by omega) (by omega : i + 1 ≤ w.length) hfind (by omega)
  have hlen : (w.take (i + 1)).length = i + 1 := length_take_of_le (by omega)
  obtain ⟨st, hpasses, hst⟩ := (hline.take (by omega : p ≤ i + 1)).passes
  have hrejected : decodeTurn .exact (w.take (i + 1)) limits st = .done (-1, st) := by
    unfold decodeTurn
    cases kind with
    | size =>
      obtain ⟨hphase, -, -, rfl, -, -⟩ := hst
      simp only [LineKind.longest] at hlength
      rw [hphase]
      dsimp only
      rw [sizeLineTurn_none hnone, hlen, if_pos (by omega)]
    | trailer =>
      obtain ⟨hphase, -, -, rfl⟩ := hst
      simp only [LineKind.longest, kMaxChunkTrailerBytes] at hlength
      rw [hphase]
      dsimp only
      rw [trailersTurn_none hnone, hlen, if_pos (by simp only [kMaxChunkTrailerBytes]; omega)]
  have hends := hpasses.ends_iff.mpr (.done hrejected)
  rw [decodeChunked_eq_outcome, (ends_decodeChunked _ limits).unique hends]
  rfl

/-! ## All calls -/

/-- From the saved state the decoder goes on as if it began on the longer prefixes. -/
structure Pending (w : Bytes) (limits : DecodeLimits) (k₀ : Nat) (st : ChunkedDecodeState) :
    Prop where
  sound : Sound 0 (w.take k₀) limits (resume 0 st)
  same : ∀ k, k₀ ≤ k → ∀ answer,
    Ends (decodeTurn .exact (w.take k) limits) (resume 0 st) answer ↔
      Ends (decodeTurn .exact (w.take k) limits) (resume 0 {}) answer

variable {k₀ : Nat} {ks : List Nat}

theorem Pending.sound_take (h : Pending w limits k₀ st) (hk : k₀ ≤ k) :
    Sound 0 (w.take k) limits (resume 0 st) := by
  apply h.sound.grow
  rw [length_take, length_take]
  omega

/-- A call answers what the prefix answers on its own. -/
theorem Pending.call (h : Pending w limits k₀ st) (hk : k₀ ≤ k) :
    decodeChunkedIncremental .exact (w.take k) 0 limits st =
      decodeChunkedIncremental .exact (w.take k) 0 limits {} :=
  ((h.same k hk _).mp (h.sound_take hk).call_eq).unique (ends_decodeChunked _ limits)

/-- One call that asks for more leaves the same to come. -/
theorem Pending.next (h : Pending w limits k₀ st) (hk : k₀ ≤ k)
    (hcall : decodeChunkedIncremental .exact (w.take k) 0 limits st = (0, st')) :
    Pending w limits k st' := by
  have hends := (h.sound_take hk).call_eq
  rw [hcall] at hends
  obtain ⟨hsound, hsame⟩ := (h.sound_take hk).call_needMore hends
  have hresume : resume 0 st' = st' := hsound.resume_eq
  refine ⟨by rw [hresume]; exact hsound, fun k' hk' answer => ?_⟩
  have hlonger := hsame ((w.take k').drop k) answer
  have hsplit : w.take k ++ (w.take k').drop k = w.take k' := by
    rw [show w.take k = (w.take k').take k by rw [take_take, Nat.min_eq_left hk'],
      take_append_drop]
  rw [hsplit] at hlonger
  rw [hresume, hlonger]
  exact h.same k' (hk.trans hk') answer

/-- The calls on growing prefixes answer with the first prefix that does not ask for more. -/
theorem Pending.outcome_decodePieces (h : Pending w limits k₀ st)
    (hks : (k₀ :: ks).Pairwise (· ≤ ·)) :
    outcome (decodePieces w limits ks st) =
      ((ks.map fun k => decodeChunked .exact (w.take k) limits).find? (·.1 ≠ 0)).getD (0, []) := by
  induction ks generalizing k₀ st with
  | nil => rfl
  | cons k ks ih =>
    obtain ⟨hk₀, hrest⟩ := pairwise_cons.mp hks
    have hk : k₀ ≤ k := hk₀ k mem_cons_self
    rw [map_cons, find?_cons, decodeChunked_eq_outcome, ← h.call hk]
    cases hcall : decodeChunkedIncremental .exact (w.take k) 0 limits st with
    | mk rc st' =>
      simp only [decodePieces, hcall]
      by_cases hrc : rc = 0
      · subst hrc
        simpa [outcome] using ih (h.next hk hcall) hrest
      · simp [outcome, hrc]

theorem pending_fresh (w : Bytes) (limits : DecodeLimits) : Pending w limits 0 {} :=
  ⟨sound_fresh limits (Nat.zero_le _), fun _ _ _ => Iff.rfl⟩

/-- The first element of an ascending list whose image passes a test is not behind any other. -/
theorem find?_map_of_ascending {α : Type*} {f : Nat → α} {p : α → Bool}
    (hks : ks.Pairwise (· ≤ ·)) (hk : k ∈ ks) (hp : p (f k) = true) :
    ∃ k' ∈ ks, k' ≤ k ∧ (ks.map f).find? p = some (f k') ∧ p (f k') = true := by
  induction ks with
  | nil => cases hk
  | cons j ks ih =>
    obtain ⟨hj, hrest⟩ := pairwise_cons.mp hks
    rw [map_cons, find?_cons]
    cases hfirst : p (f j) with
    | true =>
      refine ⟨j, mem_cons_self, ?_, rfl, hfirst⟩
      obtain rfl | hk := mem_cons.mp hk
      · exact Nat.le_refl _
      · exact hj k hk
    | false =>
      obtain rfl | hk := mem_cons.mp hk
      · rw [hfirst] at hp
        cases hp
      · obtain ⟨k', hk', hrest⟩ := ih hrest hk
        exact ⟨k', mem_cons_of_mem _ hk', hrest⟩

theorem outcome_decodePieces_eq (limits : DecodeLimits)
    (hks : (ks ++ [w.length]).Pairwise (· ≤ ·)) :
    outcome (decodePieces w limits (ks ++ [w.length]) {}) =
      (((ks ++ [w.length]).map fun k => decodeChunked .exact (w.take k) limits).find?
        (·.1 ≠ 0)).getD (0, []) :=
  (pending_fresh w limits).outcome_decodePieces
    (pairwise_cons.mpr ⟨fun _ _ => Nat.zero_le _, hks⟩)

/-- If no prefix ends inside the terminator of a line of the allowed size, the outcome is that of
the whole body. -/
theorem outcome_decodePieces_of_not_cut (hks : (ks ++ [w.length]).Pairwise (· ≤ ·))
    (hclean : ∀ k ∈ ks, ¬ CutsAtLimit limits w k) :
    outcome (decodePieces w limits (ks ++ [w.length]) {}) = decodeChunked .exact w limits := by
  have hsame : ∀ k ∈ ks ++ [w.length], decodeChunked .exact (w.take k) limits = (0, []) ∨
      decodeChunked .exact (w.take k) limits = decodeChunked .exact w limits := by
    intro k hk
    obtain hk | hk := mem_append.mp hk
    · have hkw := (pairwise_append.mp hks).2.2 k hk w.length (mem_singleton_self _)
      obtain hzero | hsame | ⟨-, hcut⟩ := decodeChunked_take limits hkw
      · exact .inl hzero
      · exact .inr hsame
      · exact absurd hcut (hclean k hk)
    · rw [mem_singleton.mp hk, take_length]
      exact .inr rfl
  rw [outcome_decodePieces_eq limits hks]
  by_cases hzero : (decodeChunked .exact w limits).1 = 0
  · have hwhole : decodeChunked .exact w limits = (0, []) := by
      rw [decodeChunked_eq_outcome] at hzero ⊢
      rw [outcome_of_nonpos (Int.le_of_eq hzero)]
      exact congrArg (·, []) hzero
    have hnone : ((ks ++ [w.length]).map fun k =>
        decodeChunked .exact (w.take k) limits).find? (·.1 ≠ 0) = none := by
      rw [List.find?_eq_none]
      intro o ho
      obtain ⟨k, hk, rfl⟩ := mem_map.mp ho
      obtain heq | heq := hsame k hk
      · simp [heq]
      · simp [heq, hzero]
    rw [hnone, hwhole]
    rfl
  · obtain ⟨k, hk, -, hfind, htest⟩ := find?_map_of_ascending hks
      (mem_append_right _ (mem_singleton_self _))
      (f := fun k => decodeChunked .exact (w.take k) limits) (p := (·.1 ≠ 0))
      (by simpa using hzero)
    rw [hfind]
    refine (hsame k hk).resolve_left fun heq => ?_
    simp [heq] at htest

/-- Decoding growing prefixes with one saved state. If no prefix ends inside the terminator of a
size line of exactly 256 bytes or a trailer line of exactly 8190 bytes, the answer, the body and
the length are those of the whole body decoded at once. Of a body that is not rejected as a whole,
they are so only then. -/
theorem decodePieces_eq_decodeChunked {w : Bytes} {limits : DecodeLimits} {ks : List Nat}
    (hks : (ks ++ [w.length]).Pairwise (· ≤ ·)) :
    ((∀ k ∈ ks, ¬ CutsAtLimit limits w k) →
      outcome (decodePieces w limits (ks ++ [w.length]) {}) = decodeChunked .exact w limits) ∧
    ((decodeChunked .exact w limits).1 ≠ -1 →
      outcome (decodePieces w limits (ks ++ [w.length]) {}) = decodeChunked .exact w limits →
        ∀ k ∈ ks, ¬ CutsAtLimit limits w k) := by
  refine ⟨outcome_decodePieces_of_not_cut hks, ?_⟩
  intro hwhole hagree k hk hcut
  -- the first prefix that answers is not behind `k`, so it answers as the first `k` bytes do
  obtain ⟨hkw, hrejected⟩ := hcut.decodeChunked_take
  obtain ⟨k', hk', hle', hfind, htest⟩ := find?_map_of_ascending hks (mem_append_left _ hk)
    (f := fun k => decodeChunked .exact (w.take k) limits) (p := (·.1 ≠ 0))
    (by simp [hrejected])
  rw [outcome_decodePieces_eq limits hks, hfind, Option.getD_some] at hagree
  have hprefix := decodeChunked_take limits
    (by rw [length_take_of_le hkw]; exact hle' : k' ≤ (w.take k).length)
  rw [take_take, Nat.min_eq_left hle', hrejected] at hprefix
  obtain hzero | hsame | ⟨hsame, -⟩ := hprefix
  · simp [hzero] at htest
  all_goals
    rw [← hagree, hsame] at hwhole
    exact hwhole rfl

/-- A chunk behind a size line of exactly the allowed 256 bytes, and the last chunk. -/
def longLineBody : Bytes :=
  [0x31, Ascii.semicolon] ++ List.replicate 254 0x61 ++ crlf ++ [0x78] ++ crlf ++ [0x30] ++ crlf ++
    crlf

/-- Cut in the extension and behind the line feed of the long line, the body is decoded. -/
theorem decodePieces_eq_decodeChunked_longLineBody :
    outcome (decodePieces longLineBody ⟨8, 8⟩ [100, 258, longLineBody.length] {}) =
      decodeChunked .exact longLineBody ⟨8, 8⟩ := by
  refine (@decodePieces_eq_decodeChunked longLineBody ⟨8, 8⟩ [100, 258] (by decide +kernel)).1 ?_
  rintro k hk ⟨kind, count, bytes, p, hline, i, hfind, rfl, hlength⟩
  have hlen : longLineBody.length = 266 := by decide +kernel
  have hroom := (findFrom_eq_some_le hline.le_length hfind).2
  rw [hlen] at hroom
  have hi : i + 1 = 100 ∨ i + 1 = 258 := by simpa using hk
  cases kind with
  | trailer =>
    simp only [LineKind.longest, kMaxChunkTrailerBytes] at hlength
    omega
  | size =>
    simp only [LineKind.longest, kMaxChunkSizeLineBytes] at hlength
    cases hline with
    | first => omega
    | chunk => omega

/-- The whole body is decoded; received up to the carriage return of the size line it is
rejected. -/
theorem decodePieces_longLineBody :
    decodeChunked .exact longLineBody ⟨8, 8⟩ = (266, [0x78]) ∧
      outcome (decodePieces longLineBody ⟨8, 8⟩ [257, longLineBody.length] {}) = (-1, []) := by
  decide +kernel

end Conflux.Http.Chunked
