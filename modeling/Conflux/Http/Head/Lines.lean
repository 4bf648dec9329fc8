import Conflux.Http.Head.Model

/-!
# The header block as lines

A receive buffer without a terminator is part of a request line. Any other buffer is a request
line followed by header lines and either the empty line, then anything, or an unfinished line.
For each of the three shapes the block search is told from the sizes of the lines alone.
-/

namespace Conflux.Http.Head

open Conflux.Core List Ascii

/-- A header line as the block search sees it: not empty, and without a terminator inside. -/
def IsLine (line : Bytes) : Prop :=
  line ≠ [] ∧ find crlf line = none

/-- A request line, header lines and the empty line. -/
def headText (reqLine : Bytes) (lines : List Bytes) : Bytes :=
  reqLine ++ crlf ++ ended crlf lines ++ crlf

/-- A request line, header lines and an unfinished line. -/
def openText (reqLine : Bytes) (lines : List Bytes) (pending : Bytes) : Bytes :=
  reqLine ++ crlf ++ ended crlf lines ++ pending

theorem headText_eq (reqLine : Bytes) (lines : List Bytes) (rest : Bytes) :
    headText reqLine lines ++ rest =
      reqLine ++ cr :: lf :: (ended crlf lines ++ cr :: lf :: rest) := by
  simp [headText]

theorem openText_eq (reqLine : Bytes) (lines : List Bytes) (pending : Bytes) :
    openText reqLine lines pending = reqLine ++ cr :: lf :: (ended crlf lines ++ pending) := by
  simp [openText]

@[simp] theorem headText_length (reqLine : Bytes) (lines : List Bytes) :
    (headText reqLine lines).length = reqLine.length + (ended crlf lines).length + 4 := by
  simp only [headText, length_append, length_cons, length_nil]
  omega

@[simp] theorem openText_length (reqLine : Bytes) (lines : List Bytes) (pending : Bytes) :
    (openText reqLine lines pending).length =
      reqLine.length + 2 + (ended crlf lines).length + pending.length := by
  simp only [openText, length_append, length_cons, length_nil]

theorem length_le_ended (lines : List Bytes) : 2 * lines.length ≤ (ended crlf lines).length := by
  induction lines with
  | nil => simp
  | cons x lines ih =>
    simp only [ended_cons, length_append, length_cons, length_nil]
    omega

theorem length_ended_split (pre post : List Bytes) (x : Bytes) :
    (ended crlf (pre ++ x :: post)).length =
      (ended crlf pre).length + (x.length + 2 + (ended crlf post).length) := by
  rw [ended_append, ended_cons, length_append, length_append, length_append]
  rfl

/-- The three shapes of a receive buffer. -/
theorem exists_shape (raw : Bytes) :
    find crlf raw = none ∨
      ∃ reqLine lines, find crlf reqLine = none ∧ (∀ x ∈ lines, IsLine x) ∧
        ((∃ rest, raw = headText reqLine lines ++ rest) ∨
          ∃ pending, find crlf pending = none ∧ raw = openText reqLine lines pending) := by
  cases hf : find crlf raw with
  | none => exact .inl rfl
  | some eol =>
    obtain ⟨reqLine, tail, rfl, -, hreq⟩ := find_terminated_eq_some hf
    obtain ⟨lines, hlines, hshape⟩ := exists_lines (a := cr) (b := lf) tail
    refine .inr ⟨reqLine, lines, hreq, hlines, ?_⟩
    rcases hshape with ⟨rest, rfl⟩ | ⟨pending, hpending, rfl⟩
    · exact .inl ⟨rest, (headText_eq reqLine lines rest).symm⟩
    · exact .inr ⟨pending, hpending, (openText_eq reqLine lines pending).symm⟩

theorem findFrom_append (pat front back : Bytes) :
    findFrom pat (front ++ back) front.length = (find pat back).map (· + front.length) := by
  simp [findFrom]

/-- The next line of a text that goes on with a line and its terminator. -/
theorem findFrom_line {line : Bytes} (h : find crlf line = none) (front back : Bytes) :
    findFrom crlf (front ++ (line ++ crlf ++ back)) front.length =
      some (front.length + line.length) := by
  have hline : find crlf (line ++ crlf ++ back) = some line.length := by
    have hfind := find_terminated cr_ne_lf h back
    simpa using hfind
  rw [findFrom_append, hline]
  simp [add_comm]

/-! ## The block search -/

variable (limits : ParserLimits)

/-- Part of a request line. -/
theorem findCompleteHttp1HeaderBlock_part {raw : Bytes}
    (h : find crlf raw = none) :
    findCompleteHttp1HeaderBlock raw limits =
      { status :=
          if limits.maxRequestLineSize < raw.length then .uriTooLong else .incomplete } := by
  unfold findCompleteHttp1HeaderBlock
  rw [h]
  by_cases hlong : limits.maxRequestLineSize < raw.length
  · simp [hlong]
  · simp [hlong]

variable {reqLine : Bytes}

variable {lines : List Bytes} {pending : Bytes}

/-- A complete block: only its two sizes are checked. -/
theorem findCompleteHttp1HeaderBlock_complete
    (hreq : find crlf reqLine = none) (hlines : ∀ x ∈ lines, IsLine x) (rest : Bytes) :
    findCompleteHttp1HeaderBlock (headText reqLine lines ++ rest) limits =
      if limits.maxRequestLineSize < reqLine.length then { status := .uriTooLong }
      else if limits.maxHeaderBlockSize < (ended crlf lines).length - 2 then
        { status := .headerBlockTooLarge }
      else
        { status := .ok
          bounds := { requestLineEnd := reqLine.length, headerStart := reqLine.length + 2,
                      headerEnd := reqLine.length + (ended crlf lines).length } } := by
  have heol : find crlf (headText reqLine lines ++ rest) = some reqLine.length := by
    rw [headText_eq]
    exact find_terminated cr_ne_lf hreq _
  have hend : findFrom (crlf ++ crlf) (headText reqLine lines ++ rest) reqLine.length =
      some (reqLine.length + (ended crlf lines).length) := by
    have hblank := find_blank cr_ne_lf hlines rest
    rw [headText_eq, findFrom_append]
    change (find [cr, lf, cr, lf] _).map _ = _
    rw [hblank]
    simp [add_comm]
  have hsize : (if reqLine.length + 2 < reqLine.length + (ended crlf lines).length then
      reqLine.length + (ended crlf lines).length - (reqLine.length + 2) else 0) =
      (ended crlf lines).length - 2 := by
    split <;> omega
  unfold findCompleteHttp1HeaderBlock
  rw [heol]
  simp only [hend, hsize]

/-- The lines of an unfinished block are passed one by one. -/
theorem pendingLines_iff (hlines : ∀ x ∈ lines, IsLine x)
    (hpending : find crlf pending = none) (front : Bytes) (rounds headerCount : Nat)
    (hrounds : lines.length < rounds) (hcount : headerCount ≤ limits.maxHeaders) :
    pendingLines (front ++ (ended crlf lines ++ pending)) limits rounds headerCount
        front.length ≠ .ok ∧
      (pendingLines (front ++ (ended crlf lines ++ pending)) limits rounds headerCount
          front.length = .incomplete ↔
        (∀ x ∈ lines, x.length ≤ limits.maxHeaderLineSize) ∧
          headerCount + lines.length ≤ limits.maxHeaders ∧
          pending.length ≤ limits.maxHeaderLineSize) := by
  induction lines generalizing front rounds headerCount with
  | nil =>
    obtain ⟨rounds, rfl⟩ := Nat.exists_eq_succ_of_ne_zero (Nat.ne_of_gt hrounds)
    have hnone : findFrom crlf (front ++ pending) front.length = none := by
      rw [findFrom_append, hpending]
      rfl
    have hsize : (front ++ pending).length - front.length = pending.length := by simp
    rw [ended_nil, nil_append, pendingLines]
    simp only [hnone, hsize]
    by_cases hempty : pending = []
    · simp [hempty, hcount]
    have hpos : front.length < (front ++ pending).length := by
      simpa using length_pos_iff.mpr hempty
    rw [if_pos hpos]
    by_cases hlong : limits.maxHeaderLineSize < pending.length
    · simp [hlong]
    · simp [hlong, hcount, Nat.not_lt.mp hlong]
  | cons x lines ih =>
    obtain ⟨rounds, rfl⟩ := Nat.exists_eq_succ_of_ne_zero (Nat.ne_zero_of_lt hrounds)
    have hx : IsLine x := hlines x mem_cons_self
    have hrest : ∀ y ∈ lines, IsLine y := fun y hy => hlines y (mem_cons_of_mem x hy)
    have htext : front ++ (ended crlf (x :: lines) ++ pending) =
        front ++ (x ++ crlf ++ (ended crlf lines ++ pending)) := by simp
    have hfind := findFrom_line hx.2 front (ended crlf lines ++ pending)
    have hpos : front.length < (front ++ (x ++ crlf ++ (ended crlf lines ++ pending))).length := by
      simp only [length_append, length_cons, length_nil]
      omega
    rw [htext, pendingLines, if_pos hpos]
    simp only [hfind, Nat.add_sub_cancel_left]
    by_cases hlong : limits.maxHeaderLineSize < x.length
    · simp only [if_pos hlong]
      refine ⟨by simp, ⟨by simp, ?_⟩⟩
      rintro ⟨hall, -⟩
      have := hall x mem_cons_self
      omega
    rw [if_neg hlong]
    by_cases hmany : limits.maxHeaders < headerCount + 1
    · simp only [if_pos hmany]
      refine ⟨by simp, ⟨by simp, ?_⟩⟩
      rintro ⟨-, hle, -⟩
      rw [length_cons] at hle
      omega
    rw [if_neg hmany]
    have hfront : front.length + x.length + 2 = (front ++ (x ++ crlf)).length := by
      simp [Nat.add_assoc]
    have hassoc : front ++ (x ++ crlf ++ (ended crlf lines ++ pending)) =
        front ++ (x ++ crlf) ++ (ended crlf lines ++ pending) := by
      simp
    have hnext := ih hrest (front ++ (x ++ crlf)) rounds (headerCount + 1)
      (by simpa using hrounds) (Nat.not_lt.mp hmany)
    rw [hfront, hassoc]
    refine ⟨hnext.1, hnext.2.trans ?_⟩
    rw [forall_mem_cons, length_cons]
    constructor
    · rintro ⟨hall, hle, hp⟩
      exact ⟨⟨Nat.not_lt.mp hlong, hall⟩, by omega, hp⟩
    · rintro ⟨⟨-, hall⟩, hle, hp⟩
      exact ⟨hall, by omega, hp⟩

/-- An unfinished block is never taken for complete, and more is asked for exactly when every size
is within its limit. -/
theorem findCompleteHttp1HeaderBlock_open (hreq : find crlf reqLine = none)
    (hlines : ∀ x ∈ lines, IsLine x) (hpending : find crlf pending = none) :
    (findCompleteHttp1HeaderBlock (openText reqLine lines pending) limits).status ≠ .ok ∧
      ((findCompleteHttp1HeaderBlock (openText reqLine lines pending) limits).status =
          .incomplete ↔
        reqLine.length ≤ limits.maxRequestLineSize ∧
          (ended crlf lines).length + pending.length ≤ limits.maxHeaderBlockSize ∧
          (∀ x ∈ lines, x.length ≤ limits.maxHeaderLineSize) ∧
          lines.length ≤ limits.maxHeaders ∧ pending.length ≤ limits.maxHeaderLineSize) := by
  have heol : find crlf (openText reqLine lines pending) = some reqLine.length := by
    rw [openText_eq]
    exact find_terminated cr_ne_lf hreq _
  have hend : findFrom (crlf ++ crlf) (openText reqLine lines pending) reqLine.length = none := by
    have hblank := find_blank_eq_none cr_ne_lf hlines hpending
    rw [openText_eq, findFrom_append]
    change (find [cr, lf, cr, lf] _).map _ = _
    rw [hblank]
    rfl
  have hsize : (openText reqLine lines pending).length - (reqLine.length + 2) =
      (ended crlf lines).length + pending.length := by
    rw [openText_length]
    omega
  have hscan := pendingLines_iff limits hlines hpending (reqLine ++ crlf)
    (openText reqLine lines pending).length 0
    (by have := length_le_ended lines; rw [openText_length]; omega) (Nat.zero_le _)
  have hstart : (reqLine ++ crlf).length = reqLine.length + 2 := by simp
  have htext : reqLine ++ crlf ++ (ended crlf lines ++ pending) =
      openText reqLine lines pending := by simp [openText]
  rw [hstart, htext, Nat.zero_add] at hscan
  unfold findCompleteHttp1HeaderBlock
  rw [heol]
  simp only [hend, hsize]
  by_cases huri : limits.maxRequestLineSize < reqLine.length
  · simp only [if_pos huri]
    refine ⟨by simp, ⟨by simp, ?_⟩⟩
    rintro ⟨hle, -⟩
    omega
  rw [if_neg huri]
  by_cases hblock : reqLine.length + 2 < (openText reqLine lines pending).length ∧
      limits.maxHeaderBlockSize < (ended crlf lines).length + pending.length
  · simp only [if_pos hblock]
    refine ⟨by simp, ⟨by simp, ?_⟩⟩
    rintro ⟨-, hle, -⟩
    omega
  have hfits : (ended crlf lines).length + pending.length ≤ limits.maxHeaderBlockSize := by
    rw [openText_length] at hblock
    omega
  rw [if_neg hblock]
  refine ⟨hscan.1, hscan.2.trans ?_⟩
  constructor
  · rintro ⟨hall, hle, hp⟩
    exact ⟨Nat.not_lt.mp huri, hfits, hall, hle, hp⟩
  · rintro ⟨-, -, hall, hle, hp⟩
    exact ⟨hall, hle, hp⟩

end Conflux.Http.Head
