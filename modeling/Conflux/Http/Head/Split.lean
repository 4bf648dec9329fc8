import Conflux.Http.Head.Grammar

/-!
# A request head that arrives in pieces

The buffers received before an accepted one are answered with a request for more, but for one
thing: a buffer may end between the two bytes of a terminator, and the carriage return is then
counted with the line and with the block.
-/

namespace Conflux.Http.Head

open Conflux.Core List RequestHead Ascii

/-- A head whose sizes leave room for the carriage return of an unfinished terminator. -/
structure RequestHead.HasRoom (h : RequestHead) (limits : ParserLimits) : Prop where
  requestLine : h.requestLine.length < limits.maxRequestLineSize
  block : (ended crlf h.lines).length < limits.maxHeaderBlockSize
  line : ∀ x ∈ h.lines, x.length < limits.maxHeaderLineSize
  lastLine : 0 < limits.maxHeaderLineSize

variable {limits : ParserLimits} {reqLine : Bytes} {pre post : List Bytes}

/-- Without a complete block the search decides the answer. -/
theorem parseRequest_of_block {raw : Bytes}
    (h : (findCompleteHttp1HeaderBlock raw limits).status ≠ .ok) (out : ParsedRequest) :
    (parseRequest raw limits out).1 = (findCompleteHttp1HeaderBlock raw limits).status := by
  unfold parseRequest
  simp [h]

variable {k : Nat} {lines : List Bytes} {x : Bytes}

/-- Part of a request line: the answer depends on how much of it there is. -/
theorem parseRequest_part_iff (hreq : find crlf reqLine = none) (hk : k < reqLine.length + 2)
    (limits : ParserLimits) (out : ParsedRequest) :
    (parseRequest ((reqLine ++ crlf).take k) limits out).1 = .incomplete ↔
      k ≤ limits.maxRequestLineSize := by
  have hclear : find crlf ((reqLine ++ crlf).take k) = none :=
    find_take_terminated cr_ne_lf hreq hk
  have hlen : ((reqLine ++ crlf).take k).length = k := by
    apply length_take_of_le
    simp only [length_append, length_cons, length_nil]
    omega
  have hblock := findCompleteHttp1HeaderBlock_part limits hclear
  rw [hlen] at hblock
  by_cases hlong : limits.maxRequestLineSize < k
  · have hstatus : (parseRequest ((reqLine ++ crlf).take k) limits out).1 = .uriTooLong := by
      rw [if_pos hlong] at hblock
      rw [parseRequest_of_block (by simp [hblock]), hblock]
    rw [hstatus]
    constructor
    · intro h
      cases h
    · intro h
      omega
  have hstatus : (parseRequest ((reqLine ++ crlf).take k) limits out).1 = .incomplete := by
    rw [if_neg hlong] at hblock
    rw [parseRequest_of_block (by simp [hblock]), hblock]
  rw [hstatus]
  exact ⟨fun _ => Nat.not_lt.mp hlong, fun _ => rfl⟩

/-- An unfinished block: the answer depends on the sizes so far. -/
theorem parseRequest_open_iff (hreq : find crlf reqLine = none) (hlines : ∀ x ∈ lines, IsLine x)
    {pending : Bytes} (hpending : find crlf pending = none) (out : ParsedRequest) :
    (parseRequest (openText reqLine lines pending) limits out).1 = .incomplete ↔
      reqLine.length ≤ limits.maxRequestLineSize ∧
        (ended crlf lines).length + pending.length ≤ limits.maxHeaderBlockSize ∧
        (∀ x ∈ lines, x.length ≤ limits.maxHeaderLineSize) ∧
        lines.length ≤ limits.maxHeaders ∧ pending.length ≤ limits.maxHeaderLineSize := by
  have hopen := findCompleteHttp1HeaderBlock_open limits hreq hlines hpending
  rw [parseRequest_of_block hopen.1]
  exact hopen.2

/-- A buffer that ends behind the request line and before the end of the head. -/
theorem take_headText (hlow : reqLine.length + 2 ≤ k) (hk : k < (headText reqLine lines).length) :
    ∃ pre x post, ∃ i, lines ++ [[]] = pre ++ x :: post ∧ i < x.length + 2 ∧
      (headText reqLine lines).take k = openText reqLine pre ((x ++ crlf).take i) := by
  have hended : ended crlf (lines ++ [[]]) = ended crlf lines ++ crlf := by simp
  have hj : k - (reqLine.length + 2) < (ended crlf (lines ++ [[]])).length := by
    rw [headText_length] at hk
    rw [hended, length_append, length_cons, length_cons, length_nil]
    omega
  obtain ⟨pre, x, post, i, hsplit, hi, htake⟩ := take_ended hj
  refine ⟨pre, x, post, i, hsplit, hi, ?_⟩
  have htext : headText reqLine lines = reqLine ++ crlf ++ ended crlf (lines ++ [[]]) := by
    rw [hended]
    simp [headText]
  have hfront : (reqLine ++ crlf).length = reqLine.length + 2 := by simp
  rw [htext, take_append, take_of_length_le (by rw [hfront]; exact hlow), hfront, htake]
  simp [openText]

/-- The lines before some line of a head. -/
theorem mem_of_split (h : lines ++ [[]] = pre ++ x :: post) :
    pre <+: lines ∧ (x ∈ lines ∨ x = []) := by
  have hlen := congrArg List.length h
  simp only [length_append, length_cons, length_nil] at hlen
  refine ⟨?_, ?_⟩
  · have hpre : pre <+: lines ++ [[]] := ⟨x :: post, h.symm⟩
    exact prefix_of_prefix_length_le hpre (prefix_append lines _) (by omega)
  have hmem : x ∈ lines ++ [[]] := by
    rw [h]
    exact mem_append_right pre mem_cons_self
  simpa using hmem

theorem find_crlf_line_or_nil (hlines : ∀ x ∈ lines, IsLine x) (hx : x ∈ lines ∨ x = []) :
    find crlf x = none := by
  rcases hx with hmem | rfl
  · exact (hlines x hmem).2
  · rfl

/-- With room at the limits every shorter buffer is answered with a request for more. -/
theorem parseRequest_take_of_hasRoom {head : RequestHead} (hfits : head.Fits limits)
    (hroom : head.HasRoom limits) (hk : k < head.text.length) (out : ParsedRequest) :
    (parseRequest (head.text.take k) limits out).1 = .incomplete := by
  have hreq := head.find_requestLine
  by_cases hlow : k < head.requestLine.length + 2
  · have hpart : head.text.take k = (head.requestLine ++ crlf).take k := by
      rw [text, headText, append_assoc (head.requestLine ++ crlf)]
      apply take_append_of_le_length
      simp only [length_append, length_cons, length_nil]
      omega
    rw [hpart, parseRequest_part_iff hreq hlow]
    have := hroom.requestLine
    omega
  obtain ⟨pre, x, post, i, hsplit, hi, htake⟩ :=
    take_headText (Nat.not_lt.mp hlow) (show k < (headText _ _).length from hk)
  obtain ⟨hpre, hx⟩ := mem_of_split hsplit
  have hlen : ((x ++ crlf).take i).length = i := by
    apply length_take_of_le
    simp only [length_append, length_cons, length_nil]
    omega
  have hclear := find_take_terminated cr_ne_lf (find_crlf_line_or_nil head.isLine_lines hx) hi
  have hlines : ∀ y ∈ pre, IsLine y := fun y hy => head.isLine_lines y (hpre.subset hy)
  rw [text, htake, parseRequest_open_iff hreq hlines hclear, hlen]
  have hsize : (ended crlf head.lines).length + 2 =
      (ended crlf pre).length + (x.length + 2 + (ended crlf post).length) := by
    rw [← length_ended_split, ← hsplit]
    simp
  have hxlen : x.length < limits.maxHeaderLineSize := by
    rcases hx with hmem | rfl
    · exact hroom.line x hmem
    · exact hroom.lastLine
  have hblock := hroom.block
  refine ⟨hfits.requestLine, by omega, ?_, ?_, by omega⟩
  · intro y hy
    exact hfits.line y (hpre.subset hy)
  · exact Nat.le_trans hpre.length_le hfits.count

/-- The buffer that ends between the two bytes of a line's terminator. -/
theorem headText_take_line :
    (headText reqLine (pre ++ x :: post)).take
        (reqLine.length + 2 + (ended crlf pre).length + (x.length + 1)) =
      openText reqLine pre (x ++ [cr]) := by
  have htext : headText reqLine (pre ++ x :: post) =
      openText reqLine pre (x ++ [cr]) ++ (lf :: (ended crlf post ++ crlf)) := by
    simp [headText, openText]
  have hlen : (openText reqLine pre (x ++ [cr])).length =
      reqLine.length + 2 + (ended crlf pre).length + (x.length + 1) := by
    rw [openText_length, length_append, length_cons, length_nil]
  rw [htext, ← hlen, take_left]

/-- If every shorter buffer is answered with a request for more, there is room. -/
theorem hasRoom_of_parseRequest_take {head : RequestHead} (h : ∀ k < head.text.length, ∀ out,
      (parseRequest (head.text.take k) limits out).1 = .incomplete) :
    head.HasRoom limits := by
  have hreq := head.find_requestLine
  have htext : head.text.length =
      head.requestLine.length + (ended crlf head.lines).length + 4 := headText_length _ _
  -- The buffer ends with the carriage return of the last, empty line.
  have hlast : 0 < limits.maxHeaderLineSize ∧
      (ended crlf head.lines).length < limits.maxHeaderBlockSize := by
    have htake : head.text.take
        (head.requestLine.length + 2 + (ended crlf head.lines).length + 1) =
        openText head.requestLine head.lines [cr] := by
      have hsplit : head.text = openText head.requestLine head.lines [cr] ++ [lf] := by
        simp [text, headText, openText]
      rw [hsplit]
      exact take_left' (by rw [openText_length]; rfl)
    have hinc := h (head.requestLine.length + 2 + (ended crlf head.lines).length + 1) (by omega) {}
    rw [htake, parseRequest_open_iff hreq head.isLine_lines (by decide)] at hinc
    obtain ⟨-, hblock, -, -, hline⟩ := hinc
    exact ⟨hline, hblock⟩
  refine ⟨?_, hlast.2, ?_, hlast.1⟩
  · have hinc := h (head.requestLine.length + 1) (by omega) {}
    have hpart : head.text.take (head.requestLine.length + 1) =
        (head.requestLine ++ crlf).take (head.requestLine.length + 1) := by
      rw [text, headText, append_assoc (head.requestLine ++ crlf)]
      apply take_append_of_le_length
      simp
    rw [hpart, parseRequest_part_iff hreq (by omega)] at hinc
    exact hinc
  intro x hx
  obtain ⟨pre, post, hsplit⟩ := append_of_mem hx
  have hline := head.isLine_lines x hx
  have hlines : ∀ y ∈ pre, IsLine y := by
    intro y hy
    apply head.isLine_lines y
    rw [hsplit]
    exact mem_append_left _ hy
  have hsize : (ended crlf head.lines).length =
      (ended crlf pre).length + (x.length + 2 + (ended crlf post).length) := by
    rw [hsplit, length_ended_split]
  have hinc := h (head.requestLine.length + 2 + (ended crlf pre).length + (x.length + 1))
    (by omega) {}
  rw [text, hsplit, headText_take_line,
    parseRequest_open_iff hreq hlines (find_half cr_ne_lf hline.2)] at hinc
  obtain ⟨-, -, -, -, hpending⟩ := hinc
  rw [length_append] at hpending
  exact hpending

/-- Receiving an accepted request in pieces: what comes behind it changes nothing, and the
pieces before it are all answered with a request for more exactly when no size of the head is
at its limit. -/
theorem parseRequest_pieces {raw : Bytes} {limits : ParserLimits} {out req : ParsedRequest}
    (h : parseRequest raw limits out = (.ok, req)) :
    (∀ (more : Bytes) (out' : ParsedRequest),
      parseRequest (raw ++ more) limits out' = (.ok, req)) ∧
    ∃ head : RequestHead, head.text <+: raw ∧ req = head.result ∧
      ((∀ k < req.headerEndOffset + 4, ∀ out',
          (parseRequest (raw.take k) limits out').1 = .incomplete) ↔
        head.HasRoom limits) := by
  obtain ⟨head, rest, rfl, hfits, rfl⟩ := exists_of_parseRequest h
  have hlen : head.result.headerEndOffset + 4 = head.text.length := (headText_length _ _).symm
  have htake : ∀ k < head.text.length, (head.text ++ rest).take k = head.text.take k :=
    fun k hk => take_append_of_le_length (Nat.le_of_lt hk)
  refine ⟨?_, head, ⟨rest, rfl⟩, rfl, ?_⟩
  · intro more out'
    rw [append_assoc]
    exact parseRequest_text head hfits (rest ++ more) out'
  rw [hlen]
  constructor
  · intro hall
    apply hasRoom_of_parseRequest_take
    intro k hk out'
    rw [← htake k hk]
    exact hall k hk out'
  · intro hroom k hk out'
    rw [htake k hk]
    exact parseRequest_take_of_hasRoom hfits hroom hk out'

/-- A byte behind an accepted request changes nothing. -/
theorem parseRequest_pieces_sampleHead :
    parseRequest sampleHead {} {} = (.ok, sampleRequest) ∧
      parseRequest (sampleHead ++ [0x7A]) {} {} = (.ok, sampleRequest) :=
  have h : parseRequest sampleHead {} {} = (.ok, sampleRequest) := by decide +kernel
  ⟨h, (parseRequest_pieces h).1 [0x7A] {}⟩

/-- A request line of exactly the limit: the head is accepted, the buffer that ends with its
carriage return is rejected. -/
theorem parseRequest_sampleHead_atLimit :
    parseRequest sampleHead { maxRequestLineSize := 14 } {} = (.ok, sampleRequest) ∧
      (parseRequest (sampleHead.take 15) { maxRequestLineSize := 14 } {}).1 = .uriTooLong := by
  decide +kernel

end Conflux.Http.Head
