import Conflux.Http.Response.Model
import Conflux.Http.Head.Grammar
import Conflux.Core.Utf8

/-!
# The framing of a response

The head of a response is its status line and one line for each of its fields that is kept and
for each field of the server. No line has a line end in it, so a reader who cuts the text at
its first empty line, and the head at its line ends, gets the fields and the body back.
-/

namespace Conflux.Http.Framing

open Conflux.Core List Bool Response Ascii
open Head (isTchar headText)

/-! ## Fields -/

/-- A field that a handler gives to a response. -/
inductive ResponseField where
  | contentType (text : Bytes)
  | header (name text : Bytes)
  | cookie (text : Bytes)
  deriving DecidableEq, Repr

namespace ResponseField

/-- The name and the value in HTTP/1. -/
def line : ResponseField → Bytes × Bytes
  | .contentType text => (ascii "Content-Type", text)
  | .header name text => (name, text)
  | .cookie text => (ascii "Set-Cookie", text)

/-- A valid field that does not concern the framing. -/
def kept : ResponseField → Bool
  | .contentType text => !text.isEmpty && isValidHeaderValue text
  | .header name text =>
    !isResponseFramingHeader name && isValidHeaderName name && isValidHeaderValue text
  | .cookie text => isValidHeaderValue text

end ResponseField

/-- The lines of the fields that are kept. -/
def keptLines (fields : List ResponseField) : List (Bytes × Bytes) :=
  (fields.filter ResponseField.kept).map ResponseField.line

namespace Response

/-- The headers and the cookies. -/
def laterFields (r : Response) : List ResponseField :=
  r.headers.map (fun field => .header field.1 field.2) ++ r.setCookies.map .cookie

/-- The fields that a handler gives. -/
def fields (r : Response) : List ResponseField :=
  .contentType r.contentType :: r.laterFields

/-- The server's length line. -/
def contentLengthLines (r : Response) : List (Bytes × Bytes) :=
  if r.status = 304 then
    if r.contentLengthHint ≠ 0 then [(ascii "Content-Length", decimal r.contentLengthHint)]
    else []
  else if mustNotHaveBody r.status then []
  else [(ascii "Content-Length", decimal r.contentLength)]

/-- The server's last lines. -/
def lastLines (altSvc : Bytes) (close : Bool) : List (Bytes × Bytes) :=
  (if altSvc.isEmpty then [] else [(ascii "Alt-Svc", altSvc)]) ++
    [(ascii "Connection", if close then ascii "close" else ascii "keep-alive")]

/-- The server's own lines. -/
def serverLines (r : Response) (altSvc : Bytes) (close : Bool) (now : Option Tm) :
    List (Bytes × Bytes) :=
  (ascii "Date", httpDate now) :: (r.contentLengthLines ++ lastLines altSvc close)

/-- The lines of a head in their order. -/
def lines (r : Response) (altSvc : Bytes) (close : Bool) (now : Option Tm) :
    List (Bytes × Bytes) :=
  (ascii "Date", httpDate now) :: (keptLines [.contentType r.contentType] ++
    r.contentLengthLines ++ keptLines r.laterFields ++ lastLines altSvc close)

/-- The status line without its terminator. -/
def statusLine (r : Response) : Bytes :=
  ascii "HTTP/1.1 " ++ signedDecimal r.status ++ ascii " " ++
    if isValidReasonPhrase r.statusText then r.statusText else []

/-- What follows the head. -/
def sentBody (r : Response) : Bytes :=
  if r.includeBody then r.textBody else []

/-- The response switches to the WebSocket protocol. -/
def isUpgrade (r : Response) : Bool :=
  match r.body with
  | .wsUpgrade (some _) => true
  | _ => false

end Response

/-- A field as a line of the head. -/
def fieldText (field : Bytes × Bytes) : Bytes :=
  field.1 ++ ascii ": " ++ field.2

/-! ## The text of the head -/

theorem keptLines_append (fields fields' : List ResponseField) :
    keptLines (fields ++ fields') = keptLines fields ++ keptLines fields' := by
  simp [keptLines]

theorem ended_keptLines_singleton (f : ResponseField) :
    ended crlf ((keptLines [f]).map fieldText) =
      if f.kept then fieldText f.line ++ crlf else [] := by
  cases hkept : f.kept <;> simp [keptLines, hkept]

/-- A run over fields that writes the line of each field that is kept. -/
theorem flatMap_eq_ended {α : Type} {text : α → Bytes} {toField : α → ResponseField}
    (h : ∀ x, text x = if (toField x).kept then fieldText (toField x).line ++ crlf else [])
    (xs : List α) :
    xs.flatMap text = ended crlf ((keptLines (xs.map toField)).map fieldText) := by
  induction xs with
  | nil => rfl
  | cons x xs ih =>
    have hcons : toField x :: xs.map toField = [toField x] ++ xs.map toField := rfl
    rw [flatMap_cons, ih, h, ← ended_keptLines_singleton, map_cons, hcons,
      keptLines_append, map_append, ended_append]

open ResponseField

theorem headerLine_eq (field : Bytes × Bytes) :
    headerLine field =
      let f := header field.1 field.2
      if f.kept then fieldText f.line ++ crlf else [] := by
  cases hframing : isResponseFramingHeader field.1 with
  | true => simp [headerLine, kept, hframing]
  | false =>
    cases hname : isValidHeaderName field.1 with
    | false => simp [headerLine, kept, hframing, hname]
    | true =>
      cases hvalue : isValidHeaderValue field.2 with
      | false => simp [headerLine, kept, hframing, hname, hvalue]
      | true =>
        simp [headerLine, kept, line, fieldText, hframing, hname,
          hvalue]

theorem cookieLine_eq (cookie : Bytes) :
    cookieLine cookie =
      let f := ResponseField.cookie cookie
      if f.kept then fieldText f.line ++ crlf else [] := by
  have hname : ascii "Set-Cookie: " = ascii "Set-Cookie" ++ ascii ": " := by decide
  cases hvalid : isValidHeaderValue cookie with
  | true => simp [cookieLine, ResponseField.kept, ResponseField.line, fieldText, hvalid, hname]
  | false => simp [cookieLine, ResponseField.kept, hvalid]

theorem ended_laterFields (r : Response) :
    ended crlf ((keptLines r.laterFields).map fieldText) =
      r.headers.flatMap headerLine ++ r.setCookies.flatMap cookieLine := by
  rw [flatMap_eq_ended headerLine_eq, flatMap_eq_ended cookieLine_eq, Response.laterFields,
    keptLines_append, map_append, ended_append]

theorem ended_contentType (text : Bytes) :
    ended crlf ((keptLines [.contentType text]).map fieldText) =
      if !text.isEmpty && isValidHeaderValue text then ascii "Content-Type: " ++ text ++ crlf
      else [] := by
  have hname : ascii "Content-Type: " = ascii "Content-Type" ++ ascii ": " := by decide
  rw [ended_keptLines_singleton, hname]
  rfl

theorem ended_contentLengthLines (r : Response) :
    ended crlf (r.contentLengthLines.map fieldText) =
      if r.status = 304 then
        if r.contentLengthHint ≠ 0 then
          ascii "Content-Length: " ++ decimal r.contentLengthHint ++ crlf else []
      else if !mustNotHaveBody r.status then
        ascii "Content-Length: " ++ decimal r.contentLength ++ crlf
      else [] := by
  have hname : ascii "Content-Length: " = ascii "Content-Length" ++ ascii ": " := by decide
  have hline (n : Nat) : ended crlf ([(ascii "Content-Length", decimal n)].map fieldText) =
      ascii "Content-Length: " ++ decimal n ++ crlf := by
    simp [fieldText, hname]
  rw [contentLengthLines]
  split
  · split
    · exact hline r.contentLengthHint
    · rfl
  cases mustNotHaveBody r.status with
  | true => rfl
  | false => exact hline r.contentLength

theorem ended_lastLines (altSvc : Bytes) (close : Bool) :
    ended crlf ((lastLines altSvc close).map fieldText) =
      (if !altSvc.isEmpty then ascii "Alt-Svc: " ++ altSvc ++ crlf else []) ++
        (if close then ascii "Connection: close" else ascii "Connection: keep-alive") ++
        crlf := by
  have halt : fieldText (ascii "Alt-Svc", altSvc) = ascii "Alt-Svc: " ++ altSvc := by
    have hname : ascii "Alt-Svc: " = ascii "Alt-Svc" ++ ascii ": " := by decide
    rw [fieldText, hname]
  have hclose : fieldText (ascii "Connection", if close then ascii "close" else
      ascii "keep-alive") =
        if close then ascii "Connection: close" else ascii "Connection: keep-alive" := by
    cases close <;> decide
  cases altSvc with
  | nil => simp [lastLines, hclose]
  | cons c altSvc => simp [lastLines, hclose, halt]

variable {r : Response} {name altSvc : Bytes} {field : Bytes × Bytes}

/-- The text is the head with these lines, then the body. -/
theorem formatResponse_eq (h : r.isUpgrade = false) (altSvc : Bytes) (close : Bool)
    (now : Option Tm) :
    formatResponse r altSvc close now =
      headText r.statusLine ((r.lines altSvc close now).map fieldText) ++ r.sentBody := by
  have hdate : ascii "Date: " = ascii "Date" ++ ascii ": " := by decide
  have hlines : ended crlf ((r.lines altSvc close now).map fieldText) =
      ascii "Date: " ++ httpDate now ++ crlf ++
        ended crlf ((keptLines [.contentType r.contentType]).map fieldText) ++
        ended crlf (r.contentLengthLines.map fieldText) ++
        ended crlf ((keptLines r.laterFields).map fieldText) ++
        ended crlf ((lastLines altSvc close).map fieldText) := by
    simp only [lines, map_cons, map_append, ended_cons, ended_append,
      fieldText, hdate, append_assoc]
  rw [headText, hlines, ended_contentType, ended_contentLengthLines, ended_laterFields,
    ended_lastLines, statusLine, sentBody]
  cases hbody : r.body with
  | wsUpgrade key =>
    cases key with
    | none => simp only [formatResponse, hbody, append_assoc]
    | some key => simp [isUpgrade, hbody] at h
  | _ => simp only [formatResponse, hbody, append_assoc]

/-! ## Lines without line ends -/

/-- A text of value bytes has no line end. -/
theorem no_line_end {text : Bytes} (h : isValidHeaderValue text = true) :
    cr ∉ text ∧ lf ∉ text := by
  constructor
  all_goals exact fun hm => absurd (all_eq_true.mp h _ hm) (by decide)

theorem isValidHeaderValue_append (text text' : Bytes) :
    isValidHeaderValue (text ++ text') =
      (isValidHeaderValue text && isValidHeaderValue text') :=
  all_append

theorem isValueByte_of_range {u : UInt8} (h : 0x20 ≤ u.toNat ∧ u.toNat < 0x7F) :
    isValueByte u = true := by
  have hlt : ¬ u < 0x20 := by
    rw [UInt8.lt_iff_toNat_lt]
    exact Nat.not_lt.mpr h.1
  have hdel : u ≠ del := by
    rintro rfl
    exact absurd h.2 (by decide)
  simp [isValueByte, hlt, hdel]

theorem isValidHeaderValue_decimal (n : Nat) : isValidHeaderValue (decimal n) = true := by
  refine all_eq_true.mpr fun u hu => isValueByte_of_range ?_
  have hdigit := toNat_of_mem_decimal hu
  omega

theorem isValidHeaderValue_twoDigits (n : Nat) : isValidHeaderValue (twoDigits n) = true := by
  have hdigit (k : Nat) : isValueByte (UInt8.ofNat (0x30 + k % 10)) = true := by
    apply isValueByte_of_range
    rw [UInt8.toNat_ofNat']
    omega
  simp only [isValidHeaderValue, twoDigits, all_cons, all_nil, hdigit, Bool.and_self]

theorem isValidHeaderValue_signedDecimal (n : Int) :
    isValidHeaderValue (signedDecimal n) = true := by
  rw [signedDecimal, isValidHeaderValue_append, isValidHeaderValue_decimal, Bool.and_true]
  split
  · decide
  · rfl

/-- A date has no line end, whatever the clock says. -/
theorem isValidHeaderValue_httpDate (now : Option Tm) :
    isValidHeaderValue (httpDate now) = true := by
  have hepoch : isValidHeaderValue (ascii "Thu, 01 Jan 1970 00:00:00 GMT") = true := by decide
  have hwday (wday : Fin 7) : isValidHeaderValue (wdayName wday) = true := by
    revert wday
    decide
  have hmon (mon : Fin 12) : isValidHeaderValue (monName mon) = true := by
    revert mon
    decide
  have hsigns : isValidHeaderValue (ascii ", ") = true ∧ isValidHeaderValue (ascii " ") = true ∧
      isValidHeaderValue (ascii ":") = true ∧ isValidHeaderValue (ascii " GMT") = true := by
    decide
  cases now with
  | none => exact hepoch
  | some tm =>
    rw [httpDate]
    split
    · simp only [isValidHeaderValue_append, hwday, hmon, isValidHeaderValue_twoDigits,
        isValidHeaderValue_signedDecimal, hsigns, Bool.and_self]
    · exact hepoch

/-- A name and a value that make a line of their own. -/
def IsField (field : Bytes × Bytes) : Prop :=
  isValidHeaderName field.1 = true ∧ isValidHeaderValue field.2 = true

theorem isField_of_name {text : Bytes} (hname : isValidHeaderName name = true)
    (htext : isValidHeaderValue text = true) : IsField (name, text) :=
  ⟨hname, htext⟩

theorem isValueByte_of_isTchar {u : UInt8} (h : isTchar u = true) : isValueByte u = true := by
  have hall := forall_byte (fun u => !isTchar u || isValueByte u) (by decide +kernel) u
  rw [h] at hall
  exact hall

section

variable (h : isValidHeaderName name = true)
include h

theorem isTchar_of_name {u : UInt8} (hu : u ∈ name) :
    isTchar u = true := by
  rw [isValidHeaderName, and_eq_true] at h
  have hbyte := all_eq_true.mp h.2 u hu
  rw [and_eq_true] at hbyte
  exact hbyte.2

theorem isValidHeaderValue_of_name :
    isValidHeaderValue name = true :=
  all_eq_true.mpr fun _ hu => isValueByte_of_isTchar (isTchar_of_name h hu)

theorem colon_notMem_name : colon ∉ name := by
  intro hm
  exact absurd (isTchar_of_name h hm) (by decide)

end

theorem IsField.no_line_end (h : IsField field) : cr ∉ fieldText field ∧ lf ∉ fieldText field := by
  apply Framing.no_line_end
  have hsign : isValidHeaderValue (ascii ": ") = true := by decide
  rw [fieldText, isValidHeaderValue_append, isValidHeaderValue_append,
    isValidHeaderValue_of_name h.1, hsign, h.2]
  rfl

theorem isField_of_kept {f : ResponseField} (h : f.kept = true) : IsField f.line := by
  cases f with
  | contentType text =>
    rw [kept, and_eq_true] at h
    exact isField_of_name (by decide) h.2
  | header name text =>
    rw [kept, and_eq_true, and_eq_true] at h
    exact ⟨h.1.2, h.2⟩
  | cookie text => exact isField_of_name (by decide) h

theorem isField_of_mem_keptLines {fields : List ResponseField} (h : field ∈ keptLines fields) :
    IsField field := by
  obtain ⟨f, hf, rfl⟩ := mem_map.mp h
  exact isField_of_kept (mem_filter.mp hf).2

theorem eq_of_mem_contentLengthLines (h : field ∈ r.contentLengthLines) :
    ∃ n, field = (ascii "Content-Length", decimal n) := by
  rw [contentLengthLines] at h
  repeat' split at h
  all_goals simp only [mem_singleton, not_mem_nil] at h
  all_goals exact ⟨_, h⟩

theorem isField_of_mem_lastLines {close : Bool} (halt : isValidHeaderValue altSvc = true)
    (h : field ∈ lastLines altSvc close) : IsField field := by
  obtain h | h := mem_append.mp h
  · split at h
    · cases h
    · rw [mem_singleton.mp h]
      exact isField_of_name (by decide) halt
  · rw [mem_singleton.mp h]
    refine isField_of_name (by decide) ?_
    cases close <;> decide

/-- Every line of a head is a field. -/
theorem isField_of_mem_lines {close : Bool} {now : Option Tm}
    (halt : isValidHeaderValue altSvc = true) (h : field ∈ r.lines altSvc close now) :
    IsField field := by
  rw [lines, mem_cons, mem_append, mem_append, mem_append] at h
  obtain rfl | ((h | h) | h) | h := h
  · exact isField_of_name (by decide) (isValidHeaderValue_httpDate now)
  · exact isField_of_mem_keptLines h
  · obtain ⟨n, rfl⟩ := eq_of_mem_contentLengthLines h
    exact isField_of_name (by decide) (isValidHeaderValue_decimal n)
  · exact isField_of_mem_keptLines h
  · exact isField_of_mem_lastLines halt h

theorem statusLine_no_line_end (r : Response) : cr ∉ r.statusLine ∧ lf ∉ r.statusLine := by
  apply no_line_end
  have hsigns : isValidHeaderValue (ascii "HTTP/1.1 ") = true ∧
      isValidHeaderValue (ascii " ") = true := by decide
  have hphrase : isValidHeaderValue
      (if isValidReasonPhrase r.statusText then r.statusText else []) = true := by
    split
    · rename_i h
      exact h
    · rfl
  rw [statusLine, isValidHeaderValue_append, isValidHeaderValue_append,
    isValidHeaderValue_append, hsigns.1, hsigns.2, isValidHeaderValue_signedDecimal, hphrase]
  rfl

/-! ## Reading a response back -/

/-- The name and the value of a line. -/
def splitField (line : Bytes) : Bytes × Bytes :=
  match find [colon, sp] line with
  | none => (line, [])
  | some i => (line.take i, line.drop (i + 2))

/-- A message cut at its first empty line: the start line, the fields and the body. -/
def splitMessage (text : Bytes) : Option (Bytes × List (Bytes × Bytes) × Bytes) :=
  match find (crlf ++ crlf) text with
  | none => none
  | some headEnd =>
    match splitLines crlf text.length (text.take (headEnd + 2)) with
    | [] => none
    | start :: lines => some (start, lines.map splitField, text.drop (headEnd + 4))

theorem splitField_fieldText (h : IsField field) : splitField (fieldText field) = field := by
  have hclear : find [colon, sp] field.1 = none :=
    find_cons_eq_none (colon_notMem_name h.1)
  have hfind := find_terminated (by decide) hclear field.2
  have htext : fieldText field = field.1 ++ colon :: sp :: field.2 := by
    rw [fieldText, append_assoc]
    rfl
  rw [htext, splitField, hfind]
  simp

/-- A head whose lines have no line ends, and what is behind it, is read back. -/
theorem splitMessage_headText {start : Bytes} {fields : List (Bytes × Bytes)} {body : Bytes}
    (hne : start ≠ []) (hstart : cr ∉ start) (hfields : ∀ f ∈ fields, IsField f) :
    splitMessage (headText start (fields.map fieldText) ++ body) = some (start, fields, body) := by
  have hlines : ∀ line ∈ start :: fields.map fieldText, line ≠ [] ∧ find crlf line = none := by
    intro line hline
    obtain rfl | hline := mem_cons.mp hline
    · exact ⟨hne, find_cons_eq_none hstart⟩
    obtain ⟨f, hf, rfl⟩ := mem_map.mp hline
    refine ⟨?_, find_cons_eq_none (hfields f hf).no_line_end.1⟩
    simp [fieldText, ascii]
  have hback : (fields.map fieldText).map splitField = fields := by
    rw [map_map]
    conv_rhs => rw [← map_id fields]
    exact map_congr_left fun f hf => splitField_fieldText (hfields f hf)
  generalize fields.map fieldText = lines at hlines hback ⊢
  have hblank := find_blank_of_line cr_ne_lf hlines body
  have htake : (headText start lines ++ body).take
      (start.length + (ended crlf lines).length + 2) = ended crlf (start :: lines) := by
    rw [headText, ← ended_cons, append_assoc]
    refine take_left' ?_
    simp
    omega
  have hdrop : (headText start lines ++ body).drop
      (start.length + (ended crlf lines).length + 4) = body := by
    refine drop_left' ?_
    simp
  have hrounds : (start :: lines).length ≤ (headText start lines ++ body).length := by
    have hle := Head.length_le_ended lines
    simp only [length_append, Head.headText_length, length_cons]
    omega
  have hsplit := splitLines_ended cr_ne_lf (fun line hline => (hlines line hline).2) hrounds
  have hfind : find (crlf ++ crlf) (headText start lines ++ body) =
      some (start.length + (ended crlf lines).length) := by
    rw [Head.headText_eq]
    exact hblank
  rw [splitMessage, hfind]
  dsimp only
  rw [htake, hsplit]
  dsimp only
  rw [hback, hdrop]

/-! ## The declared length -/

/-- The name of the length. -/
def isContentLength (field : Bytes × Bytes) : Bool :=
  asciiIequals field.1 (ascii "content-length")

theorem filter_keptLines (fields : List ResponseField) :
    (keptLines fields).filter isContentLength = [] := by
  refine filter_eq_nil_iff.mpr fun field hfield => ?_
  obtain ⟨f, hf, rfl⟩ := mem_map.mp hfield
  have hkept := (mem_filter.mp hf).2
  cases f with
  | contentType text => exact (by decide : ¬ isContentLength (ascii "Content-Type", [])  = true)
  | header name text =>
    intro hname
    have hframing : isResponseFramingHeader name = true := by
      rw [isResponseFramingHeader, or_eq_true]
      exact .inl hname
    rw [kept, hframing] at hkept
    cases hkept
  | cookie text => exact (by decide : ¬ isContentLength (ascii "Set-Cookie", []) = true)

theorem filter_contentLengthLines (r : Response) :
    r.contentLengthLines.filter isContentLength = r.contentLengthLines := by
  refine filter_eq_self.mpr fun field hfield => ?_
  obtain ⟨n, rfl⟩ := eq_of_mem_contentLengthLines hfield
  exact (by decide : isContentLength (ascii "Content-Length", []) = true)

theorem filter_lastLines (altSvc : Bytes) (close : Bool) :
    (lastLines altSvc close).filter isContentLength = [] := by
  have halt : isContentLength (ascii "Alt-Svc", altSvc) = false :=
    (by decide : isContentLength (ascii "Alt-Svc", []) = false)
  have hclose (text : Bytes) : isContentLength (ascii "Connection", text) = false :=
    (by decide : isContentLength (ascii "Connection", []) = false)
  rw [lastLines, filter_append]
  split
  · simp [hclose]
  · simp [hclose, halt]

/-- Only the server's own line declares a length. -/
theorem filter_lines (r : Response) (altSvc : Bytes) (close : Bool) (now : Option Tm) :
    (r.lines altSvc close now).filter isContentLength = r.contentLengthLines := by
  have hdate : isContentLength (ascii "Date", httpDate now) = false :=
    (by decide : isContentLength (ascii "Date", []) = false)
  rw [lines, filter_cons_of_neg (by rw [hdate]; exact false_ne_true)]
  simp only [filter_append, filter_keptLines, filter_contentLengthLines, filter_lastLines,
    nil_append, append_nil]

/-- With a body, one length is declared. -/
theorem contentLengthLines_of_includeBody (h : r.includeBody = true) :
    r.contentLengthLines =
      [(ascii "Content-Length",
        decimal (if r.contentLengthHint ≠ 0 then r.contentLengthHint
          else r.sentBody.length))] := by
  have hparts := h
  simp only [includeBody, and_eq_true, not_eq_true', or_eq_false_iff] at hparts
  obtain ⟨⟨⟨hstatus, -⟩, hmapped⟩, hstreamed⟩ := hparts
  have h304 : r.status ≠ 304 := by
    intro h304
    rw [h304] at hstatus
    cases hstatus
  have hlength : r.contentLength =
      if r.contentLengthHint ≠ 0 then r.contentLengthHint else r.sentBody.length := by
    rw [contentLength, sentBody, if_pos h]
    cases hbody : r.body with
    | mappedFile => simp [isMappedFile, hbody] at hmapped
    | streamedFile => simp [isStreamedFile, hbody] at hstreamed
    | _ => rfl
  rw [Response.contentLengthLines, if_neg h304, hstatus, if_neg Bool.false_ne_true, hlength]

theorem lines_perm (r : Response) (altSvc : Bytes) (close : Bool) (now : Option Tm) :
    (r.lines altSvc close now).Perm (r.serverLines altSvc close now ++ keptLines r.fields) := by
  have hfields : keptLines r.fields =
      keptLines [.contentType r.contentType] ++ keptLines r.laterFields :=
    keptLines_append [.contentType r.contentType] r.laterFields
  rw [hfields, lines, serverLines, cons_append]
  refine Perm.cons _ (perm_iff_count.mpr fun field => ?_)
  simp only [count_append]
  omega

/-- A response that is not an upgrade is one head and its body. The lines of the head are those of
the server and of the valid fields that do not concern the framing, without line ends, and a
reader gets them and the body back. At most one line declares a length; with a body one does, and
it is that of the body unless the response sets another. -/
theorem formatResponse_framed (r : Response) (altSvc : Bytes) (close : Bool) (now : Option Tm)
    (hupgrade : r.isUpgrade = false) (halt : isValidHeaderValue altSvc = true) :
    ∃ lines : List (Bytes × Bytes),
      formatResponse r altSvc close now =
          headText r.statusLine (lines.map fieldText) ++ r.sentBody ∧
        lines.Perm (r.serverLines altSvc close now ++ keptLines r.fields) ∧
        (∀ line ∈ r.statusLine :: lines.map fieldText, cr ∉ line ∧ lf ∉ line) ∧
        splitMessage (formatResponse r altSvc close now) =
          some (r.statusLine, lines, r.sentBody) ∧
        (lines.filter isContentLength).length ≤ 1 ∧
        (r.includeBody = true →
          (lines.filter isContentLength =
              [(ascii "Content-Length", decimal r.sentBody.length)] ↔
            r.contentLengthHint = 0 ∨ r.contentLengthHint = r.sentBody.length)) := by
  have hfields : ∀ f ∈ r.lines altSvc close now, IsField f := fun _ => isField_of_mem_lines halt
  have heq := formatResponse_eq hupgrade altSvc close now
  have hne : r.statusLine ≠ [] := by
    have hversion : ascii "HTTP/1.1 " ≠ [] := by decide
    simp [Response.statusLine, hversion]
  refine ⟨r.lines altSvc close now, heq, lines_perm r altSvc close now, ?_, ?_, ?_, ?_⟩
  · intro line hline
    obtain rfl | hline := mem_cons.mp hline
    · exact statusLine_no_line_end r
    · obtain ⟨f, hf, rfl⟩ := mem_map.mp hline
      exact (hfields f hf).no_line_end
  · rw [heq]
    exact splitMessage_headText hne (statusLine_no_line_end r).1 hfields
  · rw [filter_lines, Response.contentLengthLines]
    repeat' split
    all_goals simp
  intro hbody
  rw [filter_lines, contentLengthLines_of_includeBody hbody]
  by_cases hhint : r.contentLengthHint = 0
  · simp [hhint]
  rw [if_pos hhint]
  constructor
  · intro h
    have hdigits := (Prod.mk.inj (List.cons.inj h).1).2
    exact .inr (decimal_injective hdigits)
  rintro (h | h)
  · exact absurd h hhint
  · rw [h]

/-- A response with a name that would end its line. -/
def splittingResponse : Response :=
  { headers := [(ascii "X-A\r\nX-B", ascii "1"), (ascii "X-C", ascii "2")]
    body := .text (ascii "hi") }

/-- A name with a line end in it is dropped. -/
theorem formatResponse_framed_splitting :
    splittingResponse.isUpgrade = false ∧ isValidHeaderValue [] = true ∧
      ∃ lines : List (Bytes × Bytes),
        splitMessage (formatResponse splittingResponse [] false none) =
          some (splittingResponse.statusLine, lines, ascii "hi") ∧
          lines.Perm (splittingResponse.serverLines [] false none ++
            [(ascii "Content-Type", ascii "text/html; charset=utf-8"),
              (ascii "X-C", ascii "2")]) := by
  have hupgrade : splittingResponse.isUpgrade = false := rfl
  obtain ⟨lines, -, hperm, -, hsplit, -⟩ :=
    formatResponse_framed splittingResponse [] false none hupgrade rfl
  have hkept : keptLines splittingResponse.fields =
      [(ascii "Content-Type", ascii "text/html; charset=utf-8"), (ascii "X-C", ascii "2")] := by
    decide +kernel
  rw [hkept] at hperm
  exact ⟨hupgrade, rfl, lines, hsplit, hperm⟩

/-- A response that sets the length declares it also for a body of another length. -/
theorem formatResponse_hintedLength :
    let r : Response := { contentLengthHint := 5, body := .text (ascii "hi") }
    r.includeBody = true ∧
      splitMessage (formatResponse r [] false none) =
        some (ascii "HTTP/1.1 200 OK",
          [(ascii "Date", ascii "Thu, 01 Jan 1970 00:00:00 GMT"),
            (ascii "Content-Type", ascii "text/html; charset=utf-8"),
            (ascii "Content-Length", ascii "5"), (ascii "Connection", ascii "keep-alive")],
          ascii "hi") := by
  decide +kernel

end Conflux.Http.Framing
