import Conflux.Http.Response.Framing
import Mathlib.Algebra.Order.Ring.Nat

/-!
# Responses over HTTP/2

`h2SubmitResponse` gives the session the header list of a response and the body that the read
callback hands out. The session may ask for any number of octets at a time. Nothing is filtered.
-/

namespace Conflux.Http.H2

open List Bool

open Conflux.Core (decimal signedDecimal decimal_injective)
open Framing

/-! ## The submission -/

/-- A text as HTML. -/
def appendHtmlEscaped (text : Bytes) : Bytes :=
  text.flatMap fun c =>
    if c = 0x26 then ascii "&amp;"
    else if c = 0x3C then ascii "&lt;"
    else if c = 0x3E then ascii "&gt;"
    else if c = 0x22 then ascii "&quot;"
    else if c = 0x27 then ascii "&#39;"
    else [c]

/-- `Response::internal_error` -/
def internalError (detail : Bytes) : Framing.Response :=
  { status := 500
    statusText := ascii "Internal Server Error"
    body := .text (ascii "<html><body><h1>500 Internal Server Error</h1>" ++
      (if detail.isEmpty then []
        else ascii "<p>" ++ appendHtmlEscaped detail ++ ascii "</p>") ++
      ascii "</body></html>") }

/-- Bodies that HTTP/2 does not carry make the response an error. -/
def supported (r : Framing.Response) : Framing.Response :=
  match r.body with
  | .deferred => internalError (ascii "nested deferred responses unsupported over HTTP/2")
  | .wsUpgrade _ => internalError (ascii "websocket upgrades unsupported over HTTP/2")
  | .mappedFile _ => internalError (ascii "mapped files unsupported over HTTP/2")
  | _ => r

/-- What the session is given for a response. -/
structure Submission where
  nva : List (Bytes × Bytes)
  /-- The read callback is installed. -/
  provider : Bool
  responseBody : Bytes
  responseTrailers : List (Bytes × Bytes)
  deriving DecidableEq, Repr

/-- The head and the body that are given to the session. -/
def h2SubmitResponse (r : Framing.Response) (altSvcHeader : Bytes) : Submission :=
  let r := supported r
  let isSse := r.body == .sse
  { nva := [(ascii ":status", signedDecimal r.status), (ascii "content-type", r.contentType)] ++
      (if isSse then [] else [(ascii "content-length", decimal r.contentLength)]) ++
      r.headers ++ r.setCookies.map (fun cookie => (ascii "set-cookie", cookie)) ++
      (if altSvcHeader.isEmpty then [] else [(ascii "alt-svc", altSvcHeader)])
    provider := !(r.textBody.isEmpty && !isSse)
    responseBody := r.textBody
    responseTrailers := r.trailers }

/-! ## The read callback -/

/-- What the read callback keeps for a body in memory. -/
structure BodyReader where
  responseBody : Bytes
  responseOff : Nat := 0
  responseTrailers : List (Bytes × Bytes)
  deriving DecidableEq, Repr

/-- What the read callback gives the session. -/
structure ReadResult where
  data : Bytes
  eof : Bool := false
  noEndStream : Bool := false
  /-- The trailers that were submitted. -/
  trailers : List (Bytes × Bytes) := []
  deriving DecidableEq, Repr

/-- `h2_read_cb` for a body in memory. -/
def h2ReadCb (s : BodyReader) (length : Nat) : ReadResult × BodyReader :=
  let remaining := s.responseBody.length - s.responseOff
  let toCopy := min remaining length
  let data := (s.responseBody.drop s.responseOff).take toCopy
  let s := { s with responseOff := s.responseOff + toCopy }
  if s.responseBody.length ≤ s.responseOff then
    if s.responseTrailers.isEmpty then ({ data := data, eof := true }, s)
    else
      ({ data := data, eof := true, noEndStream := true, trailers := s.responseTrailers },
        { s with responseTrailers := [] })
  else ({ data := data }, s)

/-- The octets the session gets while it asks for these lengths, up to the end. -/
def readOctets (s : BodyReader) : List Nat → Bytes
  | [] => []
  | length :: lengths =>
    match h2ReadCb s length with
    | (result, s) => if result.eof then result.data else result.data ++ readOctets s lengths

/-- The data octets of a submission. -/
def Submission.octets (sub : Submission) (lengths : List Nat) : Bytes :=
  if sub.provider then
    readOctets { responseBody := sub.responseBody, responseTrailers := sub.responseTrailers }
      lengths
  else []

/-- A read gives the next octets of the body. -/
theorem h2ReadCb_spec {s : BodyReader} (h : s.responseOff ≤ s.responseBody.length) (length : Nat) :
    ∃ result trailers, h2ReadCb s length =
        (result, { responseBody := s.responseBody,
                   responseOff := min s.responseBody.length (s.responseOff + length),
                   responseTrailers := trailers }) ∧
      result.data = (s.responseBody.drop s.responseOff).take length ∧
      (result.eof = true ↔ s.responseBody.length ≤ s.responseOff + length) := by
  have hoff : s.responseOff + min (s.responseBody.length - s.responseOff) length =
      min s.responseBody.length (s.responseOff + length) := by omega
  have hdata : (s.responseBody.drop s.responseOff).take
      (min (s.responseBody.length - s.responseOff) length) =
        (s.responseBody.drop s.responseOff).take length := by
    rw [← length_drop, Nat.min_comm, ← take_eq_take_min]
  rw [h2ReadCb]
  simp only [hoff, hdata]
  by_cases hend : s.responseBody.length ≤ s.responseOff + length
  · have hle : s.responseBody.length ≤
        min s.responseBody.length (s.responseOff + length) := by omega
    rw [if_pos hle]
    split
    all_goals exact ⟨_, _, rfl, rfl, by simp [hend]⟩
  have hle : ¬ s.responseBody.length ≤
      min s.responseBody.length (s.responseOff + length) := by omega
  rw [if_neg hle]
  exact ⟨_, _, rfl, rfl, by simp [hend]⟩

/-- The reads give the body from the offset on, as far as they ask for it. -/
theorem readOctets_eq {s : BodyReader} (h : s.responseOff ≤ s.responseBody.length)
    (lengths : List Nat) :
    readOctets s lengths = (s.responseBody.drop s.responseOff).take lengths.sum := by
  induction lengths generalizing s with
  | nil => simp [readOctets]
  | cons length lengths ih =>
    obtain ⟨result, trailers, heq, hdata, heof⟩ := h2ReadCb_spec h length
    rw [readOctets, heq]
    dsimp only
    rw [sum_cons, hdata]
    split
    · rename_i hend
      have hle := heof.mp hend
      rw [take_of_length_le (by rw [length_drop]; omega),
        take_of_length_le (by rw [length_drop]; omega)]
    rename_i hend
    have hlt : s.responseOff + length < s.responseBody.length :=
      Nat.lt_of_not_le fun hle => hend (heof.mpr hle)
    rw [ih (by dsimp only; omega), take_add, drop_drop, Nat.min_eq_right (Nat.le_of_lt hlt)]

variable {r : Framing.Response} {bytes altSvc : Bytes} {field : Bytes × Bytes}

/-- The octets of a submission are those of its body. -/
theorem octets_text (h : r.body = .text bytes) (lengths : List Nat) :
    (h2SubmitResponse r altSvc).octets lengths = bytes.take lengths.sum := by
  have hsupported : supported r = r := by rw [supported, h]
  have htext : r.textBody = bytes := by rw [Framing.Response.textBody, h]
  have hsse : (r.body == .sse) = false := by rw [h]; rfl
  rw [Submission.octets]
  simp only [h2SubmitResponse, hsupported, htext, hsse, Bool.not_false, Bool.and_true]
  cases bytes with
  | nil => simp
  | cons c bytes =>
    have hread := readOctets_eq
      (s := { responseBody := c :: bytes, responseTrailers := r.trailers }) (Nat.zero_le _) lengths
    exact hread

/-! ## The same message as HTTP/1 -/

/-- The name and the value of a field in HTTP/2. -/
def h2Line : ResponseField → Bytes × Bytes
  | .contentType text => (ascii "content-type", text)
  | .header name text => (name, text)
  | .cookie text => (ascii "set-cookie", text)

/-- The connection-specific fields of HTTP/2, which `h2_forbidden_connection_header` refuses in
requests. HTTP/1 has no `proxy-connection`. -/
def connectionSpecific : List Bytes :=
  [ascii "connection", ascii "keep-alive", ascii "proxy-connection", ascii "transfer-encoding",
    ascii "upgrade"]

/-- Whether a name is connection-specific, in whatever case. -/
def isConnectionSpecific (name : Bytes) : Bool :=
  connectionSpecific.any fun candidate => asciiIequals name candidate

/-- What HTTP/2 submits for a text response is the message that HTTP/1 carries. -/
structure SameMessage (r : Framing.Response) (bytes altSvc : Bytes) : Prop where
  /-- There is one length, that of the body. -/
  contentLength : ((h2SubmitResponse r altSvc).nva.filter isContentLength).map Prod.snd =
    [decimal bytes.length]
  /-- There is no connection-specific field. -/
  noConnection : ∀ field ∈ (h2SubmitResponse r altSvc).nva, isConnectionSpecific field.1 = false
  /-- There is no field that HTTP/1 drops. -/
  kept : ∀ f ∈ r.fields, h2Line f ∈ (h2SubmitResponse r altSvc).nva → f.kept = true
  /-- The answer to a HEAD request has no data. -/
  headOnly : r.headOnly = true → ∀ lengths, (h2SubmitResponse r altSvc).octets lengths = []

section

variable (h : r.body = .text bytes)
include h

/-- The header list of a text response. -/
theorem nva_text (altSvc : Bytes) :
    (h2SubmitResponse r altSvc).nva =
      (ascii ":status", signedDecimal r.status) :: (ascii "content-type", r.contentType) ::
        (ascii "content-length", decimal r.contentLength) ::
        (r.headers ++ (r.setCookies.map (fun cookie => (ascii "set-cookie", cookie)) ++
          if altSvc.isEmpty then [] else [(ascii "alt-svc", altSvc)])) := by
  have hsupported : supported r = r := by rw [supported, h]
  have hsse : (r.body == .sse) = false := by rw [h]; rfl
  simp only [h2SubmitResponse, hsupported, hsse, false_eq_true, if_false,
    cons_append, nil_append, append_assoc]

theorem contentLength_text :
    r.contentLength = if r.contentLengthHint ≠ 0 then r.contentLengthHint else bytes.length := by
  rw [Framing.Response.contentLength, h, Framing.Response.textBody, h]

/-- Every field of a text response is submitted. -/
theorem h2Line_mem_nva (altSvc : Bytes) {f : ResponseField}
    (hf : f ∈ r.fields) :
    h2Line f ∈ (h2SubmitResponse r altSvc).nva := by
  rw [nva_text h]
  obtain rfl | hf := mem_cons.mp hf
  · exact mem_cons_of_mem _ mem_cons_self
  refine mem_cons_of_mem _ (mem_cons_of_mem _ (mem_cons_of_mem _ ?_))
  obtain hf | hf := mem_append.mp hf
  · obtain ⟨field, hfield, rfl⟩ := mem_map.mp hf
    exact mem_append_left _ hfield
  obtain ⟨cookie, hcookie, rfl⟩ := mem_map.mp hf
  refine mem_append_right _ (mem_append_left _ ?_)
  exact mem_map.mpr ⟨cookie, hcookie, rfl⟩

end

/-- A header that is kept does not concern the framing. -/
theorem not_framing_of_kept (h : ∀ f ∈ r.fields, f.kept = true) (hfield : field ∈ r.headers) :
    isContentLength field = false ∧ isHopByHopHeader field.1 = false := by
  have hmem : ResponseField.header field.1 field.2 ∈ r.fields :=
    mem_cons_of_mem _ (mem_append_left _ (mem_map.mpr ⟨field, hfield, rfl⟩))
  have hkept := h _ hmem
  rw [ResponseField.kept, and_eq_true, and_eq_true, not_eq_true',
    isResponseFramingHeader, or_eq_false_iff] at hkept
  exact hkept.1.1

/-- A field that HTTP/1 keeps is connection-specific only as `proxy-connection`. -/
theorem isConnectionSpecific_of_not_hopByHop {name : Bytes} (h : isHopByHopHeader name = false) :
    isConnectionSpecific name = asciiIequals name (ascii "proxy-connection") := by
  simp only [isHopByHopHeader, kHopByHopHeaders, any_cons, any_nil, or_eq_false_iff] at h
  simp only [isConnectionSpecific, connectionSpecific, any_cons, any_nil, h, Bool.false_or,
    Bool.or_false]

/-- The server's names are neither the length nor connection-specific. -/
theorem server_names (text : Bytes) :
    ∀ name ∈ [ascii ":status", ascii "content-type", ascii "set-cookie", ascii "alt-svc"],
      isContentLength (name, text) = false ∧ isConnectionSpecific name = false := by
  have hnames : [ascii ":status", ascii "content-type", ascii "set-cookie", ascii "alt-svc"].all
        (fun name =>
          !asciiIequals name (ascii "content-length") && !isConnectionSpecific name) := by
    decide +kernel
  intro name hname
  have hboth := all_eq_true.mp hnames name hname
  rw [and_eq_true, not_eq_true', not_eq_true'] at hboth
  exact hboth

/-- The fields behind the headers. -/
theorem not_framing_of_mem_last {cookies : List Bytes}
    (h : field ∈ cookies.map (fun cookie => (ascii "set-cookie", cookie)) ++
      if altSvc.isEmpty then [] else [(ascii "alt-svc", altSvc)]) :
    isContentLength field = false ∧ isConnectionSpecific field.1 = false := by
  obtain h | h := mem_append.mp h
  · obtain ⟨cookie, -, rfl⟩ := mem_map.mp h
    exact server_names cookie _ (by simp)
  split at h
  · cases h
  · rw [mem_singleton.mp h]
    exact server_names altSvc _ (by simp)

theorem filter_last (cookies : List Bytes) (altSvc : Bytes) :
    (cookies.map (fun cookie => (ascii "set-cookie", cookie)) ++
      if altSvc.isEmpty then [] else [(ascii "alt-svc", altSvc)]).filter isContentLength = [] := by
  refine filter_eq_nil_iff.mpr fun field hfield => ?_
  rw [(not_framing_of_mem_last hfield).1]
  exact Bool.false_ne_true

/-- Lengths among the submitted fields: the server's, then those of the headers. -/
theorem filter_nva (h : r.body = .text bytes) (altSvc : Bytes) :
    (h2SubmitResponse r altSvc).nva.filter isContentLength =
      (ascii "content-length", decimal r.contentLength) :: r.headers.filter isContentLength := by
  have hstatus := (server_names (signedDecimal r.status) (ascii ":status") (by simp)).1
  have htype := (server_names r.contentType (ascii "content-type") (by simp)).1
  have hlength : isContentLength (ascii "content-length", decimal r.contentLength) = true :=
    (by decide : isContentLength (ascii "content-length", []) = true)
  rw [nva_text h, filter_cons_of_neg (by simp [hstatus]),
    filter_cons_of_neg (by simp [htype]), filter_cons_of_pos hlength,
    filter_append, filter_last, append_nil]

/-- HTTP/2 carries the message of HTTP/1 for exactly those text responses of which HTTP/1 drops no
field, that have no header `proxy-connection`, set no length of their own, and have no body for a
HEAD request. -/
theorem sameMessage_iff (r : Framing.Response) (bytes altSvc : Bytes) (h : r.body = .text bytes) :
    SameMessage r bytes altSvc ↔
      (∀ f ∈ r.fields, f.kept = true) ∧
        (∀ field ∈ r.headers, asciiIequals field.1 (ascii "proxy-connection") = false) ∧
        (r.contentLengthHint = 0 ∨ r.contentLengthHint = bytes.length) ∧
        (r.headOnly = true → bytes = []) := by
  constructor
  · intro hsame
    have hkept : ∀ f ∈ r.fields, f.kept = true :=
      fun f hf => hsame.kept f hf (h2Line_mem_nva h altSvc hf)
    refine ⟨hkept, fun field hfield => ?_, ?_, ?_⟩
    · have hmem : field ∈ (h2SubmitResponse r altSvc).nva := by
        rw [nva_text h]
        simp [hfield]
      rw [← isConnectionSpecific_of_not_hopByHop (not_framing_of_kept hkept hfield).2]
      exact hsame.noConnection field hmem
    · have hlength := hsame.contentLength
      rw [filter_nva h, map_cons, contentLength_text h] at hlength
      by_cases hhint : r.contentLengthHint = 0
      · exact .inl hhint
      · rw [if_pos hhint] at hlength
        exact .inr (decimal_injective (List.cons.inj hlength).1)
    intro hhead
    have hoctets := hsame.headOnly hhead [bytes.length]
    rw [octets_text h, sum_singleton, take_length] at hoctets
    exact hoctets
  rintro ⟨hkept, hproxy, hhint, hhead⟩
  have hheaders : r.headers.filter isContentLength = [] := by
    refine filter_eq_nil_iff.mpr fun field hfield => ?_
    rw [(not_framing_of_kept hkept hfield).1]
    exact Bool.false_ne_true
  refine ⟨?_, ?_, fun f hf _ => hkept f hf, ?_⟩
  · rw [filter_nva h, hheaders, map_cons, contentLength_text h]
    obtain hhint | hhint := hhint
    · simp [hhint]
    · simp [hhint]
  · intro field hfield
    rw [nva_text h, mem_cons, mem_cons, mem_cons, mem_append] at hfield
    obtain rfl | rfl | rfl | hfield | hfield := hfield
    · exact (server_names [] (ascii ":status") (by simp)).2
    · exact (server_names [] (ascii "content-type") (by simp)).2
    · exact (by decide : isConnectionSpecific (ascii "content-length") = false)
    · rw [isConnectionSpecific_of_not_hopByHop (not_framing_of_kept hkept hfield).2]
      exact hproxy field hfield
    · exact (not_framing_of_mem_last hfield).2
  · intro hhead' lengths
    rw [octets_text h, hhead hhead', take_nil]

/-- A response without anything that HTTP/1 drops. -/
def plainResponse : Framing.Response :=
  { headers := [(ascii "X-A", ascii "1")], body := .text (ascii "hi") }

/-- It is the same message over both. -/
theorem sameMessage_plainResponse :
    plainResponse.body = .text (ascii "hi") ∧ SameMessage plainResponse (ascii "hi") [] := by
  have hbody : plainResponse.body = .text (ascii "hi") := rfl
  refine ⟨hbody, (sameMessage_iff plainResponse (ascii "hi") [] hbody).mpr
    ⟨?_, by decide, .inl rfl, ?_⟩⟩
  · have hkept : (plainResponse.fields.all ResponseField.kept) = true := by decide
    exact fun f hf => all_eq_true.mp hkept f hf
  · exact fun hhead => absurd hhead Bool.false_ne_true

/-- The response to a HEAD request is sent with its body, a second length and a connection field. -/
theorem h2SubmitResponse_head :
    let r : Framing.Response :=
      { headOnly := true
        headers := [(ascii "Content-Length", ascii "9"), (ascii "Connection", ascii "close")]
        body := .text (ascii "hi") }
    (h2SubmitResponse r []).nva =
        [(ascii ":status", ascii "200"), (ascii "content-type", ascii "text/html; charset=utf-8"),
          (ascii "content-length", ascii "2"), (ascii "Content-Length", ascii "9"),
          (ascii "Connection", ascii "close")] ∧
      (h2SubmitResponse r []).octets [16384] = ascii "hi" ∧
      ¬ SameMessage r (ascii "hi") [] := by
  refine ⟨by decide +kernel, by decide +kernel, fun h => ?_⟩
  have hoctets := h.headOnly rfl [16384]
  exact absurd hoctets (by decide +kernel)

end Conflux.Http.H2
