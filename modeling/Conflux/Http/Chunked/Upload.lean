import Conflux.Http.Chunked.Model

/-!
# The chunked decoder of streamed uploads

`feedHttp1ChunkedUpload` takes the bytes of the receive buffer away as it goes and pushes the
data of the chunks to the body of the upload. It reads lines byte by byte into a buffer of its
own. What pushing a chunk answers is a parameter: it depends on the reader of the body, which
runs beside the connection. As long as no push is refused, what the decoder does depends on the
bytes and not on how they were received: it is an automaton over single bytes, `runBytes`.

The counters of the ring are left out.
-/

namespace Conflux.Http.Chunked

open Conflux.Core List Ascii

/-- What can go wrong with an upload. -/
inductive UploadErrorKind where
  | malformedBody
  | disconnected
  | timeout
  | cancelled
  | bodyTooLarge
  | contentLengthMismatch
  | ioError
  deriving DecidableEq, Repr

/-- An error of an upload, with its text. -/
structure UploadError where
  kind : UploadErrorKind
  detail : String
  deriving DecidableEq, Repr

/-- What the decoder reads next. -/
inductive Http1UploadChunkPhase where
  | sizeLine
  | data
  | dataCr
  | dataLf
  | trailerLine
  | done
  deriving DecidableEq, Repr

/-- The state of the decoder between two bytes. -/
structure Http1Upload where
  line : Bytes := []
  chunkPhase : Http1UploadChunkPhase := .sizeLine
  chunkCount : Nat := 0
  chunkRemaining : Nat := 0
  received : Nat := 0
  trailerLines : Nat := 0
  trailerBytes : Nat := 0
  deriving DecidableEq, Repr

/-- What a byte leads to. -/
inductive Fed where
  | next (u : Http1Upload)
  | failed (e : UploadError)
  | finished
  deriving DecidableEq, Repr

/-- `consume_http1_upload_line_char`; `ended` is what follows a line feed. -/
def consumeHttp1UploadLineChar (u : Http1Upload) (c : UInt8) (ended : Http1Upload → Fed) : Fed :=
  if kMaxChunkSizeLineBytes ≤ u.line.length then .failed ⟨.malformedBody, "chunk line too large"⟩
  else if c ≠ lf then .next { u with line := u.line ++ [c] }
  else ended { u with line := u.line ++ [c] }

/-- A line that does not end with the terminator. -/
def missingCrlf (l : Bytes) : Bool :=
  l.length < 2 || l[l.length - 2]? != some cr

/-- A size line that has ended. -/
def sizeLineEnded (limits : DecodeLimits) (u : Http1Upload) : Fed :=
  if missingCrlf u.line then .failed ⟨.malformedBody, "chunk size line missing CRLF"⟩
  else match parseChunkSizeLine (u.line.take (u.line.length - 2)) with
    | none => .failed ⟨.malformedBody, "invalid chunk size"⟩
    | some chunkSize =>
      let u := { u with line := [], chunkCount := u.chunkCount + 1 }
      if limits.maxChunks < u.chunkCount then .failed ⟨.malformedBody, "too many upload chunks"⟩
      else if chunkSize = 0 then .next { u with chunkPhase := .trailerLine }
      else if limits.maxBodySize < chunkSize ∨ limits.maxBodySize - chunkSize < u.received then
        .failed ⟨.bodyTooLarge, "upload exceeds body limit"⟩
      else .next { u with chunkRemaining := chunkSize, chunkPhase := .data }

/-- A trailer line that has ended. -/
def trailerLineEnded (u : Http1Upload) : Fed :=
  if missingCrlf u.line then .failed ⟨.malformedBody, "chunk trailer missing CRLF"⟩
  else match acceptChunkTrailerLine .exact u.line.length u.trailerLines u.trailerBytes with
    | (false, _, _) => .failed ⟨.malformedBody, "chunk trailer too large"⟩
    | (true, trailerLines, trailerBytes) =>
      if u.line = crlf then .finished
      else .next { u with line := [], trailerLines := trailerLines, trailerBytes := trailerBytes }

/-- The carriage return behind the data of a chunk. -/
def dataCrByte (u : Http1Upload) (c : UInt8) : Fed :=
  if c ≠ cr then .failed ⟨.malformedBody, "chunk data missing CRLF"⟩
  else .next { u with chunkPhase := .dataLf }

/-- The line feed behind the data of a chunk. -/
def dataLfByte (u : Http1Upload) (c : UInt8) : Fed :=
  if c ≠ lf then .failed ⟨.malformedBody, "chunk data missing LF"⟩
  else .next { u with chunkPhase := .sizeLine }

/-- Some bytes of the data of a chunk. -/
def dataBytes (u : Http1Upload) (n : Nat) : Http1Upload :=
  { u with
    chunkRemaining := u.chunkRemaining - n
    received := u.received + n
    chunkPhase := if u.chunkRemaining - n = 0 then .dataCr else .data }

/-- What pushing a chunk to the body answers, given the chunks pushed before it. -/
abbrev PushAnswer := List Bytes → Bytes → Except UploadError Unit

/-- The reader of the body of an upload, as far as the pushes see it. -/
structure UploadReader where
  /-- The limit of the route on the body, 0 if there is none. -/
  bodyLimit : Nat := 0
  /-- How many chunks may wait to be read. -/
  queueCapacity : Nat := 16
  /-- How many reads there have been when a chunk is pushed, given the number of the chunk. -/
  reads : Nat → Nat

/-- `UploadBodyState::push`. A read that waits takes the chunk away at once. -/
def UploadReader.push (r : UploadReader) : PushAnswer := fun pushed chunk =>
  if r.bodyLimit ≠ 0 ∧ r.bodyLimit < pushed.flatten.length + chunk.length then
    .error ⟨.bodyTooLarge, "upload exceeds body limit"⟩
  else if r.reads pushed.length ≤ pushed.length ∧
      r.queueCapacity ≤ pushed.length - r.reads pushed.length then
    .error ⟨.ioError, "upload stream queue is full"⟩
  else .ok ()

/-- The connection, as far as an upload needs it. The body of the upload is there until there is
a result. -/
structure UploadConn where
  /-- `partial` -/
  buffer : Bytes := []
  upload : Http1Upload := {}
  /-- The chunks that were pushed to the body. -/
  pushed : List Bytes := []
  result : Option (Except UploadError Unit) := none

namespace UploadConn

/-- The upload ends with an error. -/
def failHttp1Upload (conn : UploadConn) (e : UploadError) : UploadConn :=
  { conn with
    upload := { conn.upload with line := [], chunkPhase := .done }
    result := some (.error e) }

/-- The upload ends. -/
def finishHttp1Upload (conn : UploadConn) : UploadConn :=
  { conn with
    upload := { conn.upload with line := [], chunkPhase := .done }
    result := some (.ok ()) }

/-- The turn ends as its byte says. -/
def after (conn : UploadConn) : Fed → Turn UploadConn UploadConn
  | .next u => .again { conn with upload := u }
  | .failed e => .done (conn.failHttp1Upload e)
  | .finished => .done conn.finishHttp1Upload

/-- One turn of the loop. -/
def feedTurn (push : PushAnswer) (limits : DecodeLimits) (conn : UploadConn) :
    Turn UploadConn UploadConn :=
  if conn.result.isSome then .done conn
  else match conn.buffer with
    | [] => .done conn
    | c :: rest =>
      let consumed := { conn with buffer := rest }
      match conn.upload.chunkPhase with
      | .sizeLine =>
        consumed.after (consumeHttp1UploadLineChar conn.upload c (sizeLineEnded limits))
      | .data =>
        let n := min conn.buffer.length conn.upload.chunkRemaining
        let chunk := conn.buffer.take n
        let taken := { conn with buffer := conn.buffer.drop n, upload := dataBytes conn.upload n }
        if chunk.isEmpty then .again taken
        else match push conn.pushed chunk with
          | .error e => .done (taken.failHttp1Upload e)
          | .ok () => .again { taken with pushed := conn.pushed ++ [chunk] }
      | .dataCr =>
        (if c ≠ cr then conn else consumed).after (dataCrByte conn.upload c)
      | .dataLf =>
        (if c ≠ lf then conn else consumed).after (dataLfByte conn.upload c)
      | .trailerLine =>
        consumed.after (consumeHttp1UploadLineChar conn.upload c trailerLineEnded)
      | .done => .done conn

/-- The decoder over the receive buffer. Every turn that goes on takes a byte. -/
def feedHttp1ChunkedUpload (push : PushAnswer) (limits : DecodeLimits) (conn : UploadConn) :
    UploadConn :=
  (loop (feedTurn push limits) (conn.buffer.length + 1) conn).getD conn

/-- The bytes of `w` are received up to each of the positions in turn. -/
def feedPieces (push : PushAnswer) (limits : DecodeLimits) (w : Bytes) :
    Nat → List Nat → UploadConn → UploadConn
  | _, [], conn => conn
  | from_, k :: ks, conn =>
    feedPieces push limits w k ks (feedHttp1ChunkedUpload push limits
      { conn with buffer := conn.buffer ++ (w.take k).drop from_ })

end UploadConn

/-! ## The automaton -/

/-- One byte outside of the data of a chunk. -/
def byteFed (limits : DecodeLimits) (u : Http1Upload) (c : UInt8) : Fed :=
  match u.chunkPhase with
  | .sizeLine => consumeHttp1UploadLineChar u c (sizeLineEnded limits)
  | .data => .next (dataBytes u 1)
  | .dataCr => dataCrByte u c
  | .dataLf => dataLfByte u c
  | .trailerLine => consumeHttp1UploadLineChar u c trailerLineEnded
  | .done => .next u

/-- How far the decoder has come. -/
inductive Progress where
  | running (u : Http1Upload) (body : Bytes)
  | failed (e : UploadError)
  | finished (body left : Bytes)
  deriving DecidableEq, Repr

/-- The decoder, byte by byte. -/
def runBytes (limits : DecodeLimits) : Http1Upload → Bytes → Bytes → Progress
  | u, body, [] => .running u body
  | u, body, c :: rest =>
    match byteFed limits u c with
    | .next u' =>
      runBytes limits u' (if u.chunkPhase = .data then body ++ [c] else body) rest
    | .failed e => .failed e
    | .finished => .finished body rest

/-- More bytes are received. -/
def Progress.receive (limits : DecodeLimits) (more : Bytes) : Progress → Progress
  | .running u body => runBytes limits u body more
  | .failed e => .failed e
  | .finished body left => .finished body (left ++ more)

/-- How far the decoder of a connection has come. -/
def UploadConn.progress (conn : UploadConn) : Progress :=
  match conn.result with
  | none => .running conn.upload conn.pushed.flatten
  | some (.error e) => .failed e
  | some (.ok ()) => .finished conn.pushed.flatten conn.buffer

variable {limits : DecodeLimits} {u : Http1Upload} {body : Bytes}

theorem runBytes_append (a b : Bytes) :
    runBytes limits u body (a ++ b) = (runBytes limits u body a).receive limits b := by
  induction a generalizing u body with
  | nil => rfl
  | cons c a ih =>
    rw [cons_append, runBytes, runBytes]
    cases byteFed limits u c with
    | next u' => exact ih
    | failed e | finished => rfl

theorem Progress.receive_receive (p : Progress) (a b : Bytes) :
    (p.receive limits a).receive limits b = p.receive limits (a ++ b) := by
  cases p with
  | running u body => exact (runBytes_append a b).symm
  | failed e => rfl
  | finished body left => exact congrArg (Progress.finished body) (append_assoc left a b)

/-- A decoder that can go on. -/
structure Feeding (u : Http1Upload) : Prop where
  not_done : u.chunkPhase ≠ .done
  data : u.chunkPhase = .data → 0 < u.chunkRemaining

theorem dataBytes_zero (hphase : u.chunkPhase = .data) (hpos : 0 < u.chunkRemaining) :
    dataBytes u 0 = u := by
  have hne : u.chunkRemaining ≠ 0 := Nat.ne_of_gt hpos
  cases u
  simp only [dataBytes, Nat.sub_zero, Nat.add_zero] at hphase hne ⊢
  rw [if_neg hne, hphase]

theorem dataBytes_dataBytes (u : Http1Upload) (m n : Nat) :
    dataBytes (dataBytes u m) n = dataBytes u (m + n) := by
  simp only [dataBytes, Nat.sub_sub, add_assoc]

theorem feeding_dataBytes (u : Http1Upload) (n : Nat) : Feeding (dataBytes u n) := by
  by_cases hzero : u.chunkRemaining - n = 0
  · simp only [dataBytes, if_pos hzero]
    exact ⟨by simp, by simp⟩
  · simp only [dataBytes, if_neg hzero]
    exact ⟨by simp, fun _ => Nat.pos_of_ne_zero hzero⟩

/-- The data of a chunk goes to the body. -/
theorem runBytes_data (limits : DecodeLimits) {u : Http1Upload} {l : Bytes} (body rest : Bytes)
    (hphase : u.chunkPhase = .data)
    (hpos : 0 < u.chunkRemaining) (hl : l.length ≤ u.chunkRemaining) :
    runBytes limits u body (l ++ rest) =
      runBytes limits (dataBytes u l.length) (body ++ l) rest := by
  induction l generalizing u body with
  | nil => rw [nil_append, append_nil, length_nil, dataBytes_zero hphase hpos]
  | cons c l ih =>
    rw [length_cons] at hl ⊢
    have hfed : byteFed limits u c = .next (dataBytes u 1) := by rw [byteFed, hphase]
    rw [cons_append, runBytes, hfed]
    rw [if_pos hphase, Nat.add_comm l.length 1, ← dataBytes_dataBytes,
      show body ++ c :: l = body ++ [c] ++ l by rw [append_assoc]; rfl]
    by_cases hmore : u.chunkRemaining - 1 = 0
    · have hnil : l = [] := length_eq_zero_iff.mp (by omega)
      have hagain : dataBytes (dataBytes u 1) 0 = dataBytes u 1 := by
        rw [dataBytes_dataBytes]
      rw [hnil, nil_append, append_nil, length_nil, hagain]
    · have hnext : (dataBytes u 1).chunkPhase = .data := by
        simp only [dataBytes, if_neg hmore]
      exact ih (body ++ [c]) hnext (Nat.pos_of_ne_zero hmore) (by simp only [dataBytes]; omega)

variable {u' : Http1Upload}

/-- A line is read to its end, goes on or is too long. -/
theorem consume_next {c : UInt8} {ended : Http1Upload → Fed}
    (h : consumeHttp1UploadLineChar u c ended = .next u') :
    u' = { u with line := u.line ++ [c] } ∨
      ended { u with line := u.line ++ [c] } = .next u' := by
  rw [consumeHttp1UploadLineChar] at h
  split at h
  · cases h
  split at h
  · cases h
    exact .inl rfl
  · exact .inr h

theorem sizeLineEnded_feeding (h : sizeLineEnded limits u = .next u') : Feeding u' := by
  rw [sizeLineEnded] at h
  split at h
  · cases h
  split at h
  · cases h
  dsimp only at h
  split at h
  · cases h
  split at h
  · cases h
    exact ⟨by simp, by simp⟩
  rename_i hne
  split at h
  · cases h
  · cases h
    exact ⟨by simp, fun _ => Nat.pos_of_ne_zero hne⟩

theorem trailerLineEnded_phase (h : trailerLineEnded u = .next u') :
    u'.chunkPhase = u.chunkPhase := by
  rw [trailerLineEnded] at h
  split at h
  · cases h
  split at h
  · cases h
  split at h
  · cases h
  · cases h
    rfl

/-- A byte leaves a decoder that can go on. -/
theorem Feeding.next (h : Feeding u) {c : UInt8} (hfed : byteFed limits u c = .next u') :
    Feeding u' := by
  rw [byteFed] at hfed
  cases hphase : u.chunkPhase with
  | sizeLine =>
    rw [hphase] at hfed
    obtain rfl | hended := consume_next hfed
    · exact ⟨h.not_done, h.data⟩
    · exact sizeLineEnded_feeding hended
  | data =>
    rw [hphase] at hfed
    cases hfed
    exact feeding_dataBytes u 1
  | dataCr =>
    rw [hphase] at hfed
    simp only [dataCrByte] at hfed
    split at hfed
    · cases hfed
    · cases hfed
      exact ⟨by simp, by simp⟩
  | dataLf =>
    rw [hphase] at hfed
    simp only [dataLfByte] at hfed
    split at hfed
    · cases hfed
    · cases hfed
      exact ⟨by simp, by simp⟩
  | trailerLine =>
    rw [hphase] at hfed
    obtain rfl | hended := consume_next hfed
    · exact ⟨h.not_done, h.data⟩
    · have hsame := (trailerLineEnded_phase hended).trans hphase
      exact ⟨by simp [hsame], by simp [hsame]⟩
  | done => exact absurd hphase h.not_done

/-! ## The loop is the automaton -/

namespace UploadConn

variable {push : PushAnswer} {conn : UploadConn}

/-- A turn on one byte; a byte that fails may stay in the buffer. -/
theorem feedTurn_byte (push : PushAnswer) (limits : DecodeLimits) {c : UInt8} {rest : Bytes}
    (hresult : conn.result = none) (hbuffer : conn.buffer = c :: rest)
    (hdata : conn.upload.chunkPhase ≠ .data) (hdone : conn.upload.chunkPhase ≠ .done) :
    ∃ kept : UploadConn, feedTurn push limits conn = kept.after (byteFed limits conn.upload c) ∧
      (kept = { conn with buffer := rest } ∨ ∃ e, byteFed limits conn.upload c = .failed e) := by
  rw [feedTurn, hresult, hbuffer, byteFed]
  cases hphase : conn.upload.chunkPhase with
  | sizeLine => exact ⟨_, rfl, .inl rfl⟩
  | data => exact absurd hphase hdata
  | dataCr =>
    refine ⟨_, rfl, ?_⟩
    by_cases hc : c = cr
    · exact .inl (if_neg (not_not.mpr hc))
    · exact .inr ⟨_, if_pos hc⟩
  | dataLf =>
    refine ⟨_, rfl, ?_⟩
    by_cases hc : c = lf
    · exact .inl (if_neg (not_not.mpr hc))
    · exact .inr ⟨_, if_pos hc⟩
  | trailerLine => exact ⟨_, rfl, .inl rfl⟩
  | done => exact absurd hphase hdone

/-- A turn on the data of a chunk: the bytes that are there are pushed. -/
theorem feedTurn_data (push : PushAnswer) (limits : DecodeLimits) (hresult : conn.result = none)
    (hbuffer : conn.buffer ≠ []) (hphase : conn.upload.chunkPhase = .data)
    (hpos : 0 < conn.upload.chunkRemaining) {n : Nat}
    (hn : min conn.buffer.length conn.upload.chunkRemaining = n) :
    feedTurn push limits conn =
      match push conn.pushed (conn.buffer.take n) with
      | .error e => .done (failHttp1Upload
          { conn with buffer := conn.buffer.drop n, upload := dataBytes conn.upload n } e)
      | .ok () => .again { conn with
          buffer := conn.buffer.drop n
          upload := dataBytes conn.upload n
          pushed := conn.pushed ++ [conn.buffer.take n] } := by
  have hlength : 0 < conn.buffer.length := length_pos_iff.mpr hbuffer
  have hchunk : (conn.buffer.take n).isEmpty = false := by
    rw [Bool.eq_false_iff, ne_eq, List.isEmpty_iff, ← length_eq_zero_iff, length_take]
    omega
  obtain ⟨c, rest, hcons⟩ := exists_cons_of_ne_nil hbuffer
  rw [feedTurn, hresult]
  simp only [Option.isSome_none, Bool.false_eq_true, if_false]
  rw [hcons] at hchunk hn ⊢
  simp only [hphase, hn, hchunk, Bool.false_eq_true, if_false]

/-- What feeding leaves, as long as no push is refused. -/
structure FedTo (p : Progress) (conn : UploadConn) : Prop where
  progress : conn.progress = p
  running : conn.result = none → conn.buffer = [] ∧ Feeding conn.upload

/-- The chunk behind the pushed ones was refused, and the upload has failed with this error. -/
def Refused (push : PushAnswer) (conn : UploadConn) : Prop :=
  ∃ chunk e, push conn.pushed chunk = .error e ∧ conn.result = some (.error e)

/-- The loop does what the automaton does, unless a push is refused. -/
theorem loop_feedTurn (push : PushAnswer) (limits : DecodeLimits) (hresult : conn.result = none)
    (hfeeding : Feeding conn.upload) {n : Nat} (hn : conn.buffer.length < n) :
    ∃ conn', loop (feedTurn push limits) n conn = some conn' ∧
      (FedTo (runBytes limits conn.upload conn.pushed.flatten conn.buffer) conn' ∨
        Refused push conn') := by
  induction n generalizing conn with
  | zero => exact absurd hn (Nat.not_lt_zero _)
  | succ n ih =>
    rw [loop]
    cases hbuffer : conn.buffer with
    | nil =>
      have hturn : feedTurn push limits conn = .done conn := by
        rw [feedTurn, hresult, hbuffer]
        rfl
      rw [hturn]
      refine ⟨conn, rfl, .inl ⟨?_, fun _ => ⟨hbuffer, hfeeding⟩⟩⟩
      rw [progress, hresult]
      rfl
    | cons c rest =>
      rw [hbuffer, length_cons] at hn
      by_cases hphase : conn.upload.chunkPhase = .data
      · have hpos := hfeeding.data hphase
        generalize hk : min conn.buffer.length conn.upload.chunkRemaining = k
        rw [feedTurn_data push limits hresult (by rw [hbuffer]; exact cons_ne_nil _ _) hphase hpos
          hk]
        cases hpush : push conn.pushed (conn.buffer.take k) with
        | error e => exact ⟨_, rfl, .inr ⟨_, e, hpush, rfl⟩⟩
        | ok _ =>
          have hlength : (conn.buffer.take k).length = k := by
            rw [length_take]
            omega
          have hrun := runBytes_data limits conn.pushed.flatten (conn.buffer.drop k) hphase hpos
            (by rw [hlength]; omega)
          rw [take_append_drop, hlength] at hrun
          obtain ⟨conn', hloop, hfed⟩ := @ih { conn with
            buffer := conn.buffer.drop k
            upload := dataBytes conn.upload k
            pushed := conn.pushed ++ [conn.buffer.take k] }
            hresult (feeding_dataBytes _ _) (by
              rw [hbuffer, length_cons] at hk
              rw [length_drop, hbuffer, length_cons]
              omega)
          refine ⟨conn', hloop, ?_⟩
          rw [← hbuffer, hrun]
          rwa [flatten_append, flatten_singleton] at hfed
      obtain ⟨kept, hturn, hkept⟩ :=
        feedTurn_byte push limits hresult hbuffer hphase hfeeding.not_done
      rw [hturn, runBytes]
      cases hfed : byteFed limits conn.upload c with
      | failed e =>
        refine ⟨kept.failHttp1Upload e, rfl, .inl ⟨rfl, ?_⟩⟩
        intro hno
        cases hno
      | next u' =>
        obtain rfl | ⟨e, he⟩ := hkept
        · rw [if_neg hphase]
          exact @ih { conn with buffer := rest, upload := u' } hresult
            (hfeeding.next hfed) (by dsimp only; omega)
        · rw [hfed] at he
          cases he
      | finished =>
        obtain rfl | ⟨e, he⟩ := hkept
        · refine ⟨_, rfl, .inl ⟨rfl, ?_⟩⟩
          intro hno
          cases hno
        · rw [hfed] at he
          cases he

variable {p : Progress}

/-- An upload that has ended takes nothing more. -/
theorem feedHttp1ChunkedUpload_ended (hended : conn.result.isSome) :
    feedHttp1ChunkedUpload push limits conn = conn := by
  have hturn : feedTurn push limits conn = .done conn := by
    rw [feedTurn, if_pos hended]
  rw [feedHttp1ChunkedUpload, loop, hturn]
  rfl

/-- Bytes that are received later are fed where the decoder has stopped. -/
theorem FedTo.feed (push : PushAnswer) (limits : DecodeLimits) (h : FedTo p conn) (more : Bytes) :
    FedTo (p.receive limits more)
        (feedHttp1ChunkedUpload push limits { conn with buffer := conn.buffer ++ more }) ∨
      Refused push
        (feedHttp1ChunkedUpload push limits { conn with buffer := conn.buffer ++ more }) := by
  have hp := h.progress
  rw [UploadConn.progress] at hp
  obtain hresult | ⟨result, hresult⟩ := Option.eq_none_or_eq_some conn.result
  · obtain ⟨hbuffer, hfeeding⟩ := h.running hresult
    rw [hresult] at hp
    have hmore : ({ conn with buffer := conn.buffer ++ more } : UploadConn).result = none :=
      hresult
    obtain ⟨conn', hloop, hfed⟩ := loop_feedTurn push limits hmore hfeeding (Nat.lt_succ_self _)
    rw [feedHttp1ChunkedUpload, hloop, ← hp]
    rwa [hbuffer, nil_append] at hfed
  left
  rw [feedHttp1ChunkedUpload_ended (by simp [hresult])]
  refine ⟨?_, fun hno => ?_⟩
  · rw [hresult] at hp
    rw [UploadConn.progress, hresult, ← hp]
    cases result with
    | error e | ok _ => rfl
  · dsimp only at hno
    rw [hresult] at hno
    cases hno

/-- After a refused push nothing more happens. -/
theorem Refused.feed (limits : DecodeLimits) (h : Refused push conn) (more : Bytes) :
    Refused push
      (feedHttp1ChunkedUpload push limits { conn with buffer := conn.buffer ++ more }) := by
  obtain ⟨chunk, e, hpush, hresult⟩ := h
  rw [feedHttp1ChunkedUpload_ended (by simp [hresult])]
  exact ⟨chunk, e, hpush, hresult⟩

theorem Refused.feedPieces (limits : DecodeLimits) (h : Refused push conn) {w : Bytes}
    {ks : List Nat} {k₀ : Nat} : Refused push (UploadConn.feedPieces push limits w k₀ ks conn) := by
  induction ks generalizing k₀ conn with
  | nil => exact h
  | cons k ks ih => exact ih (h.feed limits _)

/-- Received in pieces, the bytes lead where they lead at once, unless a push is refused. -/
theorem FedTo.feedPieces (push : PushAnswer) (limits : DecodeLimits) (h : FedTo p conn) {w : Bytes}
    {ks : List Nat} {k₀ : Nat} (hks : (k₀ :: ks ++ [w.length]).Pairwise (· ≤ ·)) :
    FedTo (p.receive limits (w.drop k₀))
        (UploadConn.feedPieces push limits w k₀ (ks ++ [w.length]) conn) ∨
      Refused push (UploadConn.feedPieces push limits w k₀ (ks ++ [w.length]) conn) := by
  induction ks generalizing k₀ p conn with
  | nil =>
    have hfed := h.feed push limits ((w.take w.length).drop k₀)
    rw [nil_append, UploadConn.feedPieces, UploadConn.feedPieces]
    rwa [take_length] at hfed ⊢
  | cons k ks ih =>
    rw [cons_append, cons_append] at hks
    obtain ⟨hk₀, hrest⟩ := pairwise_cons.mp hks
    have hk : k₀ ≤ k := hk₀ k mem_cons_self
    have hkw : k ≤ w.length := (pairwise_cons.mp hrest).1 w.length (by simp)
    obtain hfed | hrefused := h.feed push limits ((w.take k).drop k₀)
    · have hnext := ih hfed hrest
      have hsplit : (w.take k).drop k₀ ++ w.drop k = w.drop k₀ := by
        have hlen : (w.take k).length = k := length_take_of_le hkw
        rw [← drop_append_of_le_length (by omega), take_append_drop]
      rwa [Progress.receive_receive, hsplit] at hnext
    · exact .inr (hrefused.feedPieces limits)

end UploadConn

end Conflux.Http.Chunked
