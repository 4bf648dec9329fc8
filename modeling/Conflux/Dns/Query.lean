import Mathlib.Data.List.Find
import Conflux.Dns.Codec

/-!
# One UDP query

`runUdpQueryDriver` goes through the datagrams that arrive at the socket of a query until one
decides it; the end of the list is the timeout. A datagram is decoded before it is asked who
sent it and what it answers, so one that cannot be decoded decides the query, whoever sent it.
-/

namespace Conflux.Dns

open List

/-- A socket address, as far as the families are told apart. Ports are in host order. -/
inductive SockAddr where
  | inet (port : UInt16) (addr : UInt32)
  | inet6 (port : UInt16) (addr : Bytes) (scopeId : UInt32)
  | other (family : UInt16)
  deriving DecidableEq, Repr

/-- The sizes of the address structures of the two families. -/
def sizeofSockaddrIn : Nat := 16

/-- The size of `sockaddr_in6`. -/
def sizeofSockaddrIn6 : Nat := 28

/-- The address of a name server. -/
structure NameserverEndpoint where
  addr : SockAddr
  addrLen : Nat
  deriving DecidableEq, Repr

/-- A datagram as it arrives: the sender and the bytes. -/
structure Datagram where
  source : SockAddr
  sourceLen : Nat
  bytes : Bytes
  deriving DecidableEq, Repr

/-- The datagram comes from the server that was asked. -/
def sameDnsPeer (actual : SockAddr) (actualLen : Nat) (expected : NameserverEndpoint) : Bool :=
  match actual, expected.addr with
  | .inet port addr, .inet port' addr' =>
    actualLen != 0 && sizeofSockaddrIn ≤ actualLen && sizeofSockaddrIn ≤ expected.addrLen &&
      port == port' && addr == addr'
  | .inet6 port addr scopeId, .inet6 port' addr' scopeId' =>
    actualLen != 0 && sizeofSockaddrIn6 ≤ actualLen && sizeofSockaddrIn6 ≤ expected.addrLen &&
      port == port' && addr == addr' && scopeId == scopeId'
  | _, _ => false

/-- What a query expects of its answer. -/
structure Query where
  ns : NameserverEndpoint
  expectedId : UInt16
  expectedQname : Bytes
  expectedQtype : QType
  deriving DecidableEq, Repr

/-- The message has the id and the question of the query. -/
def hasExpectedQuestion (msg : Message) (q : Query) : Bool :=
  if msg.header.id != q.expectedId then false
  else match msg.questions with
    | [] => false
    | question :: _ =>
      question.name == q.expectedQname && question.qtype == q.expectedQtype &&
        question.qclass == QClass.in_

/-- The error that a response code stands for. -/
def rcodeToError (rcode : UInt8) : Option DnsErrorKind :=
  if rcode = 0 then none
  else if rcode = 1 then some .formerr
  else if rcode = 2 then some .servfail
  else if rcode = 3 then some .nxdomain
  else if rcode = 4 then some .servfail
  else if rcode = 5 then some .refused
  else some .servfail

/-- Check the flags of an answer. -/
def validateAcceptedResponseStatus (msg : Message) : Except DnsError Unit :=
  if !msg.header.qr then .error (malformed "dns: response QR=0")
  else match rcodeToError msg.header.rcode with
    | some kind =>
      let rcode := msg.header.rcode
      .error { kind := kind, message := s!"dns: RCODE {rcode}", rcode := some rcode }
    | none =>
      if msg.header.tc then .error { kind := .truncated, message := "dns: response TC=1" }
      else .ok ()

/-- The size of the receive buffer; longer datagrams are cut. -/
def kRxSize : Nat := 4096

/-- The bytes of a datagram that reach the decoder. -/
def Datagram.received (d : Datagram) : Bytes :=
  d.bytes.take kRxSize

/-- The error after the last datagram. -/
def timedOut : DnsError :=
  { kind := .timeout, message := "dns: query timed out" }

/-- The loop over the datagrams that arrive before the timeout. -/
def runUdpQueryDriver (q : Query) : List Datagram → Except DnsError Message
  | [] => .error timedOut
  | d :: datagrams =>
    match decodeMessage d.received with
    | .error e => .error e
    | .ok msg =>
      if !sameDnsPeer d.source d.sourceLen q.ns then runUdpQueryDriver q datagrams
      else if !hasExpectedQuestion msg q then runUdpQueryDriver q datagrams
      else match validateAcceptedResponseStatus msg with
        | .error e => .error e
        | .ok () => .ok msg

/-! ## What decides a query -/

/-- The datagram comes from the queried server and echoes the id and the question. -/
def Query.answeredBy (q : Query) (d : Datagram) : Bool :=
  match decodeMessage d.received with
  | .error _ => false
  | .ok msg => sameDnsPeer d.source d.sourceLen q.ns && hasExpectedQuestion msg q

/-- The datagram is no message. -/
def Datagram.garbled (d : Datagram) : Bool :=
  match decodeMessage d.received with
  | .error _ => true
  | .ok _ => false

/-- The datagram decides the query: it answers it, or it is no message. -/
def Query.decides (q : Query) (d : Datagram) : Bool := q.answeredBy d || d.garbled

/-- How a query ends with the datagram that decides it. Without one it times out. -/
def decidedBy : Option Datagram → Except DnsError Message
  | none => .error timedOut
  | some d =>
    match decodeMessage d.received with
    | .error e => .error e
    | .ok msg =>
      match validateAcceptedResponseStatus msg with
      | .error e => .error e
      | .ok () => .ok msg

/-- The first datagram that decides the query is the one that counts. -/
theorem runUdpQueryDriver_eq (q : Query) (datagrams : List Datagram) :
    runUdpQueryDriver q datagrams = decidedBy (datagrams.find? q.decides) := by
  induction datagrams with
  | nil => rfl
  | cons d datagrams ih =>
    rw [runUdpQueryDriver, ih, find?_cons, Query.decides, Query.answeredBy, Datagram.garbled]
    cases hdecode : decodeMessage d.received with
    | error e => simp [decidedBy, hdecode]
    | ok msg =>
      dsimp only
      cases sameDnsPeer d.source d.sourceLen q.ns with
      | false => rfl
      | true =>
        cases hasExpectedQuestion msg q with
        | false => rfl
        | true => simp [decidedBy, hdecode]

/-- If everything that arrives is a message, only the answers of the queried server count. -/
theorem runUdpQueryDriver_filter {q : Query} {datagrams : List Datagram}
    (h : ∀ d ∈ datagrams, q.answeredBy d = false → d.garbled = false) :
    runUdpQueryDriver q datagrams = runUdpQueryDriver q (datagrams.filter q.answeredBy) := by
  rw [runUdpQueryDriver_eq, runUdpQueryDriver_eq, find?_filter]
  refine congrArg decidedBy (find?_congr fun d hd => ?_)
  rw [Query.decides]
  cases hanswer : q.answeredBy d with
  | true => rfl
  | false => exact h d hd hanswer

/-- A datagram that does not answer the query, inserted anywhere, leaves the outcome as it is
exactly when a datagram before it decides the query, or it is a message, or the query ends with
the error of decoding it anyway. So if everything that arrives is a message, the outcome depends
only on the answers of the queried server. -/
theorem runUdpQueryDriver_insert_iff (q : Query) (pre post : List Datagram) (d : Datagram)
    (hanswer : q.answeredBy d = false) :
    (runUdpQueryDriver q (pre ++ d :: post) = runUdpQueryDriver q (pre ++ post) ↔
      (∃ x ∈ pre, q.answeredBy x = true ∨ x.garbled = true) ∨ d.garbled = false ∨
        ∃ e, decodeMessage d.received = .error e ∧
          decidedBy (post.find? q.decides) = .error e) ∧
    ((∀ x ∈ pre ++ d :: post, q.answeredBy x = false → x.garbled = false) →
      runUdpQueryDriver q (pre ++ d :: post) =
        runUdpQueryDriver q ((pre ++ d :: post).filter q.answeredBy)) := by
  refine ⟨?_, runUdpQueryDriver_filter⟩
  have hdecides : q.decides d = d.garbled := by rw [Query.decides, hanswer, Bool.false_or]
  rw [runUdpQueryDriver_eq, runUdpQueryDriver_eq, find?_append, find?_append]
  cases hpre : pre.find? q.decides with
  | some x =>
    refine iff_of_true rfl (.inl ⟨x, mem_of_find?_eq_some hpre, ?_⟩)
    have hdecided : q.decides x = true := find?_some hpre
    exact Bool.or_eq_true_iff.mp hdecided
  | none =>
    have hbefore : ¬ ∃ x ∈ pre, q.answeredBy x = true ∨ x.garbled = true := by
      rintro ⟨x, hx, hdecided⟩
      exact find?_eq_none.mp hpre x hx (Bool.or_eq_true_iff.mpr hdecided)
    rw [or_iff_right hbefore, Option.none_or, Option.none_or, find?_cons, hdecides]
    cases hdecode : decodeMessage d.received with
    | ok msg => simp [Datagram.garbled, hdecode]
    | error e => simp [Datagram.garbled, decidedBy, hdecode, eq_comm]

/-- A query for the addresses of `a`. -/
def sampleQuery : Query where
  ns := { addr := .inet 53 0x01010101, addrLen := sizeofSockaddrIn }
  expectedId := 0x1234
  expectedQname := [0x61]
  expectedQtype := 1

/-- The answer of the queried server, without records. -/
def sampleAnswer : Datagram where
  source := .inet 53 0x01010101
  sourceLen := sizeofSockaddrIn
  bytes := [0x12, 0x34, 0x81, 0x80, 0, 1, 0, 0, 0, 0, 0, 0, 1, 0x61, 0, 0, 1, 0, 1]

/-- The same message from someone else. -/
def strangerAnswer : Datagram :=
  { sampleAnswer with source := .inet 53 0x02020202 }

/-- One byte from someone else. -/
def strangerByte : Datagram :=
  { strangerAnswer with bytes := [0] }

/-- An answer from someone else is passed over. -/
theorem runUdpQueryDriver_insert_strangerAnswer :
    sampleQuery.answeredBy strangerAnswer = false ∧
      runUdpQueryDriver sampleQuery [strangerAnswer, sampleAnswer] =
        runUdpQueryDriver sampleQuery [sampleAnswer] :=
  have h : sampleQuery.answeredBy strangerAnswer = false := by decide +kernel
  ⟨h, (runUdpQueryDriver_insert_iff sampleQuery [] [sampleAnswer] strangerAnswer h).1.mpr
    (.inr (.inl (by decide +kernel)))⟩

/-- One byte from someone else makes a query fail that would have been answered. -/
theorem runUdpQueryDriver_insert_strangerByte :
    sampleQuery.answeredBy strangerByte = false ∧
      (∃ msg, runUdpQueryDriver sampleQuery [sampleAnswer] = .ok msg) ∧
      runUdpQueryDriver sampleQuery [strangerByte, sampleAnswer] =
        .error (malformed "decode_message: header < 12 bytes") :=
  ⟨by decide +kernel, ⟨_, rfl⟩, rfl⟩

end Conflux.Dns
