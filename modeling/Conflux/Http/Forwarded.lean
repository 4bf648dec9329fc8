import Conflux.Http.Response.Model

/-!
# Forwarding headers of peers that are not trusted

A field list keeps every field it was given, and `fields[key] = v` writes to the first of a name
only. The middleware clears the forwarding headers of a peer outside its list of proxies in that
way. Reading addresses from text is left to parameters, as the source leaves it to the C library.
-/

namespace Conflux.Http.Forwarded

open List

open Framing (ascii asciiIequals)

/-! ## Field lists -/

/-- Header fields in the order of arrival. -/
structure HttpFields where
  data : List (Bytes × Bytes)
  caseInsensitive : Bool := false

/-- Equality of two names. -/
def keyEq (caseInsensitive : Bool) (a b : Bytes) : Bool :=
  if caseInsensitive then asciiIequals a b else a == b

/-- Write through the reference that `operator[]` returns. -/
def assign (ci : Bool) (key v : Bytes) : List (Bytes × Bytes) → List (Bytes × Bytes)
  | [] => [(key, v)]
  | f :: rest => if keyEq ci f.1 key then (f.1, v) :: rest else f :: assign ci key v rest

namespace HttpFields

/-- Assign to the first field of a name, or add one. -/
def write (fields : HttpFields) (key v : Bytes) : HttpFields :=
  { fields with data := assign fields.caseInsensitive key v fields.data }

/-- The values of all fields of a name. -/
def values (fields : HttpFields) (key : Bytes) : List Bytes :=
  (fields.data.filter fun f => keyEq fields.caseInsensitive f.1 key).map Prod.snd

/-- The value of the first field of a name. -/
def get (fields : HttpFields) (key : Bytes) : Option Bytes := (fields.values key).head?

/-- The fields of a name, in any letter case. -/
def named (fields : HttpFields) (name : Bytes) : List (Bytes × Bytes) :=
  fields.data.filter fun f => asciiIequals f.1 name

/-- No way to read a name gives a value that is not empty. -/
def Silent (fields : HttpFields) (name : Bytes) : Prop :=
  (fields.get name).getD [] = [] ∧ (∀ v ∈ fields.values name, v = []) ∧
    ∀ f ∈ fields.named name, f.2 = []

end HttpFields

/-! ## The middleware -/

/-- A network of addresses. -/
structure IpCidr where
  network : List UInt8
  prefixLen : Nat

/-- The address is in the network. -/
def cidrMatch (cidr : IpCidr) (ip : List UInt8) : Bool :=
  let full := cidr.prefixLen / 8
  let rem := cidr.prefixLen % 8
  ((List.range full).all fun i => ip.getD i 0 == cidr.network.getD i 0) &&
    (rem == 0 || ip.getD full 0 &&& (0xFF <<< UInt8.ofNat (8 - rem)) == cidr.network.getD full 0)

/-- Addresses as text; an address has sixteen bytes. -/
structure Addresses where
  parseIp : Bytes → Option (List UInt8)
  parseCidr : Bytes → Option IpCidr
  ipToString : List UInt8 → Bytes

/-- The options of the middleware. -/
structure ForwardedOptions where
  trustedProxies : List Bytes := []
  useXForwardedFor : Bool := true
  useXRealIp : Bool := true

/-- A request, as far as the middleware reads it. -/
structure Request where
  remoteAddr : Bytes
  headers : HttpFields

/-- The field that lists the hops. -/
def xForwardedFor : Bytes := ascii "x-forwarded-for"

/-- The field with the client's address. -/
def xRealIp : Bytes := ascii "x-real-ip"

/-- White space. -/
def isWs (c : UInt8) : Bool := c == Ascii.sp || c == Ascii.tab || c == Ascii.cr || c == Ascii.lf

/-- Trim white space on both sides. -/
def trim (s : Bytes) : Bytes := (s.dropWhile isWs).rdropWhile isWs

/-- The first entry of a list of hops. -/
def xffFirst (v : Bytes) : Bytes := trim (v.takeWhile (· != 0x2C))

variable {ρ : Type*} (env : Addresses) (opts : ForwardedOptions) (req : Request)

/-- The networks of the trusted proxies. -/
def cidrs : List IpCidr := opts.trustedProxies.filterMap env.parseCidr

/-- What a peer address that cannot be read is taken for. -/
def zeroIp : List UInt8 := List.replicate 16 0

/-- The peer is a trusted proxy. -/
def trusted : Bool :=
  (cidrs env opts).any fun c => cidrMatch c ((env.parseIp req.remoteAddr).getD zeroIp)

/-- The address that the headers of a trusted peer name. -/
def realIp : Bytes :=
  let xff := (req.headers.get xForwardedFor).getD []
  let ip := if opts.useXForwardedFor && !xff.isEmpty then xffFirst xff else []
  let xri := (req.headers.get xRealIp).getD []
  if ip.isEmpty && opts.useXRealIp && !xri.isEmpty then trim xri else ip

/-- Drop or evaluate the forwarding headers, and go on. -/
def forwardedMiddleware (next : Request → ρ) : ρ :=
  if !trusted env opts req then
    next { req with headers := (req.headers.write xForwardedFor []).write xRealIp [] }
  else if (realIp opts req).isEmpty then next req
  else
    let ip := realIp opts req
    next { req with remoteAddr := ((env.parseIp ip).map env.ipToString).getD ip }

/-! ## What is cleared -/

theorem keyEq_refl (ci : Bool) (key : Bytes) : keyEq ci key key = true := by
  cases ci <;> simp [keyEq, asciiIequals]

theorem asciiIequals_of_keyEq {ci : Bool} {a b : Bytes} (h : keyEq ci a b = true) :
    asciiIequals a b = true := by
  cases ci with
  | true => exact h
  | false =>
    obtain rfl : a = b := by simpa [keyEq] using h
    exact keyEq_refl true a

/-- Writing to a name keeps to the fields of that name. -/
theorem filter_assign (ci : Bool) (key v : Bytes) (l : List (Bytes × Bytes)) :
    (assign ci key v l).filter (fun f => asciiIequals f.1 key) =
      assign ci key v (l.filter fun f => asciiIequals f.1 key) := by
  induction l with
  | nil =>
    have hname : asciiIequals key key = true := keyEq_refl true key
    simp [assign, hname]
  | cons f l ih =>
    rw [assign]
    split
    · rename_i hkey
      have hname := asciiIequals_of_keyEq hkey
      simp [hname, assign, hkey]
    rename_i hkey
    by_cases hname : asciiIequals f.1 key = true
    · simp [hname, assign, hkey, ih]
    · simp [hname, ih]

/-- Writing to a name leaves the fields of another name. -/
theorem filter_assign_of_ne {ci : Bool} {key name : Bytes} (v : Bytes)
    (hne : asciiIequals key name = false) (l : List (Bytes × Bytes)) :
    (assign ci key v l).filter (fun f => asciiIequals f.1 name) =
      l.filter fun f => asciiIequals f.1 name := by
  induction l with
  | nil => simp [assign, hne]
  | cons f l ih =>
    rw [assign]
    split
    · rename_i hkey
      have hsame : asciiIequals f.1 name = asciiIequals key name := by
        rw [asciiIequals, asciiIequals, beq_iff_eq.mp (asciiIequals_of_keyEq hkey)]
      rw [filter_cons_of_neg (by simp [hsame, hne]), filter_cons_of_neg (by simp [hsame, hne])]
    · rw [filter_cons, filter_cons, ih]

/-- One field is cleared; the others keep their values. -/
theorem forall_assign_nil {ci : Bool} {key : Bytes} (l : List (Bytes × Bytes)) :
    (∀ f ∈ assign ci key [] l, f.2 = []) ↔ ∀ f ∈ l.eraseP (keyEq ci ·.1 key), f.2 = [] := by
  induction l with
  | nil => simp [assign]
  | cons f l ih =>
    rw [assign, eraseP_cons]
    cases hkey : keyEq ci f.1 key with
    | true => simp
    | false => simp only [Bool.false_eq_true, if_false, cond_false, forall_mem_cons, ih]

theorem silent_iff (fields : HttpFields) (name : Bytes) :
    fields.Silent name ↔ ∀ f ∈ fields.named name, f.2 = [] := by
  refine ⟨fun h => h.2.2, fun h => ?_⟩
  have hvalues : ∀ v ∈ fields.values name, v = [] := by
    intro v hv
    obtain ⟨f, hf, rfl⟩ := mem_map.mp hv
    rw [mem_filter] at hf
    exact h f (mem_filter.mpr ⟨hf.1, asciiIequals_of_keyEq hf.2⟩)
  refine ⟨?_, hvalues, h⟩
  cases hget : fields.get name with
  | none => rfl
  | some v => exact hvalues v (mem_of_mem_head? hget)

/-- The fields of a name without the first that the list finds under it. -/
def behindFirst (fields : HttpFields) (name : Bytes) : List (Bytes × Bytes) :=
  (fields.named name).eraseP (keyEq fields.caseInsensitive ·.1 name)

/-- The headers that a proxy sets. -/
def forwardingHeaders : List Bytes := [xForwardedFor, xRealIp]

variable {env opts req}

theorem realIp_of_silent (h : ∀ name ∈ forwardingHeaders, req.headers.Silent name) :
    realIp opts req = [] := by
  rw [realIp, (h _ mem_cons_self).1, (h _ (mem_cons_of_mem _ mem_cons_self)).1]
  simp

/-- The headers of a trusted peer stay, and its address does if they are silent. -/
theorem passed_of_trusted (h : trusted env opts req = true) :
    (forwardedMiddleware env opts req id).headers = req.headers ∧
      ((∀ name ∈ forwardingHeaders, req.headers.Silent name) →
        (forwardedMiddleware env opts req id).remoteAddr = req.remoteAddr) := by
  rw [forwardedMiddleware, h]
  refine ⟨?_, fun hsilent => ?_⟩
  · rw [if_neg (by simp)]
    split <;> rfl
  · rw [if_neg (by simp), realIp_of_silent hsilent]
    rfl

/-- Of each forwarding header the first field is cleared. -/
theorem silent_of_not_trusted (h : trusted env opts req = false) :
    (∀ name ∈ forwardingHeaders, (forwardedMiddleware env opts req id).headers.Silent name) ↔
      ∀ name ∈ forwardingHeaders, ∀ f ∈ behindFirst req.headers name, f.2 = [] := by
  have hdata : (forwardedMiddleware env opts req id).headers.data =
      assign req.headers.caseInsensitive xRealIp []
        (assign req.headers.caseInsensitive xForwardedFor [] req.headers.data) := by
    rw [forwardedMiddleware, h]
    rfl
  simp only [forwardingHeaders, forall_mem_cons, not_mem_nil, false_imp_iff,
    forall_const, and_true, silent_iff, HttpFields.named, hdata, behindFirst]
  rw [filter_assign_of_ne _ (by decide), filter_assign, filter_assign, filter_assign_of_ne _
    (by decide), forall_assign_nil, forall_assign_nil]

/-- A request from a peer outside the list comes through without forwarding headers exactly if no
value stands behind the first field of its name. Where the peer's address cannot be read and the
list has the zero address, they must not have a value at all. -/
theorem forwardedMiddleware_outside_iff (hpeer : ∀ ip, env.parseIp req.remoteAddr = some ip →
      ∀ c ∈ cidrs env opts, cidrMatch c ip = false) :
    ((∀ name ∈ forwardingHeaders,
        (forwardedMiddleware env opts req id).headers.Silent name) ∧
      (forwardedMiddleware env opts req id).remoteAddr = req.remoteAddr) ↔
    ∀ name ∈ forwardingHeaders, ∀ f ∈
      if env.parseIp req.remoteAddr = none ∧ (cidrs env opts).any (cidrMatch · zeroIp) then
        req.headers.named name
      else behindFirst req.headers name, f.2 = [] := by
  split
  · rename_i hzero
    have htrusted : trusted env opts req = true := by
      rw [trusted, hzero.1]
      exact hzero.2
    obtain ⟨hheaders, haddr⟩ := passed_of_trusted htrusted
    simp only [hheaders, ← silent_iff]
    exact ⟨fun h => h.1, fun h => ⟨h, haddr h⟩⟩
  rename_i hzero
  have htrusted : trusted env opts req = false := by
    rw [trusted]
    cases hip : env.parseIp req.remoteAddr with
    | none => simpa [hip] using hzero
    | some ip => simpa using hpeer ip hip
  rw [silent_of_not_trusted htrusted, forwardedMiddleware, htrusted]
  exact and_iff_left rfl

/-- Addresses of version 4, as sixteen bytes with the text of each. -/
def knownAddresses : List (Bytes × List UInt8) :=
  let mapped (ip : List UInt8) := List.replicate 10 0 ++ [0xFF, 0xFF] ++ ip
  [(ascii "10.0.0.0", mapped [10, 0, 0, 0]), (ascii "203.0.113.9", mapped [203, 0, 113, 9])]

/-- A library that reads these addresses, and a network of the form `address/8`. -/
def sampleAddresses : Addresses where
  parseIp text := knownAddresses.lookup text
  parseCidr text :=
    if text.drop (text.length - 2) = ascii "/8" then
      (knownAddresses.lookup (text.take (text.length - 2))).map fun network => ⟨network, 104⟩
    else none
  ipToString ip := ((knownAddresses.find? (·.2 == ip)).map Prod.fst).getD []

/-- The proxies of one network are trusted. -/
def proxyOptions : ForwardedOptions := { trustedProxies := [ascii "10.0.0.0/8"] }

/-- Fields of both names, from a peer outside this network. -/
def outsideRequest : Request where
  remoteAddr := ascii "203.0.113.9"
  headers := ⟨[(ascii "X-Real-IP", ascii "10.0.0.1"), (ascii "Host", ascii "example"),
    (ascii "X-Forwarded-For", ascii "10.0.0.1")], true⟩

/-- One field of each name is cleared. -/
theorem forwardedMiddleware_outside_cleared :
    let out := forwardedMiddleware sampleAddresses proxyOptions outsideRequest id
    (∀ name ∈ forwardingHeaders, out.headers.Silent name) ∧
      out.remoteAddr = outsideRequest.remoteAddr := by
  have hpeer : ∀ ip, sampleAddresses.parseIp outsideRequest.remoteAddr = some ip →
      ∀ c ∈ cidrs sampleAddresses proxyOptions, cidrMatch c ip = false := by
    intro ip hip
    obtain rfl := Option.some.inj hip
    decide
  exact (forwardedMiddleware_outside_iff hpeer).mpr (by decide)

/-- Two fields of one name, from the same peer. -/
def spoofedRequest : Request where
  remoteAddr := ascii "203.0.113.9"
  headers := ⟨[(ascii "X-Forwarded-For", ascii "10.0.0.1"),
    (ascii "X-Forwarded-For", ascii "10.0.0.2")], true⟩

/-- The second of them reaches the handler. -/
theorem forwardedMiddleware_spoofed :
    (forwardedMiddleware sampleAddresses proxyOptions spoofedRequest id).headers.values
      xForwardedFor = [[], ascii "10.0.0.2"] := by
  decide

end Conflux.Http.Forwarded
