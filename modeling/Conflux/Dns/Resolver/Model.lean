import Conflux.Core.Lru
import Conflux.Dns.Encode
import Conflux.Dns.Query

/-!
# The native resolver and its cache

`resolve` and `resolveBlocking` answer a name from the literal it is, from the hosts file, from
the cache or by asking the name servers for the candidates that the search domains make of it.
`resolve` keeps one entry for the name as it was given, `resolveBlocking` one for each
candidate, and both keep them in one table.

The network is a world: what each name has for each family. An entry notes the call that
stored it, and a resolver the entries its last call has read; neither is looked at by the code.
-/

namespace Conflux.Dns

open Conflux.Core Lru

/-- The family of an address. -/
inductive AddressFamily where
  | v4
  | v6
  deriving DecidableEq, Repr

/-- An address with its port. -/
structure Endpoint where
  family : AddressFamily
  address : Bytes
  port : UInt16
  deriving DecidableEq, Repr

/-- What a caller is told. -/
structure ResolveResult where
  endpoints : List Endpoint := []
  suggestedTtl : Nat := 0
  fromCache : Bool := false
  fromHostsFile : Bool := false
  isNegative : Bool := false
  deriving DecidableEq, Repr

/-! ## Options -/

/-- The options of one call. -/
structure ResolveOptions where
  prefer : AddressFamily := .v6
  allowV4 : Bool := true
  allowV6 : Bool := true
  bypassCache : Bool := false
  overrideNameservers : List NameserverEndpoint := []
  deriving DecidableEq, Repr

/-- The options of a resolver. -/
structure ResolverOptions where
  cacheCapacity : Nat := 1024
  cacheMaxTtl : Int := 300
  cacheNegativeTtl : Int := 30
  enableEtcHosts : Bool := true
  maxInFlightQueries : Nat := 4096
  deriving DecidableEq, Repr

/-- What a resolver is set up with. -/
structure Impl where
  opts : ResolverOptions := {}
  nameservers : List NameserverEndpoint := []
  searchDomains : List Bytes := []
  ndots : Nat := 1
  attempts : Nat := 1
  hostsCache : List (Bytes × List Endpoint) := []
  deriving DecidableEq, Repr

/-! ## Literals and the hosts file -/

/-- Characters of numeric addresses. -/
def addressChar (c : UInt8) : Bool :=
  c == 0x2E || c == 0x3A || (0x30 ≤ c && c ≤ 0x39) || (0x41 ≤ c && c ≤ 0x46) ||
    (0x61 ≤ c && c ≤ 0x66)

/-- The functions of the C library between addresses and their texts. -/
structure Inet where
  pton : AddressFamily → Bytes → Option Bytes
  ntop : SockAddr → Bytes
  charset : ∀ {family text address}, pton family text = some address → text.all addressChar = true

/-- The endpoint of a name that is an address. -/
def tryParseIpLiteral (inet : Inet) (host : Bytes) (port : UInt16) : Option Endpoint :=
  if 64 ≤ host.length then none
  else
    -- A zero byte ends the text that the library sees.
    let text := host.takeWhile (· != 0)
    match inet.pton .v4 text with
    | some address => some { family := .v4, address, port }
    | none => (inet.pton .v6 text).map fun address => { family := .v6, address, port }

/-- The options allow the family of the endpoint. -/
def endpointFamilyAllowed (ep : Endpoint) (opts : ResolveOptions) : Bool :=
  (ep.family == .v4 && opts.allowV4) || (ep.family == .v6 && opts.allowV6)

/-- The endpoint with another port. -/
def setEndpointPort (port : UInt16) (ep : Endpoint) : Endpoint := { ep with port }

/-- The endpoints of the hosts file for a call. -/
def hostsEndpointsForOptions (cached : List Endpoint) (port : UInt16) (opts : ResolveOptions) :
    List Endpoint :=
  (cached.filter (endpointFamilyAllowed · opts)).map (setEndpointPort port)

/-- The answer of the hosts file. -/
def hostsLookupResult (hostsCache : List (Bytes × List Endpoint)) (host : Bytes) (port : UInt16)
    (opts : ResolveOptions) : Option ResolveResult :=
  match assocFind (trimDot (host.map asciiLower)) hostsCache with
  | none => none
  | some cached =>
    let eps := hostsEndpointsForOptions cached port opts
    if eps.isEmpty then none else some { endpoints := eps, fromHostsFile := true }

/-! ## Keys -/

/-- A port in decimal. -/
def portChars (port : UInt16) : Bytes :=
  (Nat.toDigits 10 port.toNat).map fun c => UInt8.ofNat c.toNat

/-- The flags of a key. -/
def familyChars (opts : ResolveOptions) : Bytes :=
  [if opts.prefer = .v4 then 0x34 else 0x36, if opts.allowV4 then 0x34 else 0x2D,
    if opts.allowV6 then 0x36 else 0x2D]

/-- The key of a call in the cache. -/
def makeCacheKey (host : Bytes) (port : UInt16) (opts : ResolveOptions)
    (resolverContext : Bytes) : Bytes :=
  host ++ 0x3A :: portChars port ++ 0x3A :: familyChars opts ++ 0x3A :: resolverContext

/-- A name server as a part of cache keys. -/
def nameserverCacheToken (inet : Inet) (ns : NameserverEndpoint) : Bytes :=
  match ns.addr with
  | .inet port _ =>
    if sizeofSockaddrIn ≤ ns.addrLen then inet.ntop ns.addr ++ 0x23 :: portChars port else []
  | .inet6 port _ _ =>
    if sizeofSockaddrIn6 ≤ ns.addrLen then inet.ntop ns.addr ++ 0x23 :: portChars port else []
  | .other _ => []

/-- The loop of `nameserverCacheContext`. -/
def contextFrom (inet : Inet) : List NameserverEndpoint → Bytes → Bytes
  | [], out => out
  | ns :: nameservers, out =>
    let token := nameserverCacheToken inet ns
    if token.isEmpty then []
    else contextFrom inet nameservers ((if out.isEmpty then out else out ++ [0x2C]) ++ token)

/-- The name servers as a part of cache keys. -/
def nameserverCacheContext (inet : Inet) (nameservers : List NameserverEndpoint) : Bytes :=
  contextFrom inet nameservers []

/-- The servers, repeated for each attempt. -/
def nameserversWithAttempts (base : List NameserverEndpoint) (attempts : Nat) :
    List NameserverEndpoint :=
  if base.isEmpty then [] else (List.replicate (max attempts 1) base).flatten

/-- The servers that a call asks. -/
def nativeUdpNameservers (impl : Impl) (opts : ResolveOptions) : List NameserverEndpoint :=
  let base := if opts.overrideNameservers.isEmpty then impl.nameservers
    else opts.overrideNameservers
  nameserversWithAttempts base impl.attempts

/-- The names that are asked for in place of `host`. -/
def resolveCandidates (host : Bytes) (searchDomains : List Bytes) (ndots : Nat) : List Bytes :=
  if host.getLast? = some 0x2E then [host.dropLast]
  else if searchDomains.isEmpty || ndots ≤ host.count 0x2E then [host]
  else searchDomains.map (fun domain => host ++ 0x2E :: domain) ++ [host]

/-! ## Asking the name servers -/

/-- An address and how long it may be kept. -/
structure AddressRecord where
  address : Bytes
  ttl : UInt32
  deriving DecidableEq, Repr

/-- The addresses of a name in a family; `none` is the answer that there is no such name. -/
abbrev World := Bytes → AddressFamily → Option (List AddressRecord)

/-- In the order of their weight. -/
inductive BatchFailReason where
  | none
  | timeout
  | network
  | nxdomain
  | truncated
  deriving DecidableEq, Repr

/-- Of several reasons the heaviest is reported. -/
def BatchFailReason.weight : BatchFailReason → Nat
  | .none => 0
  | .timeout => 1
  | .network => 2
  | .nxdomain => 3
  | .truncated => 4

/-- The weightier of the reasons of the two families. -/
def BatchFailReason.dominant (v4 v6 : BatchFailReason) : BatchFailReason :=
  if v6.weight ≤ v4.weight then v4 else v6

/-- What one family gave. -/
structure EndpointBatch where
  eps : List Endpoint := []
  minTtl : UInt32 := 0xFFFFFFFF
  failReason : BatchFailReason := .none
  deriving DecidableEq, Repr

/-- What the answer to a query becomes. -/
def answerBatch (port : UInt16) (fam : AddressFamily) :
    Option (List AddressRecord) → EndpointBatch
  | none => { failReason := .nxdomain }
  | some records =>
    { eps := records.map fun record => { family := fam, address := record.address, port }
      minTtl := (records.map AddressRecord.ttl).foldl min 0xFFFFFFFF }

/-- The query for one family. An answer to another name than the one asked for is passed over. -/
def buildFamilyFlow (world : World) (hostname : Bytes) (port : UInt16) (fam : AddressFamily) :
    Except DnsError EndpointBatch := do
  let question ← encodeName hostname
  match decodeName question 0 with
  | .error _ => return { failReason := .network }
  | .ok (qname, _) =>
    if qname = hostname.map asciiLower then return answerBatch port fam (world hostname fam)
    else return { failReason := .timeout }

/-- The error of a name without addresses. -/
def nameNotFound : DnsError := { kind := .nxdomain, message := "dns: name not found" }

/-- What the batches of the two families make together. -/
def joinBatches (prefer : AddressFamily) (v4 v6 : EndpointBatch) :
    Except DnsError ResolveResult :=
  let dominant := v4.failReason.dominant v6.failReason
  let empty := v4.eps.isEmpty && v6.eps.isEmpty
  if empty && dominant = .truncated then
    .error { kind := .truncated, message := "dns: udp truncated and tcp fallback failed" }
  else if empty && dominant = .nxdomain then .error nameNotFound
  else
    let minTtl := min v4.minTtl v6.minTtl
    .ok { endpoints := if prefer = .v4 then v4.eps ++ v6.eps else v6.eps ++ v4.eps
          suggestedTtl := if minTtl = 0xFFFFFFFF then 0 else minTtl.toNat }

/-- Both families are asked. A name that cannot be encoded fails in both, and the first error of
`join_all` stands here. -/
def buildNativeUdpFlow (world : World) (hostname : Bytes) (port : UInt16)
    (opts : ResolveOptions) : Except DnsError ResolveResult := do
  let v4 ← (if opts.allowV4 then buildFamilyFlow world hostname port .v4 else .ok {})
  let v6 ← (if opts.allowV6 then buildFamilyFlow world hostname port .v6 else .ok {})
  joinBatches opts.prefer v4 v6

/-- Ask the servers in turn until one has addresses. -/
def buildNativeUdpFlowWithNameservers (world : World) (hostname : Bytes) (port : UInt16)
    (opts : ResolveOptions) : List NameserverEndpoint → Except DnsError ResolveResult
  | [] => .error { kind := .noServers, message := "dns: no nameservers configured" }
  | _ :: nameservers => do
    let result ← buildNativeUdpFlow world hostname port opts
    if !result.endpoints.isEmpty || nameservers.isEmpty then return result
    else buildNativeUdpFlowWithNameservers world hostname port opts nameservers

/-- Ask for the candidates until one exists. -/
def buildNativeUdpFlowWithCandidates (world : World) (nameservers : List NameserverEndpoint)
    (port : UInt16) (opts : ResolveOptions) : List Bytes → Except DnsError ResolveResult
  | [] => .error nameNotFound
  | candidate :: candidates =>
    match buildNativeUdpFlowWithNameservers world candidate port opts nameservers with
    | .ok result => .ok result
    | .error e =>
      if e.kind ≠ .nxdomain || candidates.isEmpty then .error e
      else buildNativeUdpFlowWithCandidates world nameservers port opts candidates

/-! ## The cache -/

/-- An entry of the cache. -/
structure DnsCacheEntry where
  result : ResolveResult
  /-- In nanoseconds of the clock. -/
  expires : Int
  /-- The call that stored the entry. -/
  storedBy : Nat
  deriving DecidableEq, Repr

/-- The state of a resolver. -/
structure Resolver where
  /-- There is no cache if its capacity is zero. -/
  cache : Option (Lru Bytes DnsCacheEntry)
  /-- How often the clock has been read. -/
  ticks : Nat := 0
  /-- Number of the call that runs or ran last. -/
  call : Nat := 0
  /-- The entries that this call was answered from. -/
  hits : List DnsCacheEntry := []

/-- A resolver's surroundings: the library, the set-up, and what the clock shows at each reading. -/
structure Env where
  inet : Inet
  impl : Impl
  clock : Nat → Int

namespace Env

variable (env : Env)

/-- A new resolver. -/
def start : Resolver where
  cache := if 0 < env.impl.opts.cacheCapacity then
    some (Lru.empty env.impl.opts.cacheCapacity) else none

/-- The entry of a key, unless it has expired. -/
def get (key : Bytes) (s : Resolver) : Option ResolveResult × Resolver :=
  match s.cache with
  | none => (none, s)
  | some entries =>
    if key.isEmpty then (none, s)
    else match entries.find key with
      | none => (none, s)
      | some (entry, touched) =>
        if entry.expires ≤ env.clock s.ticks then
          (none, { s with cache := some (touched.erase key), ticks := s.ticks + 1 })
        else
          (some entry.result,
            { s with cache := some touched, ticks := s.ticks + 1, hits := entry :: s.hits })

/-- Store an entry. -/
def put (key : Bytes) (result : ResolveResult) (ttl : Int) (s : Resolver) : Resolver :=
  match s.cache with
  | none => s
  | some entries =>
    if key.isEmpty then s
    else
      let entry := { result, expires := env.clock s.ticks + ttl * 1000000000, storedBy := s.call }
      { s with cache := some (entries.insertOrAssign key entry), ticks := s.ticks + 1 }

/-- How long an answer is kept, if at all: addresses for their own time, a missing name for that
of the set-up. -/
def keptFor : Except DnsError ResolveResult → Option (ResolveResult × Int)
  | .ok result =>
    if result.endpoints.isEmpty then none
    else some (result, if 0 < result.suggestedTtl
      then min result.suggestedTtl env.impl.opts.cacheMaxTtl else env.impl.opts.cacheMaxTtl)
  | .error e =>
    if e.kind = .nxdomain then some ({ isNegative := true }, env.impl.opts.cacheNegativeTtl)
    else none

/-- Keep the answer of a flow under a key. -/
def remember (key : Bytes) (answer : Except DnsError ResolveResult) (s : Resolver) : Resolver :=
  match env.keptFor answer with
  | none => s
  | some (result, ttl) => env.put key result ttl s

/-- Drop the entries whose key begins with the name. -/
def invalidate (host : Bytes) (s : Resolver) : Resolver :=
  { s with cache := s.cache.map fun entries =>
      entries.eraseIf fun key _ => (host ++ [0x3A]).isPrefixOf key }

/-! ## Calls -/

/-- What both calls do before they look at the cache. -/
def answeredLocally (host : Bytes) (port : UInt16) (opts : ResolveOptions) :
    Option (Except DnsError ResolveResult) :=
  match tryParseIpLiteral env.inet host port with
  | some ep => some (.ok { endpoints := [ep] })
  | none =>
    if !isValidHostname host then
      let text := nameText host
      some (.error { kind := .invalidHostname, message := s!"invalid hostname '{text}'" })
    else if env.impl.opts.enableEtcHosts && !opts.bypassCache then
      (hostsLookupResult env.impl.hostsCache host port opts).map .ok
    else none

/-- The key of a name; a call that bypasses the cache has none. -/
def cacheKey (name : Bytes) (port : UInt16) (opts : ResolveOptions) : Bytes :=
  if opts.bypassCache then []
  else makeCacheKey name port opts
    (nameserverCacheContext env.inet (nativeUdpNameservers env.impl opts))

/-- The answer of an entry. -/
def cachedAnswer (hit : ResolveResult) : Except DnsError ResolveResult :=
  if hit.isNegative then .error { kind := .nxdomain, message := "dns: nxdomain (cached)" }
  else .ok { hit with fromCache := true }

/-- Ask the servers for a name and its candidates. No other query is in flight. -/
def resolveNativeUdp (world : World) (host : Bytes) (port : UInt16) (opts : ResolveOptions) :
    Except DnsError ResolveResult :=
  let nsList := nativeUdpNameservers env.impl opts
  if nsList.isEmpty then
    .error { kind := .noServers, message := "resolve: no nameservers configured" }
  else if env.impl.opts.maxInFlightQueries = 0 then
    .error { kind := .cancelled, message := "resolve: max in-flight queries exceeded" }
  else
    buildNativeUdpFlowWithCandidates world nsList port opts
      (resolveCandidates host env.impl.searchDomains env.impl.ndots)

/-- Answer from the entry under a key, or with an answer that is kept under it. -/
def answerFrom (key : Bytes) (answer : Except DnsError ResolveResult) (s : Resolver) :
    Except DnsError ResolveResult × Resolver :=
  match env.get key s with
  | (some hit, s) => (cachedAnswer hit, s)
  | (none, s) => (answer, env.remember key answer s)

/-- `resolve` with its cache. -/
def resolve (world : World) (host : Bytes) (port : UInt16) (opts : ResolveOptions)
    (s : Resolver) : Except DnsError ResolveResult × Resolver :=
  match env.answeredLocally host port opts with
  | some answer => (answer, s)
  | none =>
    env.answerFrom (env.cacheKey host port opts) (env.resolveNativeUdp world host port opts) s

/-- One candidate of a blocking call. -/
def resolveBlockingCandidate (world : World) (nsList : List NameserverEndpoint)
    (port : UInt16) (opts : ResolveOptions) (candidate : Bytes) (s : Resolver) :
    Except DnsError ResolveResult × Resolver :=
  env.answerFrom (env.cacheKey candidate port opts)
    (buildNativeUdpFlowWithNameservers world candidate port opts nsList) s

/-- The loop over the candidates of a blocking call: missing names are passed over. -/
def resolveBlockingCandidates (world : World) (nsList : List NameserverEndpoint)
    (port : UInt16) (opts : ResolveOptions) :
    List Bytes → Option DnsError → Resolver → Except DnsError ResolveResult × Resolver
  | [], lastNxdomain, s => (.error (lastNxdomain.getD nameNotFound), s)
  | candidate :: candidates, _, s =>
    match env.resolveBlockingCandidate world nsList port opts candidate s with
    | (.ok result, s) => (.ok result, s)
    | (.error e, s) =>
      if e.kind = .nxdomain then
        resolveBlockingCandidates world nsList port opts candidates (some e) s
      else (.error e, s)

/-- `resolve_blocking` with its cache. -/
def resolveBlocking (world : World) (host : Bytes) (port : UInt16) (opts : ResolveOptions)
    (s : Resolver) : Except DnsError ResolveResult × Resolver :=
  match env.answeredLocally host port opts with
  | some answer => (answer, s)
  | none =>
    let nsList := nativeUdpNameservers env.impl opts
    if nsList.isEmpty then
      (.error { kind := .noServers, message := "resolve_blocking: no nameservers configured" }, s)
    else
      env.resolveBlockingCandidates world nsList port opts
        (resolveCandidates host env.impl.searchDomains env.impl.ndots) none s

end Env

/-- A call of either kind. -/
structure Call where
  blocking : Bool
  host : Bytes
  port : UInt16
  opts : ResolveOptions
  deriving DecidableEq, Repr

/-- What a caller is told: the endpoints or the kind of the error. -/
def told (answer : Except DnsError ResolveResult) : Except DnsErrorKind (List Endpoint) :=
  match answer with
  | .ok result => .ok result.endpoints
  | .error e => .error e.kind

/-- Run one call to its end. -/
def Env.step (env : Env) (world : World) (c : Call) (s : Resolver) :
    Except DnsError ResolveResult × Resolver :=
  let s := { s with call := s.call + 1, hits := [] }
  if c.blocking then env.resolveBlocking world c.host c.port c.opts s
  else env.resolve world c.host c.port c.opts s

/-- Run calls one after another, each in the world of its time. -/
def Env.run (env : Env) : List (World × Call) → Resolver →
    List (Except DnsErrorKind (List Endpoint)) × Resolver
  | [], s => ([], s)
  | (world, c) :: calls, s =>
    let (answer, s) := env.step world c s
    let (answers, s) := env.run calls s
    (told answer :: answers, s)

/-! ## What the operations leave -/

/-- The entries in the cache. -/
def Resolver.entries (s : Resolver) : List (Bytes × DnsCacheEntry) :=
  match s.cache with
  | none => []
  | some m => m.entries

variable {s : Resolver}

theorem Resolver.entries_of_some {m : Lru Bytes DnsCacheEntry} (h : s.cache = some m) :
    s.entries = m.entries := by
  rw [Resolver.entries, h]

/-- `s'` holds nothing that `s` does not hold. -/
structure Resolver.Within (s' s : Resolver) : Prop where
  call : s'.call = s.call
  entries : ∀ e ∈ s'.entries, e ∈ s.entries

namespace Env

variable {env : Env}

@[simp] theorem entries_start : env.start.entries = [] := by
  rw [Resolver.entries, start]
  split
  · rfl
  rename_i hm
  split at hm
  · cases hm
    rfl
  · cases hm

/-- What a lookup can have done. -/
inductive Got (key : Bytes) (s : Resolver) : Option ResolveResult × Resolver → Prop
  | miss {s' : Resolver} (within : s'.Within s) (hits : s'.hits = s.hits) : Got key s (none, s')
  | hit {s' : Resolver} (entry : DnsCacheEntry) (key_ne : key ≠ [])
      (mem : (key, entry) ∈ s.entries) (within : s'.Within s) (hits : s'.hits = entry :: s.hits) :
      Got key s (some entry.result, s')

theorem got (key : Bytes) (s : Resolver) : Got key s (env.get key s) := by
  have hsame : Got key s (none, s) := .miss ⟨rfl, fun _ he => he⟩ rfl
  rw [get]
  split
  · exact hsame
  rename_i m hm
  split
  · exact hsame
  rename_i hkey
  split
  · exact hsame
  rename_i entry touched hfind
  obtain ⟨hmem, hsub⟩ := Lru.find_eq_some hfind
  rw [← s.entries_of_some hm] at hmem hsub
  split
  · refine .miss ⟨rfl, ?_⟩ rfl
    intro e he
    exact hsub e (mem_erase he)
  refine .hit entry ?_ hmem ⟨rfl, hsub⟩ rfl
  rintro rfl
  exact hkey rfl

variable {key : Bytes}

/-- A key without entries is not found. -/
theorem get_of_notMem (h : ∀ entry, (key, entry) ∉ s.entries) : env.get key s = (none, s) := by
  rw [get]
  split
  · rfl
  rename_i m hm
  rw [s.entries_of_some hm] at h
  have hnone : m.lookup key = none := by
    cases hv : m.lookup key with
    | none => rfl
    | some entry => exact absurd (mem_of_lookup hv) (h entry)
  rw [find_eq_none hnone]
  split <;> rfl

/-- An entry that has not expired is found. -/
theorem get_of_mem {entry : DnsCacheEntry} (hkey : key ≠ []) (h : (key, entry) ∈ s.entries)
    (hlive : env.clock s.ticks < entry.expires) :
    ∃ s', env.get key s = (some entry.result, s') ∧ s'.hits = entry :: s.hits := by
  have hempty : key.isEmpty = false := by simpa using hkey
  rw [get]
  cases hm : s.cache with
  | none =>
    rw [Resolver.entries, hm] at h
    cases h
  | some m =>
    rw [s.entries_of_some hm] at h
    obtain ⟨touched, hfind⟩ := exists_find (lookup_of_mem h)
    simp only [hempty, Bool.false_eq_true, ↓reduceIte, hfind, Int.not_le.mpr hlive]
    exact ⟨_, rfl, rfl⟩

/-- What keeping an answer can have done. -/
structure Kept (env : Env) (key : Bytes) (answer : Except DnsError ResolveResult)
    (s s' : Resolver) : Prop where
  call : s'.call = s.call
  hits : s'.hits = s.hits
  entries : ∀ e ∈ s'.entries, e ∈ s.entries ∨ key ≠ [] ∧ ∃ result ttl expires,
    env.keptFor answer = some (result, ttl) ∧ e = (key, { result, expires, storedBy := s.call })

theorem kept (key : Bytes) (answer : Except DnsError ResolveResult) (s : Resolver) :
    env.Kept key answer s (env.remember key answer s) := by
  have hsame : env.Kept key answer s s := ⟨rfl, rfl, fun _ he => .inl he⟩
  rw [remember]
  split
  · exact hsame
  rename_i result ttl hkept
  rw [put]
  split
  · exact hsame
  rename_i m hm
  split
  · exact hsame
  rename_i hkey
  refine ⟨rfl, rfl, ?_⟩
  intro e he
  rw [s.entries_of_some hm]
  refine (mem_insertOrAssign he).imp_right ?_
  rintro rfl
  refine ⟨?_, result, ttl, _, hkept, rfl⟩
  rintro rfl
  exact hkey rfl

variable {answer : Except DnsError ResolveResult}

/-- An answer that is kept is in the cache, if there is one. -/
theorem mem_remember {result : ResolveResult} {ttl : Int} (hcache : s.cache ≠ none)
    (hkey : key ≠ []) (hkept : env.keptFor answer = some (result, ttl)) :
    (key, { result, expires := env.clock s.ticks + ttl * 1000000000, storedBy := s.call }) ∈
      (env.remember key answer s).entries := by
  have hempty : key.isEmpty = false := by simpa using hkey
  rw [remember, hkept]
  simp only [put]
  cases hm : s.cache with
  | none => exact absurd hm hcache
  | some m =>
    simp only [hempty, Bool.false_eq_true, ↓reduceIte]
    exact mem_of_lookup (lookup_insertOrAssign m key _)

/-! ## Calls without a cache -/

theorem get_of_none (h : s.cache = none) : env.get key s = (none, s) := by
  rw [get, h]

theorem remember_of_none (h : s.cache = none) : env.remember key answer s = s := by
  rw [remember]
  split
  · rfl
  · rw [put, h]

theorem answerFrom_of_none (h : s.cache = none) : env.answerFrom key answer s = (answer, s) := by
  rw [answerFrom, get_of_none h]
  dsimp only
  rw [remember_of_none h]

/-! ## A candidate that is asked for -/

/-- What the servers say about one name. -/
def ask (env : Env) (world : World) (name : Bytes) (port : UInt16) (opts : ResolveOptions) :
    Except DnsError ResolveResult :=
  buildNativeUdpFlowWithNameservers world name port opts (nativeUdpNameservers env.impl opts)

/-- A blocking call whose first candidate has an answer and no entry ends with it. -/
theorem resolveBlocking_first {world : World} {host first : Bytes} {rest : List Bytes}
    {port : UInt16} {opts : ResolveOptions} {result : ResolveResult}
    (hlocal : env.answeredLocally host port opts = none)
    (hservers : nativeUdpNameservers env.impl opts ≠ [])
    (hcandidates : resolveCandidates host env.impl.searchDomains env.impl.ndots = first :: rest)
    (hnew : ∀ entry, (env.cacheKey first port opts, entry) ∉ s.entries)
    (hask : env.ask world first port opts = .ok result) :
    env.resolveBlocking world host port opts s =
      (.ok result, env.remember (env.cacheKey first port opts) (.ok result) s) := by
  have hempty : (nativeUdpNameservers env.impl opts).isEmpty = false := by simpa using hservers
  rw [ask] at hask
  rw [resolveBlocking, hlocal]
  simp only [hempty, Bool.false_eq_true, ↓reduceIte]
  rw [hcandidates, resolveBlockingCandidates, resolveBlockingCandidate, answerFrom]
  simp only [get_of_notMem hnew, hask]

end Env

end Conflux.Dns
