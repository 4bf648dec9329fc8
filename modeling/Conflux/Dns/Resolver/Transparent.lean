import Conflux.Core.Refine
import Conflux.Dns.Resolver.Model

/-!
# When the cache cannot be seen

In a world that stays the same, a resolver with a cache should tell its callers what one
without tells them. As soon as one search domain is used, `resolve` keeps what an expanded name
has under the short name, where `resolveBlocking` looks for the short name itself.
-/

namespace Conflux.Dns

open Conflux.Core List Env

/-! ## Keys tell names and ports apart -/

/-- The digits of a port can be read back. -/
theorem toDigits_of_portChars (port : UInt16) :
    (portChars port).map (fun c => Char.ofNat c.toNat) = Nat.toDigits 10 port.toNat := by
  rw [portChars, map_map]
  conv_rhs => rw [← map_id (Nat.toDigits 10 port.toNat)]
  apply map_congr_left
  intro c hc
  have hdigit := Char.isDigit_iff_toNat.mp (Nat.isDigit_of_mem_toDigits (by decide) (by decide) hc)
  have hlt : c.toNat < 256 := lt_of_le_of_lt hdigit.2 (by decide)
  simp only [Function.comp_apply, id_eq]
  rw [UInt8.toNat_ofNat', Nat.mod_eq_of_lt hlt, Char.ofNat_toNat]

variable {port port' : UInt16} {α : Type} {host name : Bytes}

theorem portChars_injective (h : portChars port = portChars port') : port = port' := by
  have hdigits := congrArg (List.map fun c => Char.ofNat c.toNat) h
  rw [toDigits_of_portChars, toDigits_of_portChars] at hdigits
  have hnat := congrArg (fun cs => Nat.ofDigitChars 10 cs 0) hdigits
  simp only [Nat.ofDigitChars_ten_toDigits] at hnat
  exact UInt16.toNat_inj.mp hnat

theorem colon_notMem_portChars (port : UInt16) : 0x3A ∉ portChars port := by
  intro hmem
  obtain ⟨c, hc, hcolon⟩ := mem_map.mp hmem
  have hdigit := Char.isDigit_iff_toNat.mp (Nat.isDigit_of_mem_toDigits (by decide) (by decide) hc)
  have hnine : '9'.toNat = 57 := rfl
  have hnat := congrArg UInt8.toNat hcolon
  rw [UInt8.toNat_ofNat'] at hnat
  have hright : (0x3A : UInt8).toNat = 58 := rfl
  omega

/-- A letter that comes no more behind a split is not moved into what is in front of it. -/
theorem eq_nil_of_cons_eq_append {a : α} {z y y' : List α} (hy : a ∉ y)
    (h : a :: y = z ++ a :: y') : z = [] := by
  cases z with
  | nil => rfl
  | cons b z =>
    rw [cons_append] at h
    obtain ⟨-, rfl⟩ := List.cons.inj h
    exact absurd (mem_append_right z mem_cons_self) hy

/-- The last occurrence of a letter splits a list in one way. -/
theorem append_cons_inj_of_notMem_right {a : α} {x x' y y' : List α} (hy : a ∉ y) (hy' : a ∉ y')
    (h : x ++ a :: y = x' ++ a :: y') : x = x' ∧ y = y' := by
  obtain ⟨z, rfl, hz⟩ | ⟨z, rfl, hz⟩ := append_eq_append_iff.mp h
  · obtain rfl := eq_nil_of_cons_eq_append hy hz
    exact ⟨(append_nil x).symm, (List.cons.inj hz).2⟩
  · obtain rfl := eq_nil_of_cons_eq_append hy' hz
    exact ⟨append_nil x', (List.cons.inj hz).2.symm⟩

/-- With the same options a key belongs to one name and one port. -/
theorem makeCacheKey_injective {host' : Bytes} {opts : ResolveOptions} {context : Bytes}
    (h : makeCacheKey host port opts context = makeCacheKey host' port' opts context) :
    host = host' ∧ port = port' := by
  rw [makeCacheKey, makeCacheKey] at h
  have hfront := append_cancel_right (append_cancel_right h)
  obtain ⟨hhost, hport⟩ := append_cons_inj_of_notMem_right (colon_notMem_portChars port)
    (colon_notMem_portChars port') hfront
  exact ⟨hhost, portChars_injective hport⟩

variable {s : Resolver}

namespace Env

variable {env : Env}

variable {port : UInt16} {opts : ResolveOptions} {world : World} {name : Bytes}

theorem cacheKey_injective {host host' : Bytes} {port' : UInt16}
    (hkey : env.cacheKey host port opts ≠ [])
    (h : env.cacheKey host port opts = env.cacheKey host' port' opts) :
    host = host' ∧ port = port' := by
  rw [cacheKey] at hkey
  split at hkey
  · exact absurd rfl hkey
  rename_i hbypass
  rw [cacheKey, cacheKey, if_neg hbypass, if_neg hbypass] at h
  exact makeCacheKey_injective h

/-! ## Every entry holds the answer for its name -/

/-- Every entry tells what the servers say about its name. -/
def Sound (env : Env) (world : World) (opts : ResolveOptions) (s : Resolver) : Prop :=
  ∀ host port entry, (env.cacheKey host port opts, entry) ∈ s.entries →
    told (cachedAnswer entry.result) = told (env.ask world (trimDot host) port opts)

theorem Sound.within {s' : Resolver} (h : env.Sound world opts s) (hs : s'.Within s) :
    env.Sound world opts s' := by
  intro host port entry hmem
  exact h host port entry (hs.entries _ hmem)

theorem sound_start (world : World) (opts : ResolveOptions) : env.Sound world opts env.start := by
  intro host port entry hmem
  rw [entries_start] at hmem
  cases hmem

variable {result : ResolveResult}

theorem isNegative_of_joinBatches {prefer : AddressFamily} {v4 v6 : EndpointBatch}
    (h : joinBatches prefer v4 v6 = .ok result) : result.isNegative = false := by
  rw [joinBatches] at h
  split at h
  · cases h
  split at h
  · cases h
  · cases h
    rfl

/-- An answer from the servers is not marked as the note of a missing name. -/
theorem isNegative_of_flow {nsList : List NameserverEndpoint}
    (h : buildNativeUdpFlowWithNameservers world name port opts nsList = .ok result) :
    result.isNegative = false := by
  induction nsList with
  | nil => cases h
  | cons ns nsList ih =>
    rw [buildNativeUdpFlowWithNameservers] at h
    obtain ⟨first, hfirst, h⟩ := exists_of_bind_eq_ok h
    split at h
    · cases h
      rw [buildNativeUdpFlow] at hfirst
      obtain ⟨v4, -, hfirst⟩ := exists_of_bind_eq_ok hfirst
      obtain ⟨v6, -, hfirst⟩ := exists_of_bind_eq_ok hfirst
      exact isNegative_of_joinBatches hfirst
    · exact ih h

/-- An answer that is kept is told again. -/
theorem told_cachedAnswer {ttl : Int}
    (h : env.keptFor (env.ask world name port opts) = some (result, ttl)) :
    told (cachedAnswer result) = told (env.ask world name port opts) := by
  cases hask : env.ask world name port opts with
  | error e =>
    rw [hask, keptFor] at h
    split at h
    · rename_i hkind
      cases h
      exact congrArg Except.error hkind.symm
    · cases h
  | ok answer =>
    rw [hask, keptFor] at h
    split at h
    · cases h
    cases h
    rw [cachedAnswer, isNegative_of_flow hask]
    rfl

/-- Keeping an answer under the key of its name leaves every entry right. -/
theorem Sound.remember (h : env.Sound world opts s) (host : Bytes) (port : UInt16) :
    env.Sound world opts (env.remember (env.cacheKey host port opts)
      (env.ask world (trimDot host) port opts) s) := by
  have hkept := env.kept (env.cacheKey host port opts) (env.ask world (trimDot host) port opts) s
  intro host' port' entry hmem
  obtain hold | ⟨hkey, result, ttl, expires, hresult, hnew⟩ := hkept.entries _ hmem
  · exact h host' port' entry hold
  obtain ⟨hhost, rfl⟩ := Prod.mk.inj hnew
  obtain ⟨rfl, rfl⟩ := cacheKey_injective hkey hhost.symm
  exact told_cachedAnswer hresult

/-! ## Calls without search domains -/

end Env

theorem getLast?_of_labelsValid {cs : Bytes} {labelLen : Nat}
    (h : labelsValid cs labelLen = true) : cs.getLast? ≠ some 0x2E := by
  induction cs generalizing labelLen with
  | nil => exact fun hlast => by cases hlast
  | cons c cs ih =>
    rw [labelsValid] at h
    split at h
    · cases h
    cases cs with
    | nil =>
      intro hlast
      cases hlast
      simp [labelsValid] at h
    | cons d ds =>
      rw [List.getLast?_cons_cons]
      split at h
      all_goals
        split at h
        · cases h
        · exact ih h

/-- A valid name has at most one dot at its end. -/
theorem trimDot_trimDot (h : isValidHostname host = true) :
    trimDot (trimDot host) = trimDot host := by
  have hlabels : labelsValid (trimDot host) 0 = true := by
    rw [isValidHostname] at h
    split at h
    · cases h
    dsimp only at h
    split at h
    · cases h
    · exact h
  rw [trimDot, if_neg (getLast?_of_labelsValid hlabels)]

theorem resolveCandidates_eq {searchDomains : List Bytes} {ndots : Nat}
    (h : searchDomains = [] ∨ ndots = 0) (host : Bytes) :
    resolveCandidates host searchDomains ndots = [trimDot host] := by
  rw [resolveCandidates, trimDot]
  split
  · rfl
  have hplain : (searchDomains.isEmpty || decide (ndots ≤ host.count 0x2E)) = true := by
    obtain rfl | rfl := h
    · rfl
    · simp
  rw [if_pos hplain]

namespace Env

variable {env : Env} {world : World} {opts : ResolveOptions} {s : Resolver}

variable {host : Bytes} {port : UInt16} {answer : Except DnsError ResolveResult}

theorem valid_of_answeredLocally (h : env.answeredLocally host port opts = none) :
    isValidHostname host = true := by
  rw [answeredLocally] at h
  split at h
  · cases h
  split at h
  · cases h
  · rename_i hvalid
    simpa using hvalid

/-- The resolver does not expand names, and takes queries. -/
structure Plain (impl : Impl) : Prop where
  unexpanded : impl.searchDomains = [] ∨ impl.ndots = 0
  inFlight : 0 < impl.opts.maxInFlightQueries

theorem resolveNativeUdp_eq (hplain : Plain env.impl) (world : World) (host : Bytes)
    (port : UInt16) (opts : ResolveOptions) :
    told (env.resolveNativeUdp world host port opts) =
        told (env.ask world (trimDot host) port opts) ∧
      env.keptFor (env.resolveNativeUdp world host port opts) =
        env.keptFor (env.ask world (trimDot host) port opts) := by
  rw [resolveNativeUdp, ask]
  split
  · rename_i hempty
    rw [List.isEmpty_iff.mp hempty]
    exact ⟨rfl, rfl⟩
  rw [if_neg (Nat.pos_iff_ne_zero.mp hplain.inFlight), resolveCandidates_eq hplain.unexpanded,
    buildNativeUdpFlowWithCandidates]
  split
  · rename_i hflow
    rw [hflow]
    exact ⟨rfl, rfl⟩
  rename_i hflow
  rw [hflow]
  simp

theorem remember_congr {key : Bytes} {answer' : Except DnsError ResolveResult}
    (h : env.keptFor answer = env.keptFor answer') :
    env.remember key answer s = env.remember key answer' s := by
  rw [remember, remember, h]

/-- What a resolver that keeps nothing tells. -/
def direct (env : Env) (world : World) (c : Call) : Except DnsErrorKind (List Endpoint) :=
  match env.answeredLocally c.host c.port c.opts with
  | some answer => told answer
  | none => told (env.ask world (trimDot c.host) c.port c.opts)

/-- Answering from the key of a name with what the servers say about the name. -/
theorem Sound.answerFrom (h : env.Sound world opts s)
    (htold : told answer = told (env.ask world (trimDot host) port opts))
    (hkept : env.keptFor answer = env.keptFor (env.ask world (trimDot host) port opts)) :
    told (env.answerFrom (env.cacheKey host port opts) answer s).1 =
        told (env.ask world (trimDot host) port opts) ∧
      env.Sound world opts (env.answerFrom (env.cacheKey host port opts) answer s).2 := by
  have hgot := env.got (env.cacheKey host port opts) s
  rw [Env.answerFrom]
  generalize env.get (env.cacheKey host port opts) s = r at hgot
  cases hgot with
  | miss within _ =>
    dsimp only
    rw [remember_congr hkept]
    exact ⟨htold, (h.within within).remember host port⟩
  | hit entry _ mem within _ => exact ⟨h host port entry mem, h.within within⟩

theorem Sound.resolve (hplain : Plain env.impl) (h : env.Sound world opts s)
    (hlocal : env.answeredLocally host port opts = none) :
    told (env.resolve world host port opts s).1 = told (env.ask world (trimDot host) port opts) ∧
      env.Sound world opts (env.resolve world host port opts s).2 := by
  obtain ⟨htold, hkept⟩ := resolveNativeUdp_eq hplain world host port opts
  rw [Env.resolve, hlocal]
  exact h.answerFrom htold hkept

/-- With one candidate the loop passes its answer on. -/
theorem resolveBlockingCandidates_singleton (nsList : List NameserverEndpoint) (port : UInt16)
    (candidate : Bytes) :
    env.resolveBlockingCandidates world nsList port opts [candidate] none s =
      env.resolveBlockingCandidate world nsList port opts candidate s := by
  rw [resolveBlockingCandidates]
  generalize env.resolveBlockingCandidate world nsList port opts candidate s = r
  obtain ⟨answer, s'⟩ := r
  cases answer with
  | ok result => rfl
  | error e =>
    dsimp only
    rw [resolveBlockingCandidates]
    split <;> rfl

theorem Sound.resolveBlocking (hplain : Plain env.impl) (h : env.Sound world opts s)
    (hlocal : env.answeredLocally host port opts = none) :
    told (env.resolveBlocking world host port opts s).1 =
        told (env.ask world (trimDot host) port opts) ∧
      env.Sound world opts (env.resolveBlocking world host port opts s).2 := by
  have htrim := trimDot_trimDot (valid_of_answeredLocally hlocal)
  rw [Env.resolveBlocking, hlocal]
  dsimp only
  split
  · rename_i hempty
    rw [ask, List.isEmpty_iff.mp hempty]
    exact ⟨rfl, h⟩
  rw [resolveCandidates_eq hplain.unexpanded, resolveBlockingCandidates_singleton]
  have hasked := congrArg (env.ask world · port opts) htrim
  have hanswer := h.answerFrom (congrArg told hasked.symm) (congrArg env.keptFor hasked.symm)
  rw [congrArg told hasked] at hanswer
  exact hanswer

/-- A call tells what a resolver that keeps nothing tells, and leaves every entry right. -/
theorem Sound.step (hplain : Plain env.impl) (h : env.Sound world opts s) {c : Call}
    (hopts : c.opts = opts) :
    told (env.step world c s).1 = env.direct world c ∧
      env.Sound world opts (env.step world c s).2 := by
  subst hopts
  have hbegin : env.Sound world c.opts { s with call := s.call + 1, hits := [] } := h
  rw [step, direct]
  cases hlocal : env.answeredLocally c.host c.port c.opts with
  | some answer =>
    split
    · rw [Env.resolveBlocking, hlocal]
      exact ⟨rfl, hbegin⟩
    · rw [Env.resolve, hlocal]
      exact ⟨rfl, hbegin⟩
  | none =>
    split
    · exact hbegin.resolveBlocking hplain hlocal
    · exact hbegin.resolve hplain hlocal

/-- From right entries the callers are told what they are told without a cache. -/
theorem Sound.run (hplain : Plain env.impl) {calls : List Call}
    (hopts : ∀ c ∈ calls, c.opts = opts) (h : env.Sound world opts s) :
    (env.run (calls.map (world, ·)) s).1 = calls.map (env.direct world) := by
  induction calls generalizing s with
  | nil => rfl
  | cons c calls ih =>
    obtain ⟨htold, hsound⟩ := h.step hplain (hopts c mem_cons_self)
    have hrest := ih (fun c' hc' => hopts c' (mem_cons_of_mem c hc')) hsound
    rw [map_cons, map_cons, ← htold, ← hrest]
    rfl

/-- The same resolver without a cache. -/
def uncached (env : Env) : Env :=
  { env with impl := { env.impl with opts := { env.impl.opts with cacheCapacity := 0 } } }

/-- Whatever calls are made with the same options, callers are told what they are told without a
cache. -/
def Transparent (env : Env) (world : World) : Prop :=
  ∀ (opts : ResolveOptions) (calls : List Call),
    (∀ c ∈ calls, isValidHostname c.host = true ∧ c.opts = opts) →
    (env.run (calls.map (world, ·)) env.start).1 =
      (env.uncached.run (calls.map (world, ·)) env.uncached.start).1

theorem transparent_of_plain (hplain : Plain env.impl) (world : World) : env.Transparent world := by
  intro opts calls hcalls
  have hopts : ∀ c ∈ calls, c.opts = opts := fun c hc => (hcalls c hc).2
  have hcached := (env.sound_start world opts).run hplain hopts
  have hplain' : Plain env.uncached.impl := ⟨hplain.unexpanded, hplain.inFlight⟩
  have huncached := (env.uncached.sound_start world opts).run hplain' hopts
  rw [hcached, huncached]
  rfl

/-! ## One search domain is enough -/

/-- A resolver without a cache does not get one. -/
theorem cache_resolveBlockingCandidates {nsList : List NameserverEndpoint} (h : s.cache = none)
    (candidates : List Bytes) (last : Option DnsError) :
    (env.resolveBlockingCandidates world nsList port opts candidates last s).2.cache = none := by
  induction candidates generalizing last with
  | nil => exact h
  | cons candidate candidates ih =>
    rw [resolveBlockingCandidates, resolveBlockingCandidate, answerFrom_of_none h]
    cases buildNativeUdpFlowWithNameservers world candidate port opts nsList with
    | ok result => exact h
    | error e =>
      dsimp only
      split
      · exact ih _
      · exact h

theorem cache_resolveBlocking (h : s.cache = none) :
    (env.resolveBlocking world host port opts s).2.cache = none := by
  rw [resolveBlocking]
  split
  · exact h
  dsimp only
  split
  · exact h
  · exact cache_resolveBlockingCandidates h _ _

theorem resolve_of_none (h : s.cache = none) (hlocal : env.answeredLocally host port opts = none) :
    (env.resolve world host port opts s).1 = env.resolveNativeUdp world host port opts := by
  rw [resolve, hlocal]
  rw [answerFrom_of_none h]

end Env

/-- The only error of encoding a name is a label that is too long. -/
theorem kind_of_ends_qnameTurn {q : QnameState} {r : Except DnsError Bytes}
    (h : Ends (qnameTurn name) q r) {e : DnsError} (he : r = .error e) :
    e.kind = .invalidHostname := by
  induction h with
  | again _ _ ih => exact ih he
  | done hturn =>
    subst he
    rw [qnameTurn] at hturn
    split at hturn
    · dsimp only at hturn
      split at hturn
      · cases hturn
      split at hturn
      · cases hturn
        rfl
      · cases hturn
    · cases hturn

theorem kind_of_encodeName {e : DnsError} (h : encodeName name = .error e) :
    e.kind = .invalidHostname := by
  rw [encodeName] at h
  cases hlabels : encodeLabels name with
  | error e' =>
    rw [hlabels] at h
    cases h
    exact kind_of_ends_qnameTurn (encodeLabels_ends name) hlabels
  | ok labels =>
    rw [hlabels] at h
    cases h

/-- A server to ask. -/
def sampleServer : NameserverEndpoint where
  addr := .inet 53 0x0A000035
  addrLen := sizeofSockaddrIn

/-- A resolver with one server, the default sizes and times, and a clock that stands still. -/
def sampleEnv (inet : Inet) (searchDomains : List Bytes) (ndots maxInFlight : Nat) : Env where
  inet := inet
  impl :=
    { opts := { enableEtcHosts := false, maxInFlightQueries := maxInFlight }
      nameservers := [sampleServer], searchDomains, ndots }
  clock _ := 0

/-- The name `x`, which no search domain makes longer if a dot is put behind it. -/
def shortName : Bytes := [0x78]

/-- The options for addresses of one family. -/
def v4Only : ResolveOptions := { allowV6 := false }

/-- The short name has one address, every other name another. -/
def splitWorld : World := fun name _ =>
  some [{ address := if name = shortName then [10, 0, 0, 1] else [10, 0, 0, 2], ttl := 60 }]

/-- The short name itself is looked up first, then the short name with its expansions. -/
def splitCalls : List Call :=
  [{ blocking := true, host := shortName ++ [0x2E], port := 80, opts := v4Only },
    { blocking := false, host := shortName, port := 80, opts := v4Only }]

/-- The answer for the short name itself. -/
def shortResult : ResolveResult where
  endpoints := [{ family := .v4, address := [10, 0, 0, 1], port := 80 }]
  suggestedTtl := 60

section

variable (inet : Inet) (searchDomains : List Bytes) (ndots maxInFlight : Nat)

variable {host : Bytes} {env : Env}

theorem tryParseIpLiteral_eq_none {inet : Inet} (port : UInt16)
    (h : (host.takeWhile (· != 0)).all addressChar = false) :
    tryParseIpLiteral inet host port = none := by
  have hnone : ∀ family, inet.pton family (host.takeWhile (· != 0)) = none := by
    intro family
    cases hpton : inet.pton family (host.takeWhile (· != 0)) with
    | none => rfl
    | some address =>
      rw [inet.charset hpton] at h
      cases h
  rw [tryParseIpLiteral]
  split
  · rfl
  · simp only [hnone, Option.map_none]

theorem answeredLocally_sampleEnv {port : UInt16} {opts : ResolveOptions}
    (hliteral : tryParseIpLiteral inet host port = none) (hvalid : isValidHostname host = true) :
    (sampleEnv inet searchDomains ndots maxInFlight).answeredLocally host port opts = none := by
  have hliteral' : tryParseIpLiteral (sampleEnv inet searchDomains ndots maxInFlight).inet host
      port = none := hliteral
  rw [answeredLocally, hliteral', hvalid]
  rfl

theorem ask_shortName :
    (sampleEnv inet searchDomains ndots maxInFlight).ask splitWorld shortName 80 v4Only =
      .ok shortResult := by
  have hns : nativeUdpNameservers (sampleEnv inet searchDomains ndots maxInFlight).impl v4Only =
      [sampleServer] := rfl
  rw [ask, hns]
  decide +kernel

/-- What a run of the two calls tells. -/
theorem run_splitCalls_eq (env : Env) (s : Resolver) :
    (env.run (splitCalls.map (splitWorld, ·)) s).1 =
      let first := env.resolveBlocking splitWorld (shortName ++ [0x2E]) 80 v4Only
        { s with call := s.call + 1, hits := [] }
      [told first.1, told (env.resolve splitWorld shortName 80 v4Only
        { first.2 with call := first.2.call + 1, hits := [] }).1] :=
  rfl

/-- The address of the short name is kept, and it is what `resolve` says next. -/
theorem run_splitCalls :
    ((sampleEnv inet searchDomains ndots maxInFlight).run (splitCalls.map (splitWorld, ·))
      (sampleEnv inet searchDomains ndots maxInFlight).start).1 =
        [.ok shortResult.endpoints, .ok shortResult.endpoints] := by
  set env := sampleEnv inet searchDomains ndots maxInFlight with henv
  have hkey : env.cacheKey shortName 80 v4Only ≠ [] := cons_ne_nil _ _
  have hfirst : env.resolveBlocking splitWorld (shortName ++ [0x2E]) 80 v4Only
      { env.start with call := env.start.call + 1, hits := [] } =
        (.ok shortResult, env.remember (env.cacheKey shortName 80 v4Only) (.ok shortResult)
          { env.start with call := env.start.call + 1, hits := [] }) := by
    apply resolveBlocking_first
    · exact answeredLocally_sampleEnv inet searchDomains ndots maxInFlight
        (tryParseIpLiteral_eq_none 80 (by decide)) (by decide)
    · exact cons_ne_nil _ _
    · rfl
    · intro entry hmem
      cases hmem
    · exact ask_shortName inet searchDomains ndots maxInFlight
  have hlocal : env.answeredLocally shortName 80 v4Only = none :=
    answeredLocally_sampleEnv inet searchDomains ndots maxInFlight
        (tryParseIpLiteral_eq_none 80 (by decide)) (by decide)
  have hcache : ({ env.start with call := env.start.call + 1, hits := [] } : Resolver).cache ≠
      none := Option.some_ne_none _
  have hkept : env.keptFor (.ok shortResult) = some (shortResult, 60) := rfl
  have hmem := env.mem_remember hcache hkey hkept
  rw [run_splitCalls_eq, hfirst]
  dsimp only
  generalize env.remember _ _ _ = r at hmem
  obtain ⟨s', hget, -⟩ := env.get_of_mem (s := { r with call := r.call + 1, hits := [] }) hkey hmem
    (show (0 : Int) < 0 + 60 * 1000000000 by decide)
  rw [resolve, hlocal]
  rw [answerFrom, hget]
  rfl

/-- A name that is not the short one has another address, or none that the resolver takes. -/
theorem flow_splitWorld {name : Bytes} (h : name ≠ shortName) :
    (∃ e, buildNativeUdpFlow splitWorld name 80 v4Only = .error e ∧ e.kind = .invalidHostname) ∨
      ∃ result, buildNativeUdpFlow splitWorld name 80 v4Only = .ok result ∧
        result.endpoints ≠ shortResult.endpoints := by
  have hv4 : buildNativeUdpFlow splitWorld name 80 v4Only =
      buildFamilyFlow splitWorld name 80 .v4 >>= fun v4 => joinBatches .v6 v4 {} := rfl
  rw [hv4, buildFamilyFlow]
  cases hname : encodeName name with
  | error e => exact .inl ⟨e, rfl, kind_of_encodeName hname⟩
  | ok question =>
    right
    rw [ok_bind]
    cases decodeName question 0 with
    | error e => exact ⟨_, rfl, by decide⟩
    | ok r =>
      dsimp only
      split
      · refine ⟨_, rfl, ?_⟩
        rw [splitWorld, if_neg h]
        decide
      · exact ⟨_, rfl, by decide⟩

/-- The first expansion of the short name. -/
theorem resolveCandidates_shortName (domain : Bytes) (domains : List Bytes) {ndots : Nat}
    (h : 0 < ndots) :
    ∃ rest, resolveCandidates shortName (domain :: domains) ndots =
      (shortName ++ 0x2E :: domain) :: rest := by
  have hdots : ¬ ndots ≤ 0 := by omega
  refine ⟨domains.map (fun domain => shortName ++ 0x2E :: domain) ++ [shortName], ?_⟩
  simp [resolveCandidates, shortName, hdots]

/-- Without a cache `resolve` does not tell what the short name has, if it is expanded or no query
may be in flight. -/
theorem resolveNativeUdp_shortName (hservers : env.impl.nameservers = [sampleServer])
    (hattempts : env.impl.attempts = 1) (h : ¬ Plain env.impl) :
    told (env.resolveNativeUdp splitWorld shortName 80 v4Only) ≠ .ok shortResult.endpoints := by
  have hns : nativeUdpNameservers env.impl v4Only = [sampleServer] := by
    rw [nativeUdpNameservers, hservers, hattempts]
    rfl
  rw [resolveNativeUdp, hns, if_neg (by decide)]
  split
  · exact fun h => by cases h
  rename_i hflight
  have hexpanded : ¬ (env.impl.searchDomains = [] ∨ env.impl.ndots = 0) :=
    fun hplain => h ⟨hplain, Nat.pos_of_ne_zero hflight⟩
  obtain ⟨hsearch, hndots⟩ := not_or.mp hexpanded
  obtain ⟨domain, domains, hdomains⟩ := exists_cons_of_ne_nil hsearch
  obtain ⟨rest, hrest⟩ := resolveCandidates_shortName domain domains (Nat.pos_of_ne_zero hndots)
  have hne : shortName ++ 0x2E :: domain ≠ shortName := by
    intro heq
    have hlength := congrArg List.length heq
    simp at hlength
  rw [hdomains, hrest, buildNativeUdpFlowWithCandidates, buildNativeUdpFlowWithNameservers]
  obtain ⟨e, hflow, hkind⟩ | ⟨result, hflow, hresult⟩ := flow_splitWorld hne
  · have hother : (decide (e.kind ≠ .nxdomain) || rest.isEmpty) = true := by
      rw [hkind]
      rfl
    rw [hflow]
    simp only [bind, Except.bind, hother, if_true]
    exact fun h => by cases h
  · rw [hflow]
    simp only [bind, Except.bind, isEmpty_nil, Bool.or_true, if_true, pure, Except.pure]
    exact fun h => hresult (Except.ok.inj h)

/-- Without a cache the second call asks the servers again. -/
theorem run_splitCalls_of_none (hcache : s.cache = none)
    (hlocal : env.answeredLocally shortName 80 v4Only = none) :
    ∃ first, (env.run (splitCalls.map (splitWorld, ·)) s).1 =
      [first, told (env.resolveNativeUdp splitWorld shortName 80 v4Only)] := by
  have hnone : (env.resolveBlocking splitWorld (shortName ++ [0x2E]) 80 v4Only
      { s with call := s.call + 1, hits := [] }).2.cache = none := cache_resolveBlocking hcache
  rw [run_splitCalls_eq]
  generalize env.resolveBlocking splitWorld (shortName ++ [0x2E]) 80 v4Only
    { s with call := s.call + 1, hits := [] } = first at hnone
  have hsecond : (env.resolve splitWorld shortName 80 v4Only
      { first.2 with call := first.2.call + 1, hits := [] }).1 =
        env.resolveNativeUdp splitWorld shortName 80 v4Only := resolve_of_none hnone hlocal
  rw [← hsecond]
  exact ⟨_, rfl⟩

end

/-- A cache is transparent in every world exactly if no name is expanded and queries may be in
flight. -/
theorem transparent_iff (inet : Inet) (searchDomains : List Bytes) (ndots maxInFlight : Nat) :
    (∀ env : Env, env.inet = inet → env.impl.searchDomains = searchDomains →
        env.impl.ndots = ndots → env.impl.opts.maxInFlightQueries = maxInFlight →
        ∀ world, env.Transparent world) ↔
      (searchDomains = [] ∨ ndots = 0) ∧ 0 < maxInFlight := by
  set env := sampleEnv inet searchDomains ndots maxInFlight
  constructor
  · intro htransparent
    by_contra hplain
    have hnot : ¬ Env.Plain env.uncached.impl :=
      fun h => hplain ⟨h.unexpanded, h.inFlight⟩
    have hsame := htransparent env rfl rfl rfl rfl
      splitWorld v4Only splitCalls (by decide)
    have hlocal : env.uncached.answeredLocally
        shortName 80 v4Only = none :=
      answeredLocally_sampleEnv inet searchDomains ndots maxInFlight
        (tryParseIpLiteral_eq_none 80 (by decide)) (by decide)
    obtain ⟨first, hfirst⟩ := run_splitCalls_of_none
      (s := env.uncached.start) rfl hlocal
    rw [run_splitCalls, hfirst] at hsame
    have hsecond := (List.cons.inj (List.cons.inj hsame).2).1
    exact resolveNativeUdp_shortName rfl rfl hnot hsecond.symm
  · rintro ⟨hunexpanded, hflight⟩ env rfl rfl rfl rfl world
    exact Env.transparent_of_plain ⟨hunexpanded, hflight⟩ world

/-- A library that reads no addresses, and writes one of version 4 as a number. -/
def sampleInet : Inet where
  pton _ _ := none
  ntop
    | .inet _ addr => (Nat.toDigits 10 addr.toNat).map fun c => UInt8.ofNat c.toNat
    | .inet6 _ addr _ => addr
    | .other _ => []
  charset h := by cases h

/-- With the search domain `corp`, `resolve` is told the address of `x` instead of that of
`x.corp`. -/
theorem run_splitCalls_corp :
    let env := sampleEnv sampleInet [[0x63, 0x6F, 0x72, 0x70]] 1 4096
    (env.run (splitCalls.map (splitWorld, ·)) env.start).1 =
        [.ok [{ family := .v4, address := [10, 0, 0, 1], port := 80 }],
          .ok [{ family := .v4, address := [10, 0, 0, 1], port := 80 }]] ∧
      (env.uncached.run (splitCalls.map (splitWorld, ·)) env.uncached.start).1 =
        [.ok [{ family := .v4, address := [10, 0, 0, 1], port := 80 }],
          .ok [{ family := .v4, address := [10, 0, 0, 2], port := 80 }]] := by
  decide +kernel

end Conflux.Dns
