import Conflux.Dns.Resolver.Transparent

/-!
# What an invalidated name is answered from

`invalidate` drops the entries whose key begins with the name and a colon. That covers what
`resolve` reads for the name, and what `resolveBlocking` reads if the name is its own only
candidate. The entries of other candidates stay: a name with a dot at its end, or one that
search domains expand, is answered from them afterwards.
-/

namespace Conflux.Dns

open Conflux.Core List

/-- A key belongs to a name. -/
def KeyOf (host key : Bytes) : Prop := (host ++ [0x3A]).isPrefixOf key = true

theorem keyOf_makeCacheKey (host : Bytes) (port : UInt16) (opts : ResolveOptions)
    (context : Bytes) : KeyOf host (makeCacheKey host port opts context) := by
  rw [KeyOf, isPrefixOf_iff_prefix]
  refine ⟨portChars port ++ 0x3A :: familyChars opts ++ 0x3A :: context, ?_⟩
  simp [makeCacheKey]

variable {host first name : Bytes} {rest searchDomains : List Bytes} {ndots : Nat}

/-- A name followed by something else than a colon has other keys. -/
theorem not_keyOf_of_append {rest : Bytes} {c : UInt8} (hc : c ≠ 0x3A) :
    ¬ KeyOf host (host ++ c :: rest) := by
  rw [KeyOf, isPrefixOf_iff_prefix, prefix_append_right_inj]
  intro h
  obtain ⟨hcolon, -⟩ := cons_prefix_cons.mp h
  exact hc hcolon.symm

namespace Env

variable {env : Env}

/-- Every entry that belongs to the name was stored by a call after the `n`-th. -/
def Recent (host : Bytes) (n : Nat) (s : Resolver) : Prop :=
  ∀ e ∈ s.entries, KeyOf host e.1 → n < e.2.storedBy

theorem recent_invalidate (host : Bytes) (n : Nat) (s : Resolver) :
    Recent host n (invalidate host s) := by
  intro e he hkey
  rw [Resolver.entries, invalidate] at he
  cases hm : s.cache with
  | none =>
    rw [hm] at he
    cases he
  | some m =>
    rw [hm] at he
    have hkept := (Lru.mem_eraseIf.mp he).2
    rw [KeyOf] at hkey
    rw [hkey] at hkept
    cases hkept

/-- During a call after the `n`-th: what it has read and what the name has were stored after
the `n`-th call. -/
structure Renewed (host : Bytes) (n : Nat) (s : Resolver) : Prop where
  recent : Recent host n s
  hits : ∀ entry ∈ s.hits, n < entry.storedBy
  call : n < s.call

variable {host : Bytes} {n : Nat} {s : Resolver}

theorem keyOf_cacheKey (host : Bytes) (port : UInt16) (opts : ResolveOptions)
    (h : env.cacheKey host port opts ≠ []) : KeyOf host (env.cacheKey host port opts) := by
  rw [cacheKey] at h ⊢
  split
  · rename_i hbypass
    rw [if_pos hbypass] at h
    exact absurd rfl h
  · exact keyOf_makeCacheKey _ _ _ _

section

variable (h : Renewed host n s)
include h

/-- Looking under a key of the name. -/
theorem Renewed.get {key : Bytes} (hkey : key ≠ [] → KeyOf host key) :
    Renewed host n (env.get key s).2 := by
  have hgot := env.got key s
  generalize env.get key s = r at hgot
  cases hgot with
  | miss within hhits =>
    refine ⟨fun e he => h.recent e (within.entries e he), ?_, within.call ▸ h.call⟩
    rw [hhits]
    exact h.hits
  | hit entry key_ne mem within hhits =>
    refine ⟨fun e he => h.recent e (within.entries e he), ?_, within.call ▸ h.call⟩
    rw [hhits]
    intro entry' hentry'
    rcases mem_cons.mp hentry' with rfl | hold
    · exact h.recent _ mem (hkey key_ne)
    · exact h.hits entry' hold

/-- Whatever a call stores is stored by it. -/
theorem Renewed.remember (key : Bytes)
    (answer : Except DnsError ResolveResult) : Renewed host n (env.remember key answer s) := by
  have hkept := env.kept key answer s
  refine ⟨?_, hkept.hits ▸ h.hits, hkept.call ▸ h.call⟩
  intro e he hkey
  obtain hold | ⟨-, result, ttl, expires, -, rfl⟩ := hkept.entries e he
  · exact h.recent e hold hkey
  · exact h.call

theorem Renewed.answerFrom (port : UInt16) (opts : ResolveOptions)
    (answer : Except DnsError ResolveResult) :
    Renewed host n (env.answerFrom (env.cacheKey host port opts) answer s).2 := by
  have hget : Renewed host n (env.get (env.cacheKey host port opts) s).2 :=
    h.get (keyOf_cacheKey host port opts)
  rw [Env.answerFrom]
  generalize env.get (env.cacheKey host port opts) s = r at hget
  obtain ⟨hit, s'⟩ := r
  cases hit with
  | some hit => exact hget
  | none => exact hget.remember _ _

theorem Renewed.resolve (world : World) (port : UInt16)
    (opts : ResolveOptions) : Renewed host n (env.resolve world host port opts s).2 := by
  rw [Env.resolve]
  split
  · exact h
  · exact h.answerFrom port opts _

theorem Renewed.resolveBlocking
    (hself : resolveCandidates host env.impl.searchDomains env.impl.ndots = [host])
    (world : World) (port : UInt16) (opts : ResolveOptions) :
    Renewed host n (env.resolveBlocking world host port opts s).2 := by
  rw [Env.resolveBlocking]
  split
  · exact h
  dsimp only
  split
  · exact h
  · rw [hself, resolveBlockingCandidates_singleton]
    exact h.answerFrom port opts _

end

/-- A call for a name that is its own only candidate. -/
theorem Recent.step (h : Recent host n s) (hcall : n ≤ s.call)
    (hself : resolveCandidates host env.impl.searchDomains env.impl.ndots = [host])
    (world : World) {c : Call} (hhost : c.host = host) :
    Renewed host n (env.step world c s).2 := by
  have hbegin : Renewed host n { s with call := s.call + 1, hits := [] } :=
    ⟨h, fun entry hentry => (by cases hentry), Nat.lt_succ_of_le hcall⟩
  rw [Env.step, hhost]
  split
  · exact hbegin.resolveBlocking hself world c.port c.opts
  · exact hbegin.resolve world c.port c.opts

variable {calls : List (World × Call)}

/-- Calls for the name keep its entries recent. -/
theorem Recent.run (hself : resolveCandidates host env.impl.searchDomains env.impl.ndots = [host])
    (hcalls : ∀ c ∈ calls, c.2.host = host) (h : Recent host n s) (hcall : n ≤ s.call) :
    Recent host n (env.run calls s).2 ∧ n ≤ (env.run calls s).2.call := by
  induction calls generalizing s with
  | nil => exact ⟨h, hcall⟩
  | cons wc calls ih =>
    have hstep := h.step hcall hself wc.1 (hcalls wc mem_cons_self)
    exact ih (fun c hc => hcalls c (mem_cons_of_mem wc hc)) hstep.recent (le_of_lt hstep.call)

/-- After `invalidate` and any calls, the next call for the name reads no entry from before it. -/
def FreshAfter (env : Env) (host : Bytes) (calls : List (World × Call)) : Prop :=
  ∀ (history : List (World × Call)) (world : World) (c : Call), c.host = host →
    let s := (env.run history env.start).2
    ∀ entry ∈ (env.step world c (env.run calls (invalidate host s)).2).2.hits,
      s.call < entry.storedBy

theorem freshAfter (hself : resolveCandidates host env.impl.searchDomains env.impl.ndots = [host])
    (hcalls : ∀ c ∈ calls, c.2.host = host) :
    env.FreshAfter host calls := by
  intro history world c hhost s
  obtain ⟨hrecent, hcall⟩ := (recent_invalidate host s.call s).run hself hcalls (le_refl s.call)
  exact (hrecent.step hcall hself world hhost).hits

/-! ## Entries that stay -/

theorem mem_invalidate {e : Bytes × DnsCacheEntry} (he : e ∈ s.entries)
    (hkey : ¬ KeyOf host e.1) : e ∈ (invalidate host s).entries := by
  cases hm : s.cache with
  | none =>
    rw [Resolver.entries, hm] at he
    cases he
  | some m =>
    rw [s.entries_of_some hm] at he
    rw [Resolver.entries, invalidate, hm]
    exact Lru.mem_eraseIf.mpr ⟨he, Bool.eq_false_iff.mpr hkey⟩

/-- A blocking call whose first candidate has an entry with addresses is answered from it. -/
theorem hits_resolveBlocking (world : World) {first : Bytes} {rest : List Bytes}
    {port : UInt16} {opts : ResolveOptions} {entry : DnsCacheEntry}
    (hlocal : env.answeredLocally host port opts = none)
    (hservers : nativeUdpNameservers env.impl opts ≠ [])
    (hcandidates : resolveCandidates host env.impl.searchDomains env.impl.ndots = first :: rest)
    (hkey : env.cacheKey first port opts ≠ [])
    (hmem : (env.cacheKey first port opts, entry) ∈ s.entries)
    (hlive : env.clock s.ticks < entry.expires) (hpositive : entry.result.isNegative = false) :
    (env.resolveBlocking world host port opts s).2.hits = entry :: s.hits := by
  have hempty : (nativeUdpNameservers env.impl opts).isEmpty = false := by simpa using hservers
  obtain ⟨s', hget, hhits⟩ := env.get_of_mem hkey hmem hlive
  rw [Env.resolveBlocking, hlocal]
  simp only [hempty, Bool.false_eq_true, ↓reduceIte]
  rw [hcandidates, resolveBlockingCandidates, resolveBlockingCandidate, Env.answerFrom]
  simp only [hget, cachedAnswer, hpositive, Bool.false_eq_true, ↓reduceIte]
  exact hhits

end Env

theorem resolveCandidates_ne_nil (host : Bytes) (searchDomains : List Bytes) (ndots : Nat) :
    resolveCandidates host searchDomains ndots ≠ [] := by
  rw [resolveCandidates]
  split
  · exact cons_ne_nil _ _
  split
  · exact cons_ne_nil _ _
  · exact append_ne_nil_of_right_ne_nil _ (cons_ne_nil _ _)

/-- Another first candidate than the name itself has keys that do not belong to the name. -/
theorem not_keyOf_first (h : resolveCandidates host searchDomains ndots = first :: rest)
    (hself : resolveCandidates host searchDomains ndots ≠ [host]) (port : UInt16)
    (opts : ResolveOptions) (context : Bytes) :
    ¬ KeyOf host (makeCacheKey first port opts context) := by
  rw [resolveCandidates] at h hself
  split at h
  · rename_i hdot
    obtain ⟨rfl, -⟩ := List.cons.inj h
    have hhost : host = host.dropLast ++ [0x2E] :=
      (dropLast_append_getLast? 0x2E hdot).symm
    generalize host.dropLast = name at hhost
    subst hhost
    rw [KeyOf, isPrefixOf_iff_prefix, makeCacheKey, append_assoc, append_assoc,
      append_assoc, prefix_append_right_inj]
    intro hprefix
    obtain ⟨heq, -⟩ := cons_prefix_cons.mp hprefix
    cases heq
  rename_i hdot
  rw [if_neg hdot] at hself
  split at h
  · rename_i hplain
    rw [if_pos hplain] at hself
    exact absurd rfl hself
  cases searchDomains with
  | nil => simp at *
  | cons domain domains =>
    obtain ⟨rfl, -⟩ := List.cons.inj h
    rw [makeCacheKey, append_assoc, append_assoc, append_assoc, cons_append]
    exact not_keyOf_of_append (by decide)

/-- The resolver takes the answers for the name: it can be encoded, and the server repeats it as
asked for. -/
def Accepted (name : Bytes) : Prop :=
  ∃ question next, encodeName name = .ok question ∧
    decodeName question 0 = .ok (name.map asciiLower, next)

/-- Valid names without a dot at their end are asked for as they are. -/
theorem accepted_of_valid (hvalid : isValidHostname name = true) (htrim : trimDot name = name) :
    Accepted name := by
  obtain ⟨first, rest, hname, hform, hshort, hgood⟩ := exists_labels_of_valid hvalid
  have hencode := encodeName_eq hgood hform
  have hdecode : decodeName ((first :: rest).flatMap wireLabel ++ [0]) 0 =
      .ok ((joinLabels first rest).map asciiLower,
        ((first :: rest).flatMap wireLabel ++ [0]).length) := decodeName_of_drop hgood hshort rfl
  rw [← hname, htrim] at hdecode
  exact ⟨_, _, hencode, hdecode⟩

/-- Every name has the same address. -/
def flatWorld : World := fun _ _ => some [{ address := [10, 0, 0, 1], ttl := 60 }]

theorem ask_flatWorld (inet : Inet) (searchDomains : List Bytes) (ndots maxInFlight : Nat)
    (h : Accepted name) :
    (sampleEnv inet searchDomains ndots maxInFlight).ask flatWorld name 80 v4Only =
      .ok shortResult := by
  obtain ⟨question, next, hencode, hdecode⟩ := h
  have hflow : buildFamilyFlow flatWorld name 80 .v4 =
      .ok { eps := shortResult.endpoints, minTtl := 60 } := by
    rw [buildFamilyFlow, hencode, ok_bind, hdecode]
    dsimp only
    rw [if_pos rfl]
    rfl
  have hns : nativeUdpNameservers (sampleEnv inet searchDomains ndots maxInFlight).impl v4Only =
      [sampleServer] := rfl
  rw [Env.ask, hns, buildNativeUdpFlowWithNameservers, buildNativeUdpFlow]
  simp only [v4Only, if_true, hflow]
  rfl

/-- A blocking call for the name, in the world where every name has the same address. -/
def flatCall (host : Bytes) : Call where
  blocking := true
  host := host
  port := 80
  opts := v4Only

/-- The entry of another first candidate outlives `invalidate`, and the next blocking call is
answered from it. -/
theorem not_freshAfter {inet : Inet} (hvalid : isValidHostname host = true)
    (hliteral : tryParseIpLiteral inet host 80 = none)
    (hcandidates : resolveCandidates host searchDomains ndots = first :: rest)
    (hself : resolveCandidates host searchDomains ndots ≠ [host]) (haccepted : Accepted first) :
    ¬ (sampleEnv inet searchDomains ndots 4096).FreshAfter host [] := by
  intro hfresh
  have hlocal : (sampleEnv inet searchDomains ndots 4096).answeredLocally host 80 v4Only = none :=
    answeredLocally_sampleEnv inet searchDomains ndots 4096 hliteral hvalid
  have hask := ask_flatWorld inet searchDomains ndots 4096 haccepted
  have hstale := hfresh [(flatWorld, flatCall host)] flatWorld (flatCall host) rfl
  generalize henv : sampleEnv inet searchDomains ndots 4096 = env at *
  have hservers : nativeUdpNameservers env.impl v4Only ≠ [] := by
    rw [← henv]
    exact cons_ne_nil _ _
  have hcandidates' : resolveCandidates host env.impl.searchDomains env.impl.ndots =
      first :: rest := by
    rw [← henv]
    exact hcandidates
  have hkey : env.cacheKey first 80 v4Only ≠ [] := by
    rw [← henv]
    exact fun h => by simp [Env.cacheKey, makeCacheKey, v4Only] at h
  have hkept : env.keptFor (.ok shortResult) = some (shortResult, 60) := by
    rw [← henv]
    rfl
  have hclock : ∀ i, env.clock i = 0 := by
    rw [← henv]
    exact fun _ => rfl
  have hcache : ({ env.start with call := 1, hits := [] } : Resolver).cache ≠ none := by
    rw [← henv]
    exact Option.some_ne_none _
  have hnew : ∀ entry, (env.cacheKey first 80 v4Only, entry) ∉
      ({ env.start with call := 1, hits := [] } : Resolver).entries := by
    intro entry hmem
    have hempty : (env.cacheKey first 80 v4Only, entry) ∈ env.start.entries := hmem
    rw [Env.entries_start] at hempty
    cases hempty
  -- The first call keeps the address under the candidate, and it stays there.
  have hstored : env.step flatWorld (flatCall host) env.start =
      (.ok shortResult, env.remember (env.cacheKey first 80 v4Only) (.ok shortResult)
        { env.start with call := 1, hits := [] }) :=
    Env.resolveBlocking_first hlocal hservers hcandidates' hnew hask
  have hrun : (env.run [(flatWorld, flatCall host)] env.start).2 =
      (env.step flatWorld (flatCall host) env.start).2 := rfl
  have hmem := env.mem_remember hcache hkey hkept
  have hcall := (env.kept (env.cacheKey first 80 v4Only) (.ok shortResult)
    { env.start with call := 1, hits := [] }).call
  rw [hrun, hstored] at hstale
  generalize env.remember _ _ _ = s at hstale hmem hcall
  have hstays := Env.mem_invalidate hmem (not_keyOf_first hcandidates hself 80 v4Only _)
  -- The second call is answered from it.
  have hlive : env.clock s.ticks < env.clock env.start.ticks + 60 * 1000000000 := by
    rw [hclock, hclock]
    decide
  have hhits := Env.hits_resolveBlocking flatWorld
    (s := { Env.invalidate host s with call := s.call + 1, hits := [] }) hlocal hservers
    hcandidates' hkey hstays hlive rfl
  have hlate := hstale _ (hhits ▸ mem_cons_self)
  rw [hcall] at hlate
  exact absurd hlate (lt_irrefl 1)

/-- If a name is its own only candidate, the calls for it are not answered from entries from
before `invalidate`. If it is not, and its first candidate is a valid name, then some call
is. -/
theorem freshAfter_invalidate (inet : Inet) (searchDomains : List Bytes) (ndots : Nat)
    (host : Bytes) (hvalid : isValidHostname host = true) :
    (resolveCandidates host searchDomains ndots = [host] →
        ∀ env : Env, env.inet = inet → env.impl.searchDomains = searchDomains →
          env.impl.ndots = ndots → ∀ calls : List (World × Call),
            (∀ c ∈ calls, c.2.host = host) → env.FreshAfter host calls) ∧
      ((∀ port, tryParseIpLiteral inet host port = none) →
        (∀ first rest, resolveCandidates host searchDomains ndots = first :: rest →
          isValidHostname first = true ∧ trimDot first = first) →
        (∀ env : Env, env.inet = inet → env.impl.searchDomains = searchDomains →
          env.impl.ndots = ndots → env.FreshAfter host []) →
        resolveCandidates host searchDomains ndots = [host]) := by
  constructor
  · rintro hself env rfl rfl rfl calls hcalls
    exact Env.freshAfter hself hcalls
  intro hliteral hfirst hfresh
  by_contra hself
  obtain ⟨first, rest, hcandidates⟩ :=
    exists_cons_of_ne_nil (resolveCandidates_ne_nil host searchDomains ndots)
  obtain ⟨hfirstValid, htrim⟩ := hfirst first rest hcandidates
  exact not_freshAfter hvalid (hliteral 80) hcandidates hself
    (accepted_of_valid hfirstValid htrim)
    (hfresh (sampleEnv inet searchDomains ndots 4096) rfl rfl rfl)

/-- The name `db`. -/
def sampleHost : Bytes := [0x64, 0x62]

/-- Without search domains `db` is its own only candidate. -/
theorem freshAfter_invalidate_sampleHost :
    isValidHostname sampleHost = true ∧
      (sampleEnv sampleInet [] 1 4096).FreshAfter sampleHost [] := by
  refine ⟨by decide, ?_⟩
  exact (freshAfter_invalidate sampleInet [] 1 sampleHost (by decide)).1 (by decide)
    (sampleEnv sampleInet [] 1 4096) rfl rfl rfl [] (fun _ hc => by cases hc)

/-- With the search domain `corp` the entry for `db.corp` answers the call after `invalidate`. -/
theorem hits_step_invalidate :
    let env := sampleEnv sampleInet [[0x63, 0x6F, 0x72, 0x70]] 1 4096
    let s := (env.run [(flatWorld, flatCall sampleHost)] env.start).2
    s.call = 1 ∧ (env.step flatWorld (flatCall sampleHost)
      (Env.invalidate sampleHost s)).2.hits.map DnsCacheEntry.storedBy = [1] := by
  decide +kernel

end Conflux.Dns
