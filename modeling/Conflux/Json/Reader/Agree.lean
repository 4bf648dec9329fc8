import Conflux.Json.Dom.Strict
import Conflux.Json.Reader.Follow
import Conflux.Json.Reader.Progress

/-!
# The pull reader and the parser

The reader hands out the events of exactly one value when the reference reader reads a tree
that passes the reader's checks.
-/

namespace Conflux.Json

open Conflux.Core List

namespace JsonReader

variable {opts : JsonParseOptions} {input : Bytes} {v : JVal}

/-- What is left after a complete value at the top. -/
theorem pull_top {r : JsonReader} {c : Cur} (h : r.Stands c []) :
    (∃ s, r.pull opts = (.ok none, s)) ↔ ∃ c', skipWs opts.mode c = .ok c' ∧ c'.rest = [] := by
  cases hws : skipWs opts.mode c with
  | error f =>
    have hbreak : Breaks (pull opts) (r.pull opts) := pull_of_wsError h hws
    constructor
    · rintro ⟨s, hs⟩
      rw [hs] at hbreak
      cases hbreak
    · rintro ⟨c', hc', -⟩
      cases hc'
  | ok c' =>
    rw [pull_of_skipWs h hws, dispatch]
    rw [h.stack]
    by_cases hrest : c'.rest = []
    · rw [if_pos hrest]
      exact ⟨fun _ => ⟨c', rfl, hrest⟩, fun _ => ⟨_, rfl⟩⟩
    rw [if_neg hrest]
    constructor
    · rintro ⟨s, hs⟩
      unfold valueEvent at hs
      dsimp only at hs
      split at hs <;> cases hs
    · rintro ⟨c'', hc'', hnil⟩
      cases hc''
      exact absurd hnil hrest

theorem stands_ofInput (input : Bytes) : (ofInput input).Stands ⟨{}, input⟩ [] :=
  ⟨rfl, rfl, rfl⟩

/-- The first event at the top is that of a value. -/
theorem pull_ofInput {c : Cur} (hws : skipWs opts.mode ⟨{}, input⟩ = .ok c) (hne : c.rest ≠ []) :
    ∃ s : JsonReader, (ofInput input).pull opts = s.valuePull opts ∧ s.Stands c [] := by
  rw [pull_of_skipWs (stands_ofInput input) hws, dispatch]
  rw [(stands_ofInput input).stack]
  rw [if_neg hne]
  exact ⟨_, rfl, rfl, rfl, rfl⟩

/-- The events of a value have a first one. -/
theorem events_ne_nil (v : JVal) : v.events ≠ [] := by
  cases v <;> simp [JVal.events]

/-- From the start, the events are those of the value that is read there, unless there is
nothing but whitespace. -/
theorem pull_start (opts : JsonParseOptions) (input : Bytes) :
    Tracks (pull opts) ((ofInput input).pull opts)
        (readValue opts.mode (readFuel input) ⟨{}, input⟩) (fun b => b.1.pulls opts 0)
        (fun b => (b.1.value .reject).events) (fun b s => s.Stands b.2 []) ∨
      (readValue opts.mode (readFuel input) ⟨{}, input⟩ = none ∧
        ∃ s, (ofInput input).pull opts = (.ok none, s)) := by
  cases hws : skipWs opts.mode ⟨{}, input⟩ with
  | error f =>
    exact .inl (tracks_none (pull_of_wsError (stands_ofInput input) hws) (readValue_of_error hws _))
  | ok c =>
    by_cases hrest : c.rest = []
    · exact .inr ⟨readValue_of_nil hws hrest _,
        (pull_top (stands_ofInput input)).mpr ⟨c, hws, hrest⟩⟩
    left
    obtain ⟨s, hpull, hs⟩ := pull_ofInput hws hrest
    have hlen : 2 * c.rest.length < readFuel input := by
      obtain ⟨w, -, hw⟩ := skipWs_reads hws
      have hlen := hw.length_eq
      simp only [readFuel] at hlen ⊢
      omega
    rw [hpull, readValue_of_skipWs hws]
    exact (pulls_follow opts (readFuel input)).value hs (skipWs_idem hws) hlen

/-- The reader hands out the events of one value, and then the end, exactly when its input is a
tree that passes its checks. The value is that of the tree. -/
theorem readAll_value_iff :
    (ofInput input).readAll opts = (v.events, .finished) ↔
      ∃ t, readText opts.mode ⟨{}, input⟩ = some t ∧ t.pulls opts 0 ∧ v = t.value .reject := by
  simp only [readAll_eq_iff, readText_eq_some_iff]
  constructor
  · rintro ⟨s', hdrains⟩
    obtain htracks | ⟨-, s, hend⟩ := pull_start opts input
    · obtain ⟨⟨t, c₁⟩, s₁, hread, hok, hyields, hs₁⟩ | ⟨hbreak, -⟩ := htracks
      · -- What comes after the value would be events of a second one.
        obtain ⟨s₂, htail⟩ := drains_readAll opts s₁
        obtain ⟨hes, ho, -⟩ := hdrains.unique (hyields.drains rfl htail)
        obtain ⟨hnil, hv⟩ := JVal.events_append hes.symm
        rw [hnil, ← ho] at htail
        cases htail with
        | finished hend =>
          obtain ⟨c₂, hws₂, hrest⟩ := (pull_top hs₁).mp ⟨_, hend⟩
          exact ⟨t, ⟨c₁, c₂, hread, hws₂, hrest⟩, hok, hv.symm⟩
      · obtain ⟨as, e, s, hfail⟩ := hbreak.drains rfl
        obtain ⟨-, ho, -⟩ := hdrains.unique hfail
        cases ho
    · obtain ⟨hes, -, -⟩ := hdrains.unique (.finished hend)
      exact absurd hes (events_ne_nil v)
  rintro ⟨t, ⟨c₁, c₂, hread, hws₂, hrest⟩, hok, rfl⟩
  obtain htracks | ⟨hnone, -⟩ := pull_start opts input
  · obtain ⟨b, s₁, hread', -, hyields, hs₁⟩ | ⟨-, hno⟩ := htracks
    · obtain rfl : b = (t, c₁) := Option.some.inj (hread'.symm.trans hread)
      obtain ⟨s₂, hend⟩ := (pull_top hs₁).mpr ⟨c₂, hws₂, hrest⟩
      have hdrains := hyields.drains rfl (.finished hend)
      rw [append_nil] at hdrains
      exact ⟨s₂, hdrains⟩
    · exact absurd hok (hno _ hread)
  · have hsome : readValue opts.mode (readFuel input) ⟨{}, input⟩ = some (t, c₁) := hread
    rw [hnone] at hsome
    cases hsome

end JsonReader

/-! ## Checks at every value -/

section

variable (opts : JsonParseOptions)

/-- What the reader checks at one value. -/
def nodePulls (x : Nat × Cst) : Bool :=
  !readerTooDeep opts x.1 &&
    match x.2 with
    | .num lexeme => numberFits lexeme
    | .str t => rawFits opts t
    | .obj ms => ms.all fun m => rawFits opts m.1
    | _ => true

mutual

/-- The reader checks every value on its own. -/
theorem Cst.pulls_iff (depth : Nat) : (t : Cst) →
    (t.pulls opts depth ↔ ∀ x ∈ t.nodesAt depth, nodePulls opts x)
  | .null | .bool _ | .num _ | .str _ => by simp [Cst.pulls, Cst.nodesAt, nodePulls]
  | .arr ts => by
    have hitems := itemsPull_iff (depth + 1) ts
    simp [Cst.pulls, Cst.nodesAt, nodePulls, hitems]
  | .obj ms => by
    have hmembers := membersPull_iff (depth + 1) ms
    simp only [Cst.pulls, Cst.nodesAt, nodePulls, Bool.and_eq_true, hmembers,
      forall_mem_cons, all_eq_true]
    tauto

theorem itemsPull_iff (depth : Nat) : (ts : List Cst) →
    (itemsPull opts depth ts ↔ ∀ x ∈ itemNodesAt depth ts, nodePulls opts x)
  | [] => by simp [itemsPull, itemNodesAt]
  | t :: ts => by
    have hone := Cst.pulls_iff depth t
    have hrest := itemsPull_iff depth ts
    rw [itemsPull, itemNodesAt, Bool.and_eq_true, hone, hrest, forall_mem_append]

theorem membersPull_iff (depth : Nat) : (ms : List (StrTok × Cst)) →
    (membersPull opts depth ms ↔
      (∀ x ∈ memberNodesAt depth ms, nodePulls opts x) ∧ ∀ m ∈ ms, rawFits opts m.1)
  | [] => by simp [membersPull, memberNodesAt]
  | (k, t) :: ms => by
    have hone := Cst.pulls_iff depth t
    have hrest := membersPull_iff depth ms
    rw [membersPull, memberNodesAt, Bool.and_eq_true, Bool.and_eq_true, hone, hrest,
      forall_mem_append, forall_mem_cons]
    tauto

end

end

/-- Whether the limits of the parser and of the reader agree at one value: on its depth, and
on its string or its names. -/
def nodeAgrees (opts : JsonParseOptions) (x : Nat × Cst) : Bool :=
  (tooDeep opts x.1 == readerTooDeep opts x.1) &&
    match x.2 with
    | .str t => stringFits opts t == rawFits opts t
    | .obj ms => ms.all fun m => stringFits opts m.1 == rawFits opts m.1
    | _ => true

/-- Whether the limits of the parser and of the reader agree at every value of a tree. -/
def Cst.limitsAgree (opts : JsonParseOptions) (t : Cst) : Bool :=
  (t.nodesAt 0).all (nodeAgrees opts)

section

variable {opts : JsonParseOptions} {x : Nat × Cst}

theorem nodeAccepts_eq_nodePulls (hdistinct : nodeDistinct x.2) (h : nodeAgrees opts x) :
    nodeAccepts opts x = nodePulls opts x := by
  obtain ⟨d, t⟩ := x
  simp only [nodeAgrees, Bool.and_eq_true, beq_iff_eq] at h
  cases t with
  | obj ms =>
    have hall : ms.all (fun m => stringFits opts m.1) = ms.all fun m => rawFits opts m.1 := by
      rw [Bool.eq_iff_iff, all_eq_true, all_eq_true]
      have hm := all_eq_true.mp h.2
      constructor
      · intro hfits m hmem
        rw [← beq_iff_eq.mp (hm m hmem)]
        exact hfits m hmem
      intro hfits m hmem
      rw [beq_iff_eq.mp (hm m hmem)]
      exact hfits m hmem
    simp only [nodeDistinct] at hdistinct
    simp only [nodeAccepts, nodePulls, nodeFits, h.1, hdistinct, hall, Bool.and_true]
  | _ => simp_all [nodeAccepts, nodePulls, nodeFits]

theorem nodeAgrees_of_accepts_pulls (h : nodeAccepts opts x) (h' : nodePulls opts x) :
    nodeAgrees opts x := by
  obtain ⟨d, t⟩ := x
  cases t with
  | obj ms =>
    simp only [nodeAccepts, nodePulls, nodeFits, Bool.and_eq_true, Bool.not_eq_true',
      all_eq_true] at h h'
    simp only [nodeAgrees, h.1, h'.1, beq_self_eq_true, Bool.true_and, all_eq_true]
    intro m hm
    rw [h.2.1 m hm, h'.2 m hm, beq_self_eq_true]
  | _ => simp_all [nodeAccepts, nodePulls, nodeAgrees, nodeFits]

/-- Where the limits agree both accept the same trees, and trees that both accept are within
limits that agree. -/
theorem Cst.accepts_iff_pulls_iff (opts : JsonParseOptions) {t : Cst} (hdistinct : t.distinct) :
    (t.accepts opts 0 ↔ t.pulls opts 0) ↔
      t.limitsAgree opts ∨ (t.accepts opts 0 = false ∧ t.pulls opts 0 = false) := by
  have hdistinct := all_eq_true.mp hdistinct
  have haccepts : t.accepts opts 0 ↔ ∀ x ∈ t.nodesAt 0, nodeAccepts opts x := by
    rw [t.accepts_of_distinct opts 0 hdistinct, t.accepts_reject]
  have hpulls := t.pulls_iff opts 0
  constructor
  · intro h
    by_cases hacc : t.accepts opts 0
    · left
      rw [Cst.limitsAgree, all_eq_true]
      exact fun x hx => nodeAgrees_of_accepts_pulls (haccepts.mp hacc x hx)
        (hpulls.mp (h.mp hacc) x hx)
    · exact .inr ⟨by simpa using hacc, by simpa using mt h.mpr hacc⟩
  rintro (hagree | ⟨hacc, hpull⟩)
  · have hagree := all_eq_true.mp hagree
    rw [haccepts, hpulls]
    constructor
    all_goals exact fun h x hx => nodeAccepts_eq_nodePulls (hdistinct x hx) (hagree x hx) ▸ h x hx
  · simp [hacc, hpull]

end

/-- On an input without a byte order mark, within the size limits and without repeated names,
the parser succeeds exactly when the reader hands out the events of one value and the end,
if and only if their limits agree on the tree of the input or both refuse it. Where both
succeed, the events stand for the value of the document. -/
theorem parse_readAll_agree_iff (opts : JsonParseOptions) (seed : Nat → UInt64) (input : Bytes)
    (hbom : kBOM.isPrefixOf input = false) (hsize : sizeFits opts input.length)
    (hnames : ∀ t, readText opts.mode ⟨{}, input⟩ = some t → t.distinct) :
    (((∃ st, parse opts seed input = .ok st) ↔
        ∃ v : JVal, (JsonReader.ofInput input).readAll opts = (v.events, .finished)) ↔
      ∀ t, readText opts.mode ⟨{}, input⟩ = some t →
        t.limitsAgree opts ∨ (t.accepts opts 0 = false ∧ t.pulls opts 0 = false)) ∧
    ∀ st (v : JVal), parse opts seed input = .ok st →
      (JsonReader.ofInput input).readAll opts = (v.events, .finished) →
      rebuild v.events = st.value := by
  have hstrip : stripBom input = input := by simp [stripBom, hbom]
  have hinput : readInput opts.mode input = readText opts.mode ⟨{}, input⟩ := by
    rw [readInput, hstrip]
  constructor
  · have hparse := parse_ok_iff opts seed input
    rw [hinput] at hparse
    simp only [hparse, hsize, true_and, JsonReader.readAll_value_iff]
    cases hread : readText opts.mode ⟨{}, input⟩ with
    | none => simp
    | some t =>
      have hiff := Cst.accepts_iff_pulls_iff opts (hnames t hread)
      constructor
      · rintro h _ ⟨⟩
        refine hiff.mp ⟨fun hacc => ?_, fun hpull => ?_⟩
        · obtain ⟨v, t', heq, hok, -⟩ := h.mp ⟨t, rfl, hacc⟩
          cases heq
          exact hok
        obtain ⟨t', heq, hok⟩ := h.mpr ⟨_, t, rfl, hpull, rfl⟩
        cases heq
        exact hok
      intro h
      have h := hiff.mpr (h t rfl)
      constructor
      · rintro ⟨_, ⟨⟩, hacc⟩
        exact ⟨_, t, rfl, h.mp hacc, rfl⟩
      · rintro ⟨v, _, ⟨⟩, hpull, -⟩
        exact ⟨t, rfl, h.mpr hpull⟩
  intro st v hst hv
  obtain ⟨t, hread, -, hval⟩ := parse_value hst
  obtain ⟨t', hread', -, rfl⟩ := JsonReader.readAll_value_iff.mp hv
  rw [hinput] at hread
  obtain rfl : t = t' := Option.some.inj (hread.symm.trans hread')
  have hdistinct := all_eq_true.mp (hnames t hread)
  rw [rebuild_events, hval, t.value_of_distinct opts.duplicateKey 0 hdistinct]

/-- The text `["a"]`. -/
def listText : Bytes := [0x5B, 0x22, 0x61, 0x22, 0x5D]

/-- The parser and the reader agree on it. -/
theorem parse_readAll_agree_listText :
    kBOM.isPrefixOf listText = false ∧ sizeFits {} listText.length = true ∧
      ((∃ st, parse {} (fun _ => 0) listText = .ok st) ↔
        ∃ v : JVal, (JsonReader.ofInput listText).readAll {} = (v.events, .finished)) := by
  have hall : (readText .strict ⟨{}, listText⟩).all
      (fun t => t.distinct && t.limitsAgree {}) = true := by decide +kernel
  have hread (t : Cst) (ht : readText .strict ⟨{}, listText⟩ = some t) :
      t.distinct ∧ t.limitsAgree {} := by
    rw [ht] at hall
    simpa using hall
  have hbom : kBOM.isPrefixOf listText = false := by decide
  have hsize : sizeFits {} listText.length = true := by decide
  exact ⟨hbom, hsize, (parse_readAll_agree_iff {} (fun _ => 0) listText hbom hsize
    (fun t ht => (hread t ht).1)).1.mpr fun t ht => .inl (hread t ht).2⟩

/-- The text `"\u0041"`, six bytes that stand for one. -/
def escapedText : Bytes := [0x22, 0x5C, 0x75, 0x30, 0x30, 0x34, 0x31, 0x22]

/-- The text of an object whose only name is the identifier `ab`. -/
def identText : Bytes := [0x7B, 0x61, 0x62, 0x3A, 0x31, 0x7D]

/-- With strings limited to one byte, an escaped character is refused by the reader only, an
identifier of two bytes by the parser only. -/
theorem parse_readAll_disagree :
    ((∃ st, parse { maxStringSize := .bound 1 } (fun _ => 0) escapedText = .ok st) ∧
      ¬ ∃ v : JVal, (JsonReader.ofInput escapedText).readAll { maxStringSize := .bound 1 } =
        (v.events, .finished)) ∧
    (¬ (∃ st, parse { maxStringSize := .bound 1, mode := .json5 } (fun _ => 0) identText = .ok st) ∧
      ∃ v : JVal, (JsonReader.ofInput identText).readAll
        { maxStringSize := .bound 1, mode := .json5 } = (v.events, .finished)) := by
  refine ⟨⟨exists_of_isOk (by decide +kernel), ?_⟩, ?_, ?_⟩
  · rintro ⟨v, hv⟩
    have hout : ((JsonReader.ofInput escapedText).readAll { maxStringSize := .bound 1 }).2 ≠
        .finished := by decide +kernel
    rw [hv] at hout
    exact hout rfl
  · rintro ⟨st, hst⟩
    have hbad : (parse { maxStringSize := .bound 1, mode := .json5 } (fun _ => 0)
        identText).isOk = false := by decide +kernel
    rw [hst] at hbad
    cases hbad
  · exact ⟨.obj [([0x61, 0x62], .num [0x31])], by decide +kernel⟩

end Conflux.Json
