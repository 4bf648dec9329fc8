import Conflux.Json.Reader.Machine

/-!
# The pull reader follows the reference reader

From the start of a value, the events of the reader are those of the value that the reference
reader reads there, and the reader ends up where the reference does, with the same containers
open. Where the reference reads nothing acceptable, the reader breaks.
-/

namespace Conflux.Json

open Conflux.Core List

namespace JsonReader

variable {opts : JsonParseOptions} {r : JsonReader} {c : Cur} {stack outer : List StateFrame}
  {n : Nat}

/-- After an item of a container. -/
theorem pull_separator {kind : FrameKind} (h : r.Stands c (⟨kind, false, false⟩ :: outer)) :
    match separator opts.mode kind.bracket c with
    | .error _ => Breaks (pull opts) (r.pull opts)
    | .ok (true, c') => ∃ s, r.pull opts = (.ok (some kind.close), s) ∧ s.Stands c' outer
    | .ok (false, c') =>
      match skipWs opts.mode c' with
      | .error _ => Breaks (pull opts) (r.pull opts)
      | .ok c'' =>
        ∃ s : JsonReader, r.pull opts = s.itemPull opts kind outer ∧
          s.Stands c'' (⟨kind, false, false⟩ :: outer) := by
  cases hws : skipWs opts.mode c with
  | error f =>
    rw [separator, hws]
    exact pull_of_wsError h hws
  | ok c₁ =>
    have hnext := pull_container h hws
    have hsep := @nextItem_separator c c₁ kind.bracket opts.mode hws
    cases hs : separator opts.mode kind.bracket c with
    | error f =>
      rw [hs] at hsep
      obtain ⟨f', hf⟩ := hsep
      rwa [hf] at hnext
    | ok a =>
      obtain ⟨closed, c'⟩ := a
      rw [hs] at hsep
      cases closed with
      | true => rwa [hsep] at hnext
      | false =>
        dsimp only at hsep ⊢
        cases hws' : skipWs opts.mode c' with
        | error f =>
          rw [hws'] at hsep
          obtain ⟨f', hf⟩ := hsep
          rwa [hf] at hnext
        | ok c'' =>
          rw [hws'] at hsep
          rwa [hsep] at hnext

/-- What the events from a value, and from the rest of a container, satisfy at one amount of
fuel of the reference. -/
structure PullsFollow (opts : JsonParseOptions) (n : Nat) : Prop where
  value {r : JsonReader} {c : Cur} {stack : List StateFrame} (h : r.Stands c stack)
    (hws : skipWs opts.mode c = .ok c) (hn : 2 * c.rest.length < n) :
    Tracks (pull opts) (r.valuePull opts) (readValue opts.mode n c)
      (fun b => b.1.pulls opts stack.length) (fun b => (b.1.value .reject).events)
      (fun b s => s.Stands b.2 stack)
  elems {r : JsonReader} {c : Cur} {outer : List StateFrame}
    (h : r.Stands c (⟨.array, false, false⟩ :: outer)) (hws : skipWs opts.mode c = .ok c)
    (hn : 2 * c.rest.length + 1 < n) :
    Tracks (pull opts) (r.valuePull opts) (readElems opts.mode n c)
      (fun b => itemsPull opts (outer.length + 1) b.1)
      (fun b => itemEvents (itemValues .reject b.1) ++ [.endArray])
      (fun b s => s.Stands b.2 outer)
  members {r : JsonReader} {c : Cur} {outer : List StateFrame}
    (h : r.Stands c (⟨.object, false, false⟩ :: outer)) (hws : skipWs opts.mode c = .ok c)
    (hn : 2 * c.rest.length + 1 < n) :
    Tracks (pull opts) (r.keyPull opts outer) (readMembers opts.mode n c)
      (fun b => membersPull opts (outer.length + 1) b.1)
      (fun b => memberEvents (memberValues .reject b.1) ++ [.endObject])
      (fun b s => s.Stands b.2 outer)

/-- A value that is no container. -/
theorem scalar_step (h : r.Stands c stack) (hws : skipWs opts.mode c = .ok c) {a : UInt8}
    {l : Bytes} (hrest : c.rest = a :: l) (hshallow : readerTooDeep opts stack.length = false)
    (harr : lead opts.mode a ≠ .arr) (hobj : lead opts.mode a ≠ .obj) :
    Tracks (pull opts) (r.valuePull opts) (readValue opts.mode (n + 1) c)
      (fun b => b.1.pulls opts stack.length) (fun b => (b.1.value .reject).events)
      (fun b s => s.Stands b.2 stack) := by
  obtain ⟨rfl, rfl, hclean⟩ := h
  have hstart : Json.valueStart opts.mode false r.cur = .ok (a, r.cur) := by
    simp [Json.valueStart, hws, hrest]
  have hdeep : ¬ opts.maxDepth.exceeds r.stack.length kDefaultMaxDepth := by
    simpa [readerTooDeep] using hshallow
  simp only [valuePull, valueEvent, parseValueEvent, if_neg hdeep, hrest, readValue, hstart]
  cases hlead : lead opts.mode a with
  | arr => exact absurd hlead harr
  | obj => exact absurd hlead hobj
  | other => exact tracks_none .now rfl
  | str quote =>
    obtain ⟨rfl, hq, -⟩ := lead_eq_str hlead
    dsimp only
    obtain ⟨⟨tok, c'⟩, b, hp, href, hok, hcur, hdec⟩ | ⟨e, hp, hno⟩ :=
      (parseStrIntoToken_follows hq opts r.cur).cases
    · rw [hp, toOption_eq_some.mp href]
      show Tracks (pull opts) (.ok (some (Emitted.string tok.appendDecodedTo)), _) _ _ _ _
      refine tracks_one rfl (by simp [Cst.pulls, hshallow, hok]) ?_ ⟨hcur, rfl, hclean⟩
      rw [Cst.value, JVal.events, ← hdec]
    rw [hp]
    refine tracks_refused .now (fun b hb hok => ?_)
    cases hquoted : quoted a r.cur with
    | error e => simp [hquoted] at hb
    | ok q =>
      simp only [hquoted, Option.some.injEq] at hb
      subst hb
      simp only [Cst.pulls, Bool.and_eq_true] at hok
      exact hno q (by rw [hquoted]; rfl) hok.2
  | lit lit =>
    dsimp only
    cases literal lit r.cur with
    | error f => exact tracks_none .now rfl
    | ok c' =>
      cases lit <;> exact tracks_one rfl (by simp [hshallow]) rfl ⟨rfl, rfl, hclean⟩
  | num =>
    obtain ⟨⟨lex, c'⟩, b, hp, href, hok, hlex, hcur⟩ | ⟨e, hp, hno⟩ :=
      (parseNumberLexeme_follows r.cur).cases
    · rw [hp, href]
      show Tracks (pull opts) (.ok (some (Emitted.number lex.lexeme)), _) _ _ _ _
      refine tracks_one rfl (by simp [Cst.pulls, hshallow, hok]) ?_ ⟨hcur, rfl, hclean⟩
      rw [Cst.value, JVal.events, ← hlex]
    rw [hp]
    refine tracks_refused .now (fun b hb hok => ?_)
    obtain ⟨b', hb', rfl⟩ := Option.map_eq_some_iff.mp hb
    simp only [Cst.pulls, Bool.and_eq_true] at hok
    exact hno b' hb' hok.2

section

variable {β : Type} (kind : FrameKind) (ref : Cur → Option (List β × Cur)) (ok : List β → Prop)
  (items : List β → List Emitted)

/-- After an opening bracket: the closing one, or the items of the container. -/
theorem container_step (h : r.Stands c.adv (⟨kind, true, false⟩ :: outer)) (hempty : ok [])
    (hitems : items [] = [])
    (hrest : ∀ {s : JsonReader} {c' : Cur},
      opened opts.mode kind.bracket.close c = .ok (false, c') → skipWs opts.mode c' = .ok c' →
      s.Stands c' (⟨kind, false, false⟩ :: outer) →
      Tracks (pull opts) (s.itemPull opts kind outer) (ref c') (fun b => ok b.1)
        (fun b => items b.1 ++ [kind.close]) (fun b s => s.Stands b.2 outer)) :
    Tracks (pull opts) (r.pull opts) (readOpened opts.mode kind.bracket.close ref c)
      (fun b => ok b.1) (fun b => items b.1 ++ [kind.close]) (fun b s => s.Stands b.2 outer) := by
  have hopen := @pull_opened opts r c outer kind h
  unfold readOpened
  cases hc : opened opts.mode kind.bracket.close c with
  | error f =>
    rw [hc] at hopen
    exact tracks_none hopen rfl
  | ok a =>
    obtain ⟨closed, c'⟩ := a
    rw [hc] at hopen
    cases closed with
    | true =>
      obtain ⟨s, hpull, hs⟩ := hopen
      rw [hpull]
      exact tracks_one rfl hempty (by simp [hitems]) hs
    | false =>
      obtain ⟨hws, s, hpull, hs⟩ := hopen
      rw [hpull]
      exact hrest hc hws hs

/-- What follows an item, by the reference. -/
def itemRest (mode : ParseMode) (x : β) (c : Cur) : Option (List β × Cur) :=
  match separator mode kind.bracket c with
  | .error _ => none
  | .ok (true, c) => some ([x], c)
  | .ok (false, c) => (ref c).map fun b => (x :: b.1, b.2)

theorem itemRest_eq_some {mode : ParseMode} {x : β} {g : List β × Cur}
    (h : itemRest kind ref mode x c = some g) : ∃ xs, g.1 = x :: xs := by
  unfold itemRest at h
  split at h
  · cases h
  · cases h
    exact ⟨[], rfl⟩
  · obtain ⟨b, -, rfl⟩ := Option.map_eq_some_iff.mp h
    exact ⟨b.1, rfl⟩

/-- After an item: the closing bracket, or further items. -/
theorem rest_step (x : β) (h : r.Stands c (⟨kind, false, false⟩ :: outer)) (hempty : ok [])
    (hnil : items [] = [])
    (hskip : ∀ {c c' : Cur}, skipWs opts.mode c = .ok c' → ref c = ref c')
    (herror : ∀ {c : Cur} {f : Fail}, skipWs opts.mode c = .error f → ref c = none)
    (hrest : ∀ {s : JsonReader} {c₁ c' : Cur},
      separator opts.mode kind.bracket c = .ok (false, c₁) → skipWs opts.mode c₁ = .ok c' →
      s.Stands c' (⟨kind, false, false⟩ :: outer) →
      Tracks (pull opts) (s.itemPull opts kind outer) (ref c') (fun b => ok b.1)
        (fun b => items b.1 ++ [kind.close]) (fun b s => s.Stands b.2 outer)) :
    Tracks (pull opts) (r.pull opts) (itemRest kind ref opts.mode x c)
      (fun b => ok b.1.tail) (fun b => items b.1.tail ++ [kind.close])
      (fun b s => s.Stands b.2 outer) := by
  have hsep := @pull_separator opts r c outer kind h
  unfold itemRest
  cases hc : separator opts.mode kind.bracket c with
  | error f =>
    rw [hc] at hsep
    exact tracks_none hsep rfl
  | ok a =>
    obtain ⟨closed, c₁⟩ := a
    rw [hc] at hsep
    cases closed with
    | true =>
      obtain ⟨s, hpull, hs⟩ := hsep
      rw [hpull]
      exact tracks_one rfl hempty (by simp [hnil]) hs
    | false =>
      dsimp only at hsep ⊢
      cases hws : skipWs opts.mode c₁ with
      | error f =>
        rw [hws] at hsep
        exact tracks_none hsep (by rw [herror hws]; rfl)
      | ok c' =>
        rw [hws] at hsep
        obtain ⟨s, hpull, hs⟩ := hsep
        rw [hpull, hskip hws]
        exact (hrest hc hws hs).map (fun _ => Iff.rfl) (fun _ => rfl) (fun _ _ h => h)

/-- An item and what follows it. -/
theorem items_step (okItem : β → Prop) (one : β → List Emitted)
    {answer : Except JsonError (Option Emitted) × JsonReader} {item : Option (β × Cur)}
    (h : Tracks (pull opts) answer item (fun b => okItem b.1) (fun b => one b.1)
      (fun b s => s.Stands b.2 (⟨kind, false, false⟩ :: outer)))
    (hempty : ok []) (hnil : items [] = []) (hok : ∀ x xs, ok (x :: xs) ↔ okItem x ∧ ok xs)
    (hcons : ∀ x xs, items (x :: xs) = one x ++ items xs)
    (hskip : ∀ {c c' : Cur}, skipWs opts.mode c = .ok c' → ref c = ref c')
    (herror : ∀ {c : Cur} {f : Fail}, skipWs opts.mode c = .error f → ref c = none)
    (hrest : ∀ {b : β × Cur} {s : JsonReader} {c₁ c' : Cur}, item = some b →
      separator opts.mode kind.bracket b.2 = .ok (false, c₁) → skipWs opts.mode c₁ = .ok c' →
      s.Stands c' (⟨kind, false, false⟩ :: outer) →
      Tracks (pull opts) (s.itemPull opts kind outer) (ref c') (fun b => ok b.1)
        (fun b => items b.1 ++ [kind.close]) (fun b s => s.Stands b.2 outer)) :
    Tracks (pull opts) answer (item.bind fun b => itemRest kind ref opts.mode b.1 b.2)
      (fun b => ok b.1) (fun b => items b.1 ++ [kind.close]) (fun b s => s.Stands b.2 outer) := by
  refine h.bind (fun b s hb hs => rest_step kind ref ok items b.1 hs hempty hnil hskip herror
    (hrest hb)) (fun b g hg => ?_) (fun b g hg => ?_)
  · obtain ⟨xs, hxs⟩ := itemRest_eq_some kind ref hg
    rw [hxs, hcons, append_assoc, tail_cons]
  · obtain ⟨xs, hxs⟩ := itemRest_eq_some kind ref hg
    rw [hxs, hok, tail_cons]

end

/-- An array or an object at the cursor begins with its opening event. -/
theorem valuePull_container (kind : FrameKind) {a : UInt8} {l : Bytes} (h : r.Stands c stack)
    (hrest : c.rest = a :: l) (hshallow : readerTooDeep opts stack.length = false)
    (hlead : lead opts.mode a = match kind with | .array => .arr | .object => .obj) :
    ∃ s, r.valuePull opts =
        (.ok (some (match kind with | .array => .beginArray | .object => .beginObject)), s) ∧
      s.Stands c.adv (⟨kind, true, false⟩ :: stack) := by
  obtain ⟨rfl, rfl, hclean⟩ := h
  have hdeep : ¬ opts.maxDepth.exceeds r.stack.length kDefaultMaxDepth := by
    simpa [readerTooDeep] using hshallow
  simp only [valuePull, valueEvent, parseValueEvent, if_neg hdeep, hrest, hlead]
  cases kind <;> exact ⟨_, rfl, rfl, rfl, hclean⟩

theorem valuePull_tooDeep (h : readerTooDeep opts r.stack.length) :
    Breaks (pull opts) (r.valuePull opts) := by
  rw [readerTooDeep] at h
  simp only [valuePull, valueEvent, parseValueEvent, if_pos h]
  exact .now

theorem valuePull_nil (h : r.cur.rest = []) : Breaks (pull opts) (r.valuePull opts) := by
  by_cases hdeep : readerTooDeep opts r.stack.length
  · exact valuePull_tooDeep hdeep
  rw [readerTooDeep] at hdeep
  simp only [valuePull, valueEvent, parseValueEvent, if_neg hdeep, h]
  exact .now

/-- A value, with one more unit of fuel. -/
theorem value_step (ih : PullsFollow opts n) (h : r.Stands c stack)
    (hws : skipWs opts.mode c = .ok c) (hn : 2 * c.rest.length < n + 1) :
    Tracks (pull opts) (r.valuePull opts) (readValue opts.mode (n + 1) c)
      (fun b => b.1.pulls opts stack.length) (fun b => (b.1.value .reject).events)
      (fun b s => s.Stands b.2 stack) := by
  by_cases hdeep : readerTooDeep opts stack.length
  · refine tracks_refused (valuePull_tooDeep (h.stack ▸ hdeep)) (fun b _ hok => ?_)
    rw [Cst.not_tooDeep_of_pulls hok] at hdeep
    cases hdeep
  have hshallow : readerTooDeep opts stack.length = false := by simpa using hdeep
  cases hrest : c.rest with
  | nil => exact tracks_none (valuePull_nil (h.cur ▸ hrest)) (readValue_of_nil hws hrest _)
  | cons a l =>
    have hstart : Json.valueStart opts.mode false c = .ok (a, c) := by
      simp [Json.valueStart, hws, hrest]
    -- What is inside a container is shorter by its bracket.
    have inside {close : UInt8} {c' : Cur} (ho : opened opts.mode close c = .ok (false, c')) :
        2 * c'.rest.length + 1 < n := by
      obtain ⟨w, -, hw⟩ := opened_reads hrest ho
      have hlen := hw.length_eq
      rw [length_cons] at hlen
      omega
    by_cases harr : lead opts.mode a = .arr
    · obtain ⟨s, hpull, hs⟩ := valuePull_container .array h hrest hshallow harr
      have hin := container_step .array (readElems opts.mode n)
        (fun ts => itemsPull opts (stack.length + 1) ts)
        (fun ts => itemEvents (itemValues .reject ts)) hs rfl rfl
        (fun ho hws' hs' => ih.elems hs' hws' (inside ho))
      rw [hpull, readValue_arr hstart harr]
      exact hin.cons (by simp [Cst.pulls, hshallow]) (fun _ => rfl) (fun _ _ h => h)
    by_cases hobj : lead opts.mode a = .obj
    · obtain ⟨s, hpull, hs⟩ := valuePull_container .object h hrest hshallow hobj
      have hin := container_step .object (readMembers opts.mode n)
        (fun ms => membersPull opts (stack.length + 1) ms)
        (fun ms => memberEvents (memberValues .reject ms)) hs rfl rfl
        (fun ho hws' hs' => ih.members hs' hws' (inside ho))
      rw [hpull, readValue_obj hstart hobj]
      exact hin.cons (by simp [Cst.pulls, hshallow])
        (fun _ => by simp [Cst.value, JVal.events]; rfl) (fun _ _ h => h)
    · exact scalar_step h hws hrest hshallow harr hobj

theorem readElems_bind (mode : ParseMode) (n : Nat) (c : Cur) :
    readElems mode (n + 1) c = (readValue mode n c).bind fun b =>
      itemRest .array (readElems mode n) mode b.1 b.2 := by
  rw [readElems_succ]
  cases readValue mode n c with
  | none | some b => rfl

theorem readMembers_bind (mode : ParseMode) (n : Nat) (c : Cur) :
    readMembers mode (n + 1) c = (readMember mode (readValue mode n) c).bind fun b =>
      itemRest .object (readMembers mode n) mode b.1 b.2 := by
  rw [readMembers_succ]
  cases readMember mode (readValue mode n) c with
  | none | some b => rfl

/-- What is left behind an item and a separator is shorter by two bytes. -/
theorem shorter_of_separator {b : Bracket} {w : Bytes} {c₁ c₂ c₃ : Cur} {closed : Bool}
    (hne : w ≠ []) (hw : c.Reads w c₁) (hsep : separator opts.mode b c₁ = .ok (closed, c₂))
    (hws : skipWs opts.mode c₂ = .ok c₃) : c₃.rest.length + 2 ≤ c.rest.length := by
  obtain ⟨w₂, hne₂, hw₂, -⟩ := separator_reads hsep
  obtain ⟨w₃, -, hw₃⟩ := skipWs_reads hws
  have hlen := ((hw.trans hw₂).trans hw₃).length_eq
  have hpos := length_pos_of_ne_nil hne
  have hpos₂ := length_pos_of_ne_nil hne₂
  simp only [length_append] at hlen
  omega

/-- Elements, with one more unit of fuel. -/
theorem elems_step (ih : PullsFollow opts n) (h : r.Stands c (⟨.array, false, false⟩ :: outer))
    (hws : skipWs opts.mode c = .ok c) (hn : 2 * c.rest.length + 1 < n + 1) :
    Tracks (pull opts) (r.valuePull opts) (readElems opts.mode (n + 1) c)
      (fun b => itemsPull opts (outer.length + 1) b.1)
      (fun b => itemEvents (itemValues .reject b.1) ++ [.endArray])
      (fun b s => s.Stands b.2 outer) := by
  rw [readElems_bind]
  refine items_step .array (readElems opts.mode n) (fun ts => itemsPull opts (outer.length + 1) ts)
    (fun ts => itemEvents (itemValues .reject ts)) (fun t => t.pulls opts (outer.length + 1))
    (fun t => (t.value .reject).events) (ih.value h hws (by omega)) rfl rfl
    (fun t ts => by simp [itemsPull]) (fun _ _ => rfl) (fun h => readElems_of_skipWs h n)
    (fun h => readElems_of_error h n) (fun hb hsep hws' hs => ?_)
  obtain ⟨w, hne, hw⟩ := (reads_some opts.mode n).value hb
  have hlen := shorter_of_separator hne hw hsep hws'
  exact ih.elems hs (skipWs_idem hws') (by omega)

/-- A member: its name, and after the colon its value. -/
theorem member_step (ih : PullsFollow opts n) (h : r.Stands c (⟨.object, false, false⟩ :: outer))
    (hws : skipWs opts.mode c = .ok c) (hn : 2 * c.rest.length < n + 1) :
    Tracks (pull opts) (r.keyPull opts outer) (readMember opts.mode (readValue opts.mode n) c)
      (fun b => rawFits opts b.1.1 ∧ b.1.2.pulls opts (outer.length + 1))
      (fun b => .key (.ok b.1.1.dec) :: (b.1.2.value .reject).events)
      (fun b s => s.Stands b.2 (⟨.object, false, false⟩ :: outer)) := by
  have hkey := parseObjectKeyToken_follows hws
  obtain ⟨rfl, hstack, hclean⟩ := h
  rw [keyPull, keyEvent, readMember]
  obtain ⟨⟨tok, c₁⟩, ⟨k, _⟩, hp, href, hok, rfl, hdec⟩ | ⟨f, hp, hno⟩ := hkey.cases
  · have hname := toOption_eq_some.mp href
    rw [hp, hname]
    dsimp only at hdec hok ⊢
    cases hcolon : colon opts.mode c₁ with
    | error f => exact tracks_none .now rfl
    | ok c₂ =>
      show Tracks (pull opts) (.ok (some (Emitted.key tok.appendDecodedTo)), _) _ _ _ _
      rw [hdec]
      refine Tracks.cons ?_ (fun _ => and_iff_right hok) (fun _ => rfl) (fun _ _ h => h)
      have hstands :
          Stands { r with cur := c₂, keyToken := tok, stack := ⟨.object, false, true⟩ :: outer } c₂
            (⟨.object, false, true⟩ :: outer) := ⟨rfl, rfl, hclean⟩
      cases hws₂ : skipWs opts.mode c₂ with
      | error f => exact tracks_none (pull_of_wsError hstands hws₂) (readValue_of_error hws₂ n)
      | ok c₃ =>
        obtain ⟨s, hpull, hs⟩ := pull_awaiting hstands hws₂
        rw [hpull, readValue_of_skipWs hws₂]
        refine ih.value hs (skipWs_idem hws₂) ?_
        obtain ⟨w₁, hne, hw₁, -⟩ := memberName_reads hname
        obtain ⟨w₂, -, hw₂⟩ := colon_reads hcolon
        obtain ⟨w₃, -, hw₃⟩ := skipWs_reads hws₂
        have hlen := ((hw₁.trans hw₂).trans hw₃).length_eq
        have hpos := length_pos_of_ne_nil hne
        simp only [length_append] at hlen
        omega
  rw [hp]
  refine tracks_refused .now (fun b hb hok => ?_)
  obtain ⟨c₁, c₂, hname, -, -⟩ := readMember_eq_some hb
  exact hno _ (by rw [hname]; rfl) hok.1

/-- Members, with one more unit of fuel. -/
theorem members_step (ih : PullsFollow opts n) (h : r.Stands c (⟨.object, false, false⟩ :: outer))
    (hws : skipWs opts.mode c = .ok c) (hn : 2 * c.rest.length + 1 < n + 1) :
    Tracks (pull opts) (r.keyPull opts outer) (readMembers opts.mode (n + 1) c)
      (fun b => membersPull opts (outer.length + 1) b.1)
      (fun b => memberEvents (memberValues .reject b.1) ++ [.endObject])
      (fun b s => s.Stands b.2 outer) := by
  rw [readMembers_bind]
  refine items_step .object (readMembers opts.mode n)
    (fun ms => membersPull opts (outer.length + 1) ms)
    (fun ms => memberEvents (memberValues .reject ms))
    (fun m => rawFits opts m.1 ∧ m.2.pulls opts (outer.length + 1))
    (fun m => .key (.ok m.1.dec) :: (m.2.value .reject).events)
    (member_step ih h hws (by omega)) rfl rfl (fun m ms => by simp [membersPull])
    (fun _ _ => rfl) (fun h => readMembers_of_skipWs h n) (fun h => readMembers_of_error h n)
    (fun hb hsep hws' hs => ?_)
  obtain ⟨w, hne, hw⟩ := readMember_reads (reads_some opts.mode n).value hb
  have hlen := shorter_of_separator hne hw hsep hws'
  exact ih.members hs (skipWs_idem hws') (by omega)

/-- The reader follows the reference at every amount of fuel that is enough. -/
theorem pulls_follow (opts : JsonParseOptions) (n : Nat) : PullsFollow opts n := by
  induction n with
  | zero => exact ⟨fun _ _ h => by omega, fun _ _ h => by omega, fun _ _ h => by omega⟩
  | succ n ih => exact ⟨value_step ih, elems_step ih, members_step ih⟩

end JsonReader

end Conflux.Json
