import Conflux.Json.Dom.Members
import Conflux.Json.Syntax.Progress

/-!
# The parser follows the reference reader

Parsing a value succeeds exactly when the reference reader reads a tree there that passes
the parser's checks; the node it returns denotes the value of the tree under the policy for
repeated names, and the parser stops where the reader stops.
-/

namespace Conflux.Json

open Conflux.Core DocumentStorage Cst TreeBuilder

/-- A closed array or object: its node denotes `v`, and the staging stacks are as before it was
opened. -/
structure Closed (tb : TreeBuilder) (staging : List Nat) (members : List MemberEntry) (v : JVal)
    (c : Cur) (r : Nat × TreeBuilder × Cur) : Prop where
  cur : r.2.2 = c
  store : Extends tb.store r.2.1.store
  staging : r.2.1.staging = staging
  members : r.2.1.stagingMembers = members
  denotes : r.2.1.store.Denotes r.1 v

/-- What the items of an array satisfy once it is closed, with their layout. -/
def LaidItems (opts : JsonParseOptions) (tb : TreeBuilder) (base kids : List Nat)
    (b : List Cst × Cur) (r : Nat × TreeBuilder × Cur) : Prop :=
  (∀ vs, List.Forall₂ tb.store.Denotes kids vs →
      Closed tb base tb.stagingMembers (.arr (vs ++ itemValues opts.duplicateKey b.1)) b.2 r) ∧
    (r.1, r.2.1.store.layout) =
      (itemsLay opts.duplicateKey tb.store.layout b.1).2.close .arrayChildren
        (kids ++ (itemsLay opts.duplicateKey tb.store.layout b.1).1)

/-- What the members of an object satisfy once it is closed, with their layout. -/
def LaidMembers (opts : JsonParseOptions) (tb : TreeBuilder) (base : List MemberEntry)
    (acc : List (Bytes × JVal)) (kept : List (Bytes × Nat)) (b : List (StrTok × Cst) × Cur)
    (r : Nat × TreeBuilder × Cur) : Prop :=
  Closed tb tb.staging base
      (.obj ((memberValues opts.duplicateKey b.1).foldl (memberStep opts.duplicateKey) acc)) b.2 r ∧
    (r.1, r.2.1.store.layout) =
      (membersLay opts.duplicateKey tb.store.layout kept b.1).2.close .objectMembers
        ((membersLay opts.duplicateKey tb.store.layout kept b.1).1.map Prod.snd)

/-- What the parsing of values, elements and members satisfies at one amount of fuel. -/
structure ParsesLaid (opts : JsonParseOptions) (seed : Nat → UInt64) (input : Bytes)
    (n : Nat) : Prop where
  value (depth : Nat) (tb : TreeBuilder) (c : Cur) :
    tb.store.inputView = input → c.At input →
    Follows (parseValue opts seed n depth tb c) (readValue opts.mode n c)
      (fun b => b.1.accepts opts depth) (Laid opts tb)
  elems (depth : Nat) (tb : TreeBuilder) (c : Cur) (base kids : List Nat) :
    tb.store.inputView = input → c.At input → tb.staging = base ++ kids →
    Follows (parseElems opts seed n depth base.length tb c) (readElems opts.mode n c)
      (fun b => itemsAccept opts (depth + 1) b.1) (LaidItems opts tb base kids)
  members (depth : Nat) (tb : TreeBuilder) (c : Cur) (base mems : List MemberEntry)
    (acc : List (Bytes × JVal)) (kept : List (Bytes × Nat)) (seen : SeenHash) :
    tb.store.inputView = input → c.At input → tb.Staged base mems acc seen →
    KeptNodes mems acc kept →
    Follows (parseMembers opts seed n depth base.length seen tb c) (readMembers opts.mode n c)
      (fun b => membersAccept opts (depth + 1) (acc.map Prod.fst) b.1)
      (LaidMembers opts tb base acc kept)

section

variable {opts : JsonParseOptions} {seed : Nat → UInt64} {input : Bytes} {n depth : Nat}
  {tb : TreeBuilder} {c : Cur}

/-- The names of the folded members after one more that is accepted. -/
theorem map_fst_memberStep {acc : List (Bytes × JVal)} {m : StrTok × Cst}
    (h : memberAccepts opts depth (acc.map Prod.fst) m) (v : JVal) :
    (memberStep opts.duplicateKey acc (m.1.dec, v)).map Prod.fst =
      addName (acc.map Prod.fst) m.1.dec := by
  by_cases hk : m.1.dec ∈ acc.map Prod.fst
  · cases hpol : opts.duplicateKey with
    | reject => simp [memberAccepts, hpol, if_pos hk] at h
    | lastWins | firstWins => simp [memberStep, addName, if_pos hk]
  · rw [memberStep_of_notMem _ hk, addName, if_neg hk, List.map_append]
    rfl

theorem parseStrNode_follows {quote : UInt8} {l : Bytes} (hd : tooDeep opts depth = false)
    (hq : IsQuote quote) (hin : tb.store.inputView = input) (hc : c.At input)
    (hrest : c.rest = quote :: l) :
    Follows (tb.parseStrNode opts quote c)
      ((quoted quote c).toOption.map fun r => (Cst.str r.1, r.2))
      (fun b => b.1.accepts opts depth) (Laid opts tb) := by
  unfold parseStrNode
  obtain ⟨⟨s, tb₁, c₁⟩, b, hp, href, -, ⟨hcur, hgrow, hbytes, hlen⟩⟩ | ⟨e, hp, hno⟩ :=
    (parseQuoted_follows hq hin hc hrest).cases
  · dsimp only at hcur hgrow hbytes hlen
    rw [hp, href]
    dsimp only
    split
    · rename_i hlong
      exact follows_error rfl (by simp [accepts, stringFits, ← hlen, hlong])
    rename_i hshort
    refine follows_ok rfl ?_ ⟨⟨hcur, hgrow.trans (pushNode_grows _ trivial), ?_⟩, ?_⟩
    · simp [accepts, stringFits, ← hlen, hshort, hd]
    · exact denotes_pushNode_string hbytes
    · rw [← parseQuoted_layout hp]
      exact pushNode_layout rfl
  rw [hp]
  exact follows_map_error e hno fun _ _ => trivial

theorem parseNumber_follows (hd : tooDeep opts depth = false)
    (hin : tb.store.inputView = input) (hc : c.At input) :
    Follows (tb.parseNumber c) ((numberText c).map fun r => (Cst.num r.1, r.2))
      (fun b => b.1.accepts opts depth) (Laid opts tb) := by
  unfold parseNumber
  obtain ⟨⟨lex, c'⟩, ⟨text, c''⟩, hp, href, hfits, hlex, hcur⟩ | ⟨e, hp, hno⟩ :=
    (parseNumberLexeme_follows c).cases
  · dsimp only at hlex hcur hfits
    obtain ⟨hreads, -⟩ := numberText_reads href
    have hslice := hc.slice_all hreads
    rw [hp, href]
    have hscanned : Node.Scanned tb.store.inputView
        (.number c.loc.offset lex.lexeme.length .view lex.intForm) :=
      ⟨rfl, lex.lexeme, c, c', by rw [hin, hlex, hslice], hp⟩
    refine follows_ok rfl ?_ ⟨⟨hcur, pushNode_grows _ hscanned, ?_⟩, pushNode_layout rfl⟩
    · simp [accepts, hd, hfits]
    · apply denotes_pushNode_number
      simpa [bytesAt, StrFlags.view, hin, hlex] using hslice
  rw [hp]
  exact follows_map_error e hno (by simp [accepts, hd])

section

variable (ih : ParsesLaid opts seed input n)
include ih

/-- A value, with one more unit of fuel. -/
theorem parseValue_step (depth : Nat) (tb : TreeBuilder)
    (c : Cur) (hin : tb.store.inputView = input) (hc : c.At input) :
    Follows (parseValue opts seed (n + 1) depth tb c) (readValue opts.mode (n + 1) c)
      (fun b => b.1.accepts opts depth) (Laid opts tb) := by
  simp only [parseValue, readValue, valueStart_eq _ (tooDeep opts depth)]
  cases hstart : valueStart opts.mode false c with
  | error e => exact follows_none e
  | ok r =>
    obtain ⟨a, c'⟩ := r
    obtain ⟨hws, -, l, hl⟩ := valueStart_ok hstart
    have hc' := hc.skipWs hws
    cases hd : tooDeep opts depth with
    | true =>
      intro b _ hok
      rw [not_tooDeep_of_accepts hok] at hd
      cases hd
    | false =>
      simp only [if_false, Bool.false_eq_true]
      cases hlead : lead opts.mode a with
      | str quote =>
        obtain ⟨rfl, hq, -⟩ := lead_eq_str hlead
        have h := parseStrNode_follows hd hq hin hc' hl
        cases hquoted : quoted a c' <;> simpa [hquoted, Except.toOption] using h
      | lit lit =>
        dsimp only
        cases literal lit c' with
        | error e => exact follows_none e
        | ok c'' =>
          refine follows_ok rfl (by simp [hd])
            ⟨⟨rfl, pushNode_grows _ (by cases lit <;> trivial), ?_⟩, ?_⟩
          · exact denotes_pushNode_literal tb lit _
          · rw [literal_lay]
            exact pushNode_layout (literal_range _)
      | num => exact parseNumber_follows hd hin hc'
      | arr =>
        cases ho : opened opts.mode Ascii.rbracket c' with
        | error e => exact follows_none e
        | ok r =>
          obtain ⟨closed, c''⟩ := r
          obtain ⟨w, -, hw⟩ := opened_reads hl ho
          cases closed with
          | true =>
            have hnil := (List.append_nil tb.staging).symm
            obtain ⟨hext, hst, hmem, hden⟩ := finishArray_spec hnil .nil
            exact follows_ok rfl (by simp [accepts, itemsAccept, hd])
              ⟨⟨rfl, ⟨hext, hst, hmem⟩, hden⟩, finishArray_layout hnil⟩
          | false =>
            refine (ih.elems depth tb c'' tb.staging [] hin (hc'.reads hw)
              (List.append_nil _).symm).mapRef (by simp [accepts, hd]) ?_
            rintro b r ⟨hclosed, hlay⟩
            obtain ⟨hcur, hext, hst, hmem, hden⟩ := hclosed [] .nil
            exact ⟨⟨hcur, ⟨hext, hst, hmem⟩, hden⟩, hlay⟩
      | obj =>
        cases ho : opened opts.mode Ascii.rbrace c' with
        | error e => exact follows_none e
        | ok r =>
          obtain ⟨closed, c''⟩ := r
          obtain ⟨w, -, hw⟩ := opened_reads hl ho
          cases closed with
          | true =>
            refine follows_ok rfl (by simp [accepts, membersAccept, hd])
              ⟨⟨rfl, pushNode_grows _ trivial, ?_⟩, ?_⟩
            · exact denotes_pushNode_object_nil tb
            · exact @pushObject_layout tb _ [] .none rfl rfl (List.append_nil _).symm
          | false =>
            refine (ih.members depth tb c'' tb.stagingMembers [] [] [] none hin (hc'.reads hw)
              (.empty tb) ⟨rfl, rfl⟩).mapRef (by simp [accepts, hd]) ?_
            rintro b r ⟨⟨hcur, hext, hst, hmem, hden⟩, hlay⟩
            exact ⟨⟨hcur, ⟨hext, hst, hmem⟩, hden⟩, hlay⟩
      | other => exact follows_none _

/-- Elements, with one more unit of fuel. -/
theorem parseElems_step (depth : Nat) (tb : TreeBuilder)
    (c : Cur) (base kids : List Nat) (hin : tb.store.inputView = input) (hc : c.At input)
    (hst : tb.staging = base ++ kids) :
    Follows (parseElems opts seed (n + 1) depth base.length tb c) (readElems opts.mode (n + 1) c)
      (fun b => itemsAccept opts (depth + 1) b.1) (LaidItems opts tb base kids) := by
  rw [readElems_succ]
  simp only [parseElems, readItems]
  obtain ⟨⟨i, tb₁, c₁⟩, ⟨t, _⟩, hp, href, hok, ⟨hcur, hgrow, hden⟩, hlay⟩ | ⟨e, hp, hno⟩ :=
    (ih.value (depth + 1) tb c hin hc).cases
  · dsimp only at hcur hgrow hden hok hlay
    subst hcur
    obtain ⟨w₁, -, hw₁⟩ := (reads_some _ _).value href
    rw [hp, href]
    dsimp only
    -- The staged children now include the one just parsed.
    have hst₁ : tb₁.staging ++ [i] = base ++ (kids ++ [i]) := by
      rw [hgrow.staging, hst, List.append_assoc]
    have hvs₁ {vs : List JVal} (hvs : List.Forall₂ tb.store.Denotes kids vs) :
        List.Forall₂ tb₁.store.Denotes (kids ++ [i]) (vs ++ [t.value opts.duplicateKey]) :=
      List.rel_append (hvs.imp fun _ _ h => h.extend hgrow.store) (.cons hden .nil)
    cases hsep : separator opts.mode .array c₁ with
    | error e => exact follows_none e
    | ok r =>
      obtain ⟨closed, c₂⟩ := r
      obtain ⟨w₂, -, hw₂, -⟩ := separator_reads hsep
      cases closed with
      | true =>
        refine follows_ok rfl (by simp [itemsAccept, hok]) ⟨fun vs hvs => ?_, ?_⟩
        · obtain ⟨hext, hbase, hmem, hden'⟩ :=
            @finishArray_spec { tb₁ with staging := tb₁.staging ++ [i] } _ _ _ hst₁ (hvs₁ hvs)
          refine ⟨rfl, hgrow.store.trans hext, hbase, hmem.trans hgrow.members, ?_⟩
          simpa [itemValues] using hden'
        · rw [itemsLay, ← hlay]
          exact @finishArray_layout { tb₁ with staging := tb₁.staging ++ [i] } _ _ hst₁
      | false =>
        refine (ih.elems depth { tb₁ with staging := tb₁.staging ++ [i] } c₂ base (kids ++ [i])
          (hgrow.store.input.trans hin) ((hc.reads hw₁).reads hw₂) hst₁).mapRef
          (by simp [itemsAccept, hok]) ?_
        rintro b r ⟨hclosed, hlay'⟩
        refine ⟨fun vs hvs => ?_, ?_⟩
        · obtain ⟨hcur, hext, hbase, hmem, hden'⟩ := hclosed _ (hvs₁ hvs)
          refine ⟨hcur, hgrow.store.trans hext, hbase, hmem.trans hgrow.members, ?_⟩
          simpa [itemValues] using hden'
        · rw [itemsLay, ← hlay]
          simpa using hlay'
  rw [hp]
  rintro ⟨ts, c'⟩ href hok
  obtain ⟨t, c₁, ts', closed, c₂, rfl, hv, -⟩ := readItems_eq_some href
  refine hno _ hv ?_
  simp only [itemsAccept, Bool.and_eq_true] at hok
  exact hok.1

/-- Members, with one more unit of fuel. -/
theorem parseMembers_step (depth : Nat) (tb : TreeBuilder)
    (c : Cur) (base mems : List MemberEntry) (acc : List (Bytes × JVal))
    (kept : List (Bytes × Nat)) (seen : SeenHash) (hin : tb.store.inputView = input)
    (hc : c.At input) (hst : tb.Staged base mems acc seen) (hkept : KeptNodes mems acc kept) :
    Follows (parseMembers opts seed (n + 1) depth base.length seen tb c)
      (readMembers opts.mode (n + 1) c)
      (fun b => membersAccept opts (depth + 1) (acc.map Prod.fst) b.1)
      (LaidMembers opts tb base acc kept) := by
  rw [readMembers_succ]
  simp only [parseMembers, readItems]
  obtain ⟨⟨tb₁, seen₁, c₁⟩, ⟨⟨k, t⟩, _⟩, hp, href, hok, ⟨hcur, hext₁, hstag, mems₁, hst₁⟩,
      kept₁, hkept₁, hlay⟩ | ⟨e, hp, hno⟩ := (parseObjectMember_follows (ih.value (depth + 1))
        ((skips_follow opts n).value (depth + 1)) hst hkept hin hc).cases
  · dsimp only at hcur hext₁ hstag hst₁ hok hkept₁ hlay
    subst hcur
    rw [hst₁.staged, List.drop_left] at hkept₁
    obtain ⟨w₁, -, hw₁⟩ := readMember_reads (reads_some _ _).value href
    have hkeys := map_fst_memberStep hok (t.value opts.duplicateKey)
    rw [hp, href]
    dsimp only
    cases hsep : separator opts.mode .object c₁ with
    | error e => exact follows_none e
    | ok r =>
      obtain ⟨closed, c₂⟩ := r
      obtain ⟨w₂, -, hw₂, -⟩ := separator_reads hsep
      cases closed with
      | true =>
        obtain ⟨hext, hstag', hbase, hden⟩ :=
          @finishObject_spec tb₁ opts seed _ _ _ hst₁.staged hst₁.denotes
        refine follows_ok rfl ?_
          ⟨⟨rfl, hext₁.trans hext, hstag'.trans hstag, hbase, hden⟩, ?_⟩
        · rw [membersAccept_cons, hok]
          rfl
        · rw [hlay, membersLay, ← hkept₁.nodes]
          exact finishObject_layout hst₁.staged
      | false =>
        refine (ih.members depth tb₁ c₂ base mems₁ _ kept₁ seen₁ (hext₁.input.trans hin)
          ((hc.reads hw₁).reads hw₂) hst₁ hkept₁).mapRef ?_ ?_
        · intro b
          rw [membersAccept_cons, hkeys]
          simp [hok]
        · rintro b r ⟨⟨hcur, hext, hstag', hbase, hden⟩, hlay'⟩
          refine ⟨⟨hcur, hext₁.trans hext, hstag'.trans hstag, hbase, hden⟩, ?_⟩
          rw [hlay]
          exact hlay'
  rw [hp]
  rintro ⟨ms, c'⟩ href hok
  obtain ⟨m, c₁, ms', closed, c₂, rfl, hm, -⟩ := readItems_eq_some href
  refine hno _ hm ?_
  simp only [membersAccept_cons, Bool.and_eq_true] at hok
  exact hok.1

end

/-- Parsing follows the reference reader at every amount of fuel, and lays out what it reads. -/
theorem parses_laid (opts : JsonParseOptions) (seed : Nat → UInt64) (input : Bytes) (n : Nat) :
    ParsesLaid opts seed input n := by
  induction n with
  | zero =>
    refine ⟨fun _ _ _ _ _ => ?_, fun _ _ _ _ _ _ _ _ => ?_, fun _ _ _ _ _ _ _ _ _ _ _ _ => ?_⟩
    · rw [parseValue, readValue]
      exact follows_none _
    · rw [parseElems, readElems]
      exact follows_none _
    · rw [parseMembers, readMembers]
      exact follows_none _
  | succ n ih => exact ⟨parseValue_step ih, parseElems_step ih, parseMembers_step ih⟩

end

end Conflux.Json
