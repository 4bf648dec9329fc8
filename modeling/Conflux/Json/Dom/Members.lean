import Conflux.Json.Dom.Build
import Conflux.Json.Dom.Skip

/-!
# One member at a time

A stored string or name is the one the reference reads. The members staged for an open
object denote the members read so far, folded by the policy for repeated names, and one more
member keeps this.
-/

namespace Conflux.Json

open Conflux.Core DocumentStorage List Option Ascii TreeBuilder

/-- The cursor stands in the given input. -/
def Cur.At (input : Bytes) (c : Cur) : Prop :=
  ∃ pre, input = pre ++ c.rest ∧ c.loc.offset = pre.length

variable {input w : Bytes} {c' c : Cur}

theorem Cur.At.reads (h : c.At input) (hr : c.Reads w c') : c'.At input := by
  obtain ⟨pre, hin, hoff⟩ := h
  refine ⟨pre ++ w, ?_, ?_⟩
  · rw [hin, hr.1, append_assoc]
  · rw [hr.2, hoff, length_append]

/-- What was read is the slice of the input between the two cursors. -/
theorem Cur.At.slice {w' : Bytes} (h : c.At input) (hr : c.Reads (w ++ w') c') :
    Core.slice input c.loc.offset w.length = some w := by
  obtain ⟨pre, hin, hoff⟩ := h
  have hsplit : input = pre ++ w ++ (w' ++ c'.rest) := by
    rw [hin, hr.1]
    simp
  rw [hsplit, hoff]
  exact slice_append (slice_append_right pre w) _

theorem Cur.At.slice_all (h : c.At input) (hr : c.Reads w c') :
    Core.slice input c.loc.offset w.length = some w := by
  have hr' : c.Reads (w ++ []) c' := by rwa [append_nil]
  exact h.slice hr'

theorem Cur.At.skipWs {mode : ParseMode} (h : c.At input) (hws : skipWs mode c = .ok c') :
    c'.At input := by
  obtain ⟨w, -, hw⟩ := skipWs_reads hws
  exact h.reads hw

variable {quote : UInt8} {mems : List MemberEntry} {acc : List (Bytes × JVal)}

/-- A body without escapes stands for itself. -/
theorem StrChars.dec_eq_raw {raw dec : Bytes} (h : StrChars quote raw dec)
    (hraw : backslash ∉ raw) : dec = raw := by
  induction h with
  | nil => rfl
  | @cons u out w dec head tail ih =>
    rw [ih (fun hmem => hraw (mem_append_right _ hmem))]
    have hu : backslash ∉ u := fun hmem => hraw (mem_append_left _ hmem)
    cases head <;> simp_all

namespace TreeBuilder

variable {input : Bytes} {tb : TreeBuilder} {c : Cur}

/-- What a stored string satisfies: it is read back from its place. -/
structure Stores (tb : TreeBuilder) (t : StrTok × Cur) (r : ParsedStr × TreeBuilder × Cur) :
    Prop where
  cur : r.2.2 = t.2
  grows : tb.Grows r.2.1
  bytes : r.2.1.store.bytesAt r.1.off r.1.len r.1.flags = some t.1.dec
  len : r.1.len = t.1.dec.length

theorem parseStrBodySq_follows (tb : TreeBuilder) (c : Cur) :
    Follows (tb.parseStrBodySq c.adv) (quoted apostrophe c).toOption (fun _ => True)
      tb.Stores := by
  unfold parseStrBodySq quoted
  cases scanBody .dom apostrophe c.adv with
  | error e => exact follows_none e
  | ok r =>
    obtain ⟨b, c'⟩ := r
    refine follows_ok rfl trivial ⟨rfl, pushArena_grows tb b.dec, ?_, rfl⟩
    exact bytesAt_pushArena tb b.dec

theorem parseStrBody_follows (hin : tb.store.inputView = input) (hc : c.adv.At input) :
    Follows (tb.parseStrBody c.adv) (quoted Ascii.quote c).toOption (fun _ => True)
      tb.Stores := by
  unfold parseStrBody quoted
  cases hb : scanBody .dom Ascii.quote c.adv with
  | error e => exact follows_none e
  | ok r =>
    obtain ⟨b, c'⟩ := r
    have hq : Ascii.quote ≠ backslash := by decide
    obtain ⟨-, hchars, hesc⟩ := scanBody_sound hq hb
    dsimp only
    split
    · refine follows_ok rfl trivial ⟨rfl, pushArena_grows tb b.dec, ?_, rfl⟩
      exact bytesAt_pushArena tb b.dec
    rename_i hno
    have hdec : b.dec = b.raw := by
      apply hchars.dec_eq_raw
      simpa [hesc] using hno
    have hslice := hc.slice (scanBody_reads hq hb)
    refine follows_ok rfl trivial ⟨rfl, .refl tb, ?_, ?_⟩
    · simpa [bytesAt, StrFlags.view, hin, StrBody.tok, hdec] using hslice
    · simp [StrBody.tok, hdec]

/-- A stored string is the one the reference reads. -/
theorem parseQuoted_follows {l : Bytes} (hq : IsQuote quote) (hin : tb.store.inputView = input)
    (hc : c.At input) (hrest : c.rest = quote :: l) :
    Follows (tb.parseQuoted quote c) (quoted quote c).toOption (fun _ => True) tb.Stores := by
  obtain rfl | rfl := hq
  · exact parseStrBody_follows hin (hc.reads (Cur.reads_adv_cons hrest))
  · exact parseStrBodySq_follows tb c

/-- A stored name is the one the reference reads. -/
theorem parseObjectMemberName_follows (opts : JsonParseOptions)
    (hin : tb.store.inputView = input) (hc : c.At input) :
    Follows (tb.parseObjectMemberName opts c)
      (Json.parseObjectMemberName opts.mode c).toOption (fun _ => True) tb.Stores := by
  unfold parseObjectMemberName Json.parseObjectMemberName
  by_cases hdq : c.rest.head? = some Ascii.quote
  · obtain ⟨l, hl⟩ := head?_eq_some_iff.mp hdq
    simp only [hdq, if_true]
    exact parseQuoted_follows (.inl rfl) hin hc hl
  simp only [hdq, if_false]
  cases opts.mode with
  | strict => exact follows_none _
  | json5 =>
    by_cases hsq : c.rest.head? = some apostrophe
    · obtain ⟨l, hl⟩ := head?_eq_some_iff.mp hsq
      simp only [hsq, if_true]
      exact parseQuoted_follows (.inr rfl) hin hc hl
    simp only [hsq, if_false]
    cases hk : parseUnquotedKey c with
    | error e => exact follows_none e
    | ok r =>
      obtain ⟨t, c'⟩ := r
      obtain ⟨hreads, ht, -⟩ := parseUnquotedKey_reads hk
      have hslice := hc.slice_all hreads
      have hdec : t.dec = t.raw := by rw [ht]
      refine follows_ok rfl trivial ⟨rfl, .refl tb, ?_, ?_⟩
      · simpa [bytesAt, StrFlags.view, hin, hdec] using hslice
      · simp [hdec]

/-- The start of a member is the one the reference reads, if its name fits. -/
theorem memberName_follows (opts : JsonParseOptions) (hin : tb.store.inputView = input)
    (hc : c.At input) :
    Follows (tb.memberName opts c) (Json.memberName opts.mode c).toOption
      (fun b => stringFits opts b.1) tb.Stores := by
  unfold memberName Json.memberName
  cases hws : skipWs opts.mode c with
  | error e => exact follows_none e
  | ok c' =>
    dsimp only
    split
    · exact follows_none _
    obtain ⟨⟨s, tb', c₁⟩, b, hp, href, -, hR⟩ | ⟨e, hp, hno⟩ :=
      (parseObjectMemberName_follows opts hin (hc.skipWs hws)).cases
    · rw [hp, href]
      have hlen : s.len = b.1.dec.length := hR.len
      dsimp only
      split
      · rename_i hlong
        exact follows_error rfl (by simp [stringFits, ← hlen, hlong])
      · rename_i hshort
        exact follows_ok rfl (by simp [stringFits, ← hlen, hshort]) hR
    · rw [hp]
      exact fun b hb _ => hno b hb trivial

/-! ## Staged members -/

/-- The open object on top of the staging stack: its members denote the folded members so far, and
the hashed duplicate check, if on, lists them all. -/
structure Staged (tb : TreeBuilder) (base mems : List MemberEntry) (acc : List (Bytes × JVal))
    (seen : SeenHash) : Prop where
  staged : tb.stagingMembers = base ++ mems
  denotes : List.Forall₂ tb.store.MemberDenotes mems acc
  nodup : (acc.map Prod.fst).Nodup
  seen : ∀ entries, seen = some entries → entries = (mems.map nameKey).zipIdx base.length

theorem Staged.empty (tb : TreeBuilder) : tb.Staged tb.stagingMembers [] [] none :=
  ⟨(append_nil _).symm, .nil, nodup_nil, fun _ h => by cases h⟩

variable {base mems : List MemberEntry} {acc : List (Bytes × JVal)} {seen : SeenHash}

/-- Growth of the store keeps the open object. -/
theorem Staged.grows {tb' : TreeBuilder} (h : tb.Staged base mems acc seen) (hg : tb.Grows tb') :
    tb'.Staged base mems acc seen :=
  ⟨hg.members.trans h.staged, h.denotes.imp fun _ _ hm => hm.extend hg.store, h.nodup, h.seen⟩

private theorem find?_zipIdx {α : Type} (p : α → Bool) (l : List α) (n : Nat) :
    ((l.zipIdx n).find? fun x => p x.1).map Prod.snd = (l.findIdx? p).map (n + ·) := by
  induction l generalizing n with
  | nil => rfl
  | cons a l ih =>
    rw [zipIdx_cons, List.find?_cons, List.findIdx?_cons]
    cases hp : p a with
    | true => simp
    | false =>
      rw [ih]
      cases l.findIdx? p with
      | none => rfl
      | some j => simp [Nat.add_comm, Nat.add_left_comm]

private theorem findIdx?_names {st : DocumentStorage} (h : List.Forall₂ st.MemberDenotes mems acc)
    (k : Bytes) :
    (mems.findIdx? fun m => st.memberName m = some k) = acc.findIdx? fun x => x.1 = k := by
  induction h with
  | nil => rfl
  | @cons m x mems acc hm _ ih =>
    rw [List.findIdx?_cons, List.findIdx?_cons, ih, hm.1]
    simp

variable {name : ParsedStr} {val : Nat} {k : Bytes}

/-- Both duplicate checks find the first folded member with the name. -/
theorem dedupMemberIndex_spec (h : tb.Staged base mems acc seen)
    (hname : tb.store.bytesAt name.off name.len name.flags = some k) :
    tb.dedupMemberIndex base.length name seen =
      (acc.findIdx? fun x => x.1 = k).map (base.length + ·) := by
  rw [← findIdx?_names h.denotes]
  unfold dedupMemberIndex
  cases hseen : seen with
  | none =>
    simp only [hname, h.staged, drop_left']
  | some entries =>
    simp only [hname, h.seen entries hseen]
    rw [find?_zipIdx fun s : ParsedStr => decide (tb.store.bytesAt s.off s.len s.flags = some k),
      List.findIdx?_map]
    rfl

variable {v : JVal}

theorem stageMember_spec (h : tb.Staged base mems acc seen)
    (hname : tb.store.bytesAt name.off name.len name.flags = some k) (hval : tb.store.Denotes val v)
    (hk : k ∉ acc.map Prod.fst) :
    ∃ mems', (tb.stageMember base.length name val seen).1.Staged base mems' (acc ++ [(k, v)])
      (tb.stageMember base.length name val seen).2 := by
  refine ⟨mems ++ [⟨name.off, name.len, val, name.flags⟩], ?_, ?_, ?_, ?_⟩
  · simp [stageMember, h.staged]
  · exact rel_append h.denotes (.cons ⟨hname, hval⟩ .nil)
  · simp only [map_append, map_cons, map_nil]
    exact nodup_append.mpr ⟨h.nodup, by simp, by grind⟩
  intro entries hentries
  simp only [stageMember] at hentries
  cases hseen : seen with
  | none =>
    simp only [hseen] at hentries
    split at hentries
    · simp only [Option.some.injEq] at hentries
      rw [← hentries, h.staged, append_assoc, drop_left' rfl]
    · cases hentries
  | some entries₀ =>
    simp only [hseen, Option.some.injEq] at hentries
    rw [← hentries, h.seen entries₀ hseen, h.staged]
    simp [zipIdx_append, nameKey]

/-- Replacing the value of a staged name. -/
theorem replaceMember_spec (h : tb.Staged base mems acc seen) {j : Nat}
    (hj : acc.findIdx? (fun x => x.1 = k) = some j) (hval : tb.store.Denotes val v) :
    ∃ mems', (tb.replaceMember (base.length + j) val).Staged base mems' (keepLast acc (k, v))
      seen := by
  have hkeys : (keepLast acc (k, v)).map Prod.fst = acc.map Prod.fst := by
    rw [map_fst_keepLast, if_pos (mem_of_findIdx?_key hj)]
  refine ⟨mems.modify j fun m => { m with valNode := val }, ?_, ?_, ?_, ?_⟩
  · simp only [replaceMember, h.staged, modify_append_length]
  · rw [← modify_eq_keepLast h.nodup hj]
    refine forall₂_modify h.denotes ?_ j
    intro m x hm
    exact ⟨hm.1, hval⟩
  · rw [hkeys]
    exact h.nodup
  intro entries hentries
  have hnames : (mems.modify j fun m => { m with valNode := val }).map nameKey =
      mems.map nameKey := by
    apply map_modify_of_eq
    intro m
    rfl
  rw [h.seen entries hentries, hnames]

end TreeBuilder

/-! ## One member -/

section

variable {opts : JsonParseOptions} {input : Bytes}

/-- What a parsed value satisfies. -/
structure Parsed (opts : JsonParseOptions) (tb : TreeBuilder) (t : Cst × Cur)
    (r : Nat × TreeBuilder × Cur) : Prop where
  cur : r.2.2 = t.2
  grows : tb.Grows r.2.1
  denotes : r.2.1.store.Denotes r.1 (t.1.value opts.duplicateKey)

/-- What a parsed value satisfies, with its layout. -/
def Laid (opts : JsonParseOptions) (tb : TreeBuilder) (t : Cst × Cur)
    (r : Nat × TreeBuilder × Cur) : Prop :=
  Parsed opts tb t r ∧ (r.1, r.2.1.store.layout) = t.1.lay opts.duplicateKey tb.store.layout

/-- After a parsed member the open object has one more member, or one changed, or is as before, as
the policy says. -/
structure ParsedMember (opts : JsonParseOptions) (tb : TreeBuilder) (base : List MemberEntry)
    (acc : List (Bytes × JVal)) (m : (StrTok × Cst) × Cur)
    (r : TreeBuilder × SeenHash × Cur) : Prop where
  cur : r.2.2 = m.2
  store : Extends tb.store r.1.store
  staging : r.1.staging = tb.staging
  staged : ∃ mems, r.1.Staged base mems
    (memberStep opts.duplicateKey acc (m.1.1.dec, m.1.2.value opts.duplicateKey)) r.2.1

/-- The staged members of an open object, as the names and nodes that are kept so far. -/
structure KeptNodes (mems : List MemberEntry) (acc : List (Bytes × JVal))
    (kept : List (Bytes × Nat)) : Prop where
  names : kept.map Prod.fst = acc.map Prod.fst
  nodes : mems.map MemberEntry.valNode = kept.map Prod.snd

section

variable {kept : List (Bytes × Nat)} (h : KeptNodes mems acc kept) {key : Bytes}
include h

theorem KeptNodes.stage {policy : DuplicateKeyPolicy} (hk : key ∉ acc.map Prod.fst)
    (m : MemberEntry) (v : JVal) :
    KeptNodes (mems ++ [m]) (memberStep policy acc (key, v))
      (memberStep policy kept (key, m.valNode)) := by
  have hk' : key ∉ kept.map Prod.fst := h.names ▸ hk
  rw [memberStep_of_notMem _ hk, memberStep_of_notMem _ hk']
  constructor
  · rw [map_append, map_append, h.names]
    rfl
  · rw [map_append, map_append, h.nodes]
    rfl

theorem KeptNodes.replace {j : Nat} (hnodup : (acc.map Prod.fst).Nodup)
    (hj : acc.findIdx? (fun x => x.1 = key) = some j) (val : Nat) (v : JVal) :
    KeptNodes (mems.modify j fun m => { m with valNode := val }) (keepLast acc (key, v))
      (keepLast kept (key, val)) := by
  have hj' : kept.findIdx? (fun x => x.1 = key) = some j := by
    rw [findIdx?_key_congr h.names]
    exact hj
  constructor
  · simp only [map_fst_keepLast, h.names]
  · rw [← modify_eq_keepLast (h.names ▸ hnodup) hj', map_modify (fun _ => val) fun _ => rfl,
      map_modify (fun _ => val) fun _ => rfl, h.nodes]

end

/-- What a parsed member satisfies, with the nodes that are kept and laid out. -/
structure LaidMember (opts : JsonParseOptions) (tb : TreeBuilder) (base : List MemberEntry)
    (acc : List (Bytes × JVal)) (kept : List (Bytes × Nat)) (m : (StrTok × Cst) × Cur)
    (r : TreeBuilder × SeenHash × Cur) : Prop extends ParsedMember opts tb base acc m r where
  laid : ∃ kept', KeptNodes (r.1.stagingMembers.drop base.length)
      (memberStep opts.duplicateKey acc (m.1.1.dec, m.1.2.value opts.duplicateKey)) kept' ∧
    ∀ ms, membersLay opts.duplicateKey tb.store.layout kept (m.1 :: ms) =
      membersLay opts.duplicateKey r.1.store.layout kept' ms

section

variable {depth : Nat} {tb tb₁ : TreeBuilder} {base : List MemberEntry} {seen : SeenHash}
  {kept : List (Bytes × Nat)} {k : StrTok} {y : Option (Cst × Cur)} (hgrow : tb.Grows tb₁)
  (hlayout : tb₁.store.layout = tb.store.layout) (hst : tb₁.Staged base mems acc seen)
  (hkept : KeptNodes mems acc kept) (hfits : stringFits opts k = true)
include hgrow hlayout hst hkept hfits

/-- A value that is passed over leaves the members as they are. -/
theorem memberSkip_follows {x : Except Fail Cur} (hk : k.dec ∈ acc.map Prod.fst)
    (hpol : opts.duplicateKey = .firstWins)
    (hx : Follows x y (fun b => b.1.skips opts depth) fun b a => b.2 = a) :
    Follows
      (match x with
      | .error e => .error e
      | .ok c => .ok (tb₁, seen, c))
      (y.map fun r => ((k, r.1), r.2))
      (fun b => memberAccepts opts depth (acc.map Prod.fst) b.1)
      (LaidMember opts tb base acc kept) := by
  obtain ⟨c, ⟨t, _⟩, rfl, rfl, hacc, hcur⟩ | ⟨e, rfl, hno⟩ := hx.cases
  · dsimp only at hcur hacc
    have hstep : memberStep opts.duplicateKey acc (k.dec, t.value opts.duplicateKey) = acc := by
      rw [hpol, memberStep, keepFirst, if_pos hk]
    refine follows_ok rfl ?_
      ⟨⟨hcur.symm, hgrow.store, hgrow.staging, mems, ?_⟩, kept, ?_, fun ms => ?_⟩
    · simp [memberAccepts, hfits, hk, hacc, hpol]
    · rwa [hstep]
    · rwa [hst.staged, drop_left, hstep]
    · rw [membersLay_skip ⟨hpol, hkept.names ▸ hk⟩, hlayout]
  · exact follows_map_error e hno (by simp [memberAccepts, hfits, hk, hpol])

/-- A value that is kept is the one of a new member, or takes the place of an earlier one. -/
theorem memberKeep_follows {x : Except Fail (Nat × TreeBuilder × Cur)} {name : ParsedStr}
    (hbytes : tb₁.store.bytesAt name.off name.len name.flags = some k.dec)
    (hlast : k.dec ∈ acc.map Prod.fst → opts.duplicateKey = .lastWins)
    (hx : Follows x y (fun b => b.1.accepts opts depth) (Laid opts tb₁)) :
    Follows
      (match x with
      | .error e => .error e
      | .ok (val, tb, c) =>
        match (acc.findIdx? fun x => x.1 = k.dec).map (base.length + ·) with
        | some i => .ok (tb.replaceMember i val, seen, c)
        | none =>
          let (tb, seen) := tb.stageMember base.length name val seen
          .ok (tb, seen, c))
      (y.map fun r => ((k, r.1), r.2))
      (fun b => memberAccepts opts depth (acc.map Prod.fst) b.1)
      (LaidMember opts tb base acc kept) := by
  have haccepts (t : Cst) : memberAccepts opts depth (acc.map Prod.fst) (k, t) =
      t.accepts opts depth := by
    rw [memberAccepts, hfits, Bool.true_and]
    split
    · rw [hlast ‹_›]
    · rfl
  obtain ⟨⟨val, tb₂, c⟩, ⟨t, _⟩, rfl, rfl, hacc, ⟨hcur, hgrow₂, hden⟩, hlay⟩ | ⟨e, rfl, hno⟩ :=
    hx.cases
  · dsimp only at hcur hgrow₂ hden hacc hlay
    have hstore := hgrow.store.trans hgrow₂.store
    have hstaging := hgrow₂.staging.trans hgrow.staging
    have hst₂ := hst.grows hgrow₂
    have hkeep : ¬ (opts.duplicateKey = .firstWins ∧ k.dec ∈ kept.map Prod.fst) := by
      rintro ⟨hpol, hk⟩
      rw [hlast (hkept.names ▸ hk)] at hpol
      cases hpol
    have hlaid (ms : List (StrTok × Cst)) :
        membersLay opts.duplicateKey tb.store.layout kept ((k, t) :: ms) =
          membersLay opts.duplicateKey tb₂.store.layout
            (memberStep opts.duplicateKey kept (k.dec, val)) ms := by
      rw [membersLay_step hkeep, ← hlayout, ← hlay]
    cases hj : acc.findIdx? fun x => x.1 = k.dec with
    | none =>
      have hk := findIdx?_eq_none_iff_key.mp hj
      have hdrop : (tb₂.stageMember base.length name val seen).1.stagingMembers.drop
          base.length = mems ++ [⟨name.off, name.len, val, name.flags⟩] := by
        simp [stageMember, hst₂.staged]
      refine follows_ok rfl ((haccepts t).trans hacc)
        ⟨⟨hcur, hstore, hstaging, ?_⟩, _, hdrop ▸ hkept.stage hk _ _, hlaid⟩
      rw [memberStep_of_notMem _ hk]
      exact stageMember_spec hst₂ (hgrow₂.store.bytesAt hbytes) hden hk
    | some j =>
      have hpol := hlast (mem_of_findIdx?_key hj)
      have hdrop : (tb₂.replaceMember (base.length + j) val).stagingMembers.drop
          base.length = mems.modify j fun m => { m with valNode := val } := by
        rw [replaceMember, hst₂.staged, modify_append_length, drop_left]
      refine follows_ok rfl ((haccepts t).trans hacc)
        ⟨⟨hcur, hstore, hstaging, ?_⟩, _, ?_, hlaid⟩
      · rw [hpol] at hden ⊢
        exact replaceMember_spec hst₂ hj hden
      · rw [hpol]
        exact hdrop ▸ hkept.replace hst.nodup hj val _
  · exact follows_map_error e hno fun b hok => haccepts b.1 ▸ hok

end

theorem parseObjectMember_follows {depth : Nat}
    {parse : TreeBuilder → Cur → Except Fail (Nat × TreeBuilder × Cur)}
    {skip : Cur → Except Fail Cur} {readVal : Cur → Option (Cst × Cur)}
    (hparse : ∀ tb c, tb.store.inputView = input → c.At input →
      Follows (parse tb c) (readVal c) (fun b => b.1.accepts opts depth) (Laid opts tb))
    (hskip : ∀ c,
      Follows (skip c) (readVal c) (fun b => b.1.skips opts depth) (fun b a => b.2 = a))
    {tb : TreeBuilder} {base : List MemberEntry} {seen : SeenHash} {kept : List (Bytes × Nat)}
    (hst : tb.Staged base mems acc seen) (hkept : KeptNodes mems acc kept)
    (hin : tb.store.inputView = input) (hc : c.At input) :
    Follows (parseObjectMember opts parse skip base.length seen tb c)
      (readMember opts.mode readVal c)
      (fun b => memberAccepts opts depth (acc.map Prod.fst) b.1)
      (LaidMember opts tb base acc kept) := by
  unfold parseObjectMember readMember
  obtain ⟨⟨name, tb₁, c₁⟩, ⟨k, _⟩, hp, href, hfits, ⟨hcur, hgrow, hbytes, -⟩⟩ | ⟨e, hp, hno⟩ :=
    (memberName_follows opts hin hc).cases
  · rw [toOption_eq_some] at href
    dsimp only at hcur hgrow hbytes hfits
    subst hcur
    rw [hp, href]
    obtain ⟨w₁, -, hreads₁, -⟩ := memberName_reads href
    have hst₁ := hst.grows hgrow
    have hlayout := memberName_layout hp
    have hin₁ : tb₁.store.inputView = input := hgrow.store.input.trans hin
    dsimp only
    rw [dedupMemberIndex_spec hst₁ hbytes]
    have hdup : ((acc.findIdx? fun x => x.1 = k.dec).map (base.length + ·)).isSome ↔
        k.dec ∈ acc.map Prod.fst := by
      rw [isSome_map, isSome_iff_ne_none, ne_eq, findIdx?_eq_none_iff_key, not_not]
    by_cases hreject : k.dec ∈ acc.map Prod.fst ∧ opts.duplicateKey = .reject
    · rw [if_pos (by rwa [hdup])]
      intro b hb hok
      split at hb
      · cases hb
      obtain ⟨b', -, rfl⟩ := map_eq_some_iff.mp hb
      simp [memberAccepts, hreject] at hok
    rw [if_neg (by rwa [hdup])]
    cases hcolon : colon opts.mode c₁ with
    | error e => exact follows_none e
    | ok c₂ =>
      obtain ⟨w₂, -, hreads₂⟩ := colon_reads hcolon
      have hc₂ := (hc.reads hreads₁).reads hreads₂
      dsimp only
      by_cases hfirst : k.dec ∈ acc.map Prod.fst ∧ opts.duplicateKey = .firstWins
      · rw [if_pos (by rwa [hdup])]
        exact memberSkip_follows hgrow hlayout hst₁ hkept hfits hfirst.1 hfirst.2 (hskip c₂)
      rw [if_neg (by rwa [hdup])]
      have hlast (hk : k.dec ∈ acc.map Prod.fst) : opts.duplicateKey = .lastWins := by
        cases hpol : opts.duplicateKey with
        | reject => exact absurd ⟨hk, hpol⟩ hreject
        | lastWins => rfl
        | firstWins => exact absurd ⟨hk, hpol⟩ hfirst
      exact memberKeep_follows hgrow hlayout hst₁ hkept hfits hbytes hlast
        (hparse tb₁ c₂ hin₁ hc₂)
  rw [hp]
  rintro ⟨⟨k, t⟩, c'⟩ hb hok
  obtain ⟨c₁, _, hname, -⟩ := readMember_eq_some hb
  refine hno (k, c₁) (by rw [hname]; rfl) ?_
  simp only [memberAccepts, Bool.and_eq_true] at hok
  exact hok.1

end

end Conflux.Json
