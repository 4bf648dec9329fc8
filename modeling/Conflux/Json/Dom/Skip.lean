import Conflux.Core.Refine
import Conflux.Json.Dom.Parse
import Conflux.Json.Text.Progress

/-!
# What the parser accepts and skips

The checks of the parser as predicates on syntax trees: the nesting limits at every value, the
size limits at every string, name and number, and the policy for repeated names. The skipping
descent does not look at the size of names; it succeeds exactly when the reference reader reads a
tree within its checks.
-/

namespace Conflux.Json

open Conflux.Core Cst Ascii

/-- A number lexeme within its limit. -/
def numberFits (lexeme : Bytes) : Bool := lexeme.length ≤ kMaxNumberLexemeLen

/-- A string or name within its limit. -/
def stringFits (opts : JsonParseOptions) (t : StrTok) : Bool :=
  !stringTooLarge opts t.dec.length

mutual

/-- Whether the skipping descent accepts a tree at a depth. -/
def Cst.skips (opts : JsonParseOptions) (depth : Nat) : Cst → Bool
  | .null => !tooDeep opts depth
  | .bool _ => !tooDeep opts depth
  | .num lexeme => !tooDeep opts depth && numberFits lexeme
  | .str t => !tooDeep opts depth && stringFits opts t
  | .arr ts => !tooDeep opts depth && itemsSkip opts (depth + 1) ts
  | .obj ms => !tooDeep opts depth && membersSkip opts (depth + 1) ms

/-- Whether the skipping descent accepts items at a depth. -/
def itemsSkip (opts : JsonParseOptions) (depth : Nat) : List Cst → Bool
  | [] => true
  | t :: ts => t.skips opts depth && itemsSkip opts depth ts

/-- Whether the skipping descent accepts members at a depth. -/
def membersSkip (opts : JsonParseOptions) (depth : Nat) : List (StrTok × Cst) → Bool
  | [] => true
  | (_, t) :: ms => t.skips opts depth && membersSkip opts depth ms

end

mutual

/-- Whether the storing descent accepts a tree at a depth. -/
def Cst.accepts (opts : JsonParseOptions) (depth : Nat) : Cst → Bool
  | .null => !tooDeep opts depth
  | .bool _ => !tooDeep opts depth
  | .num lexeme => !tooDeep opts depth && numberFits lexeme
  | .str t => !tooDeep opts depth && stringFits opts t
  | .arr ts => !tooDeep opts depth && itemsAccept opts (depth + 1) ts
  | .obj ms => !tooDeep opts depth && membersAccept opts (depth + 1) [] ms

/-- Whether the storing descent accepts items at a depth. -/
def itemsAccept (opts : JsonParseOptions) (depth : Nat) : List Cst → Bool
  | [] => true
  | t :: ts => t.accepts opts depth && itemsAccept opts depth ts

/-- Whether the storing descent accepts members at a depth, after the given names. -/
def membersAccept (opts : JsonParseOptions) (depth : Nat) (seen : List Bytes) :
    List (StrTok × Cst) → Bool
  | [] => true
  | (k, t) :: ms =>
    stringFits opts k &&
    (if k.dec ∈ seen then
      match opts.duplicateKey with
      | .reject => false
      | .lastWins => t.accepts opts depth
      | .firstWins => t.skips opts depth
    else t.accepts opts depth) &&
    membersAccept opts depth (if k.dec ∈ seen then seen else seen ++ [k.dec]) ms

end

/-- Whether the storing descent accepts one member at a depth, after the given names. -/
def memberAccepts (opts : JsonParseOptions) (depth : Nat) (seen : List Bytes)
    (m : StrTok × Cst) : Bool :=
  stringFits opts m.1 &&
  (if m.1.dec ∈ seen then
    match opts.duplicateKey with
    | .reject => false
    | .lastWins => m.2.accepts opts depth
    | .firstWins => m.2.skips opts depth
  else m.2.accepts opts depth)

/-- The names after one more member. -/
def addName (seen : List Bytes) (k : Bytes) : List Bytes :=
  if k ∈ seen then seen else seen ++ [k]

theorem membersAccept_cons (opts : JsonParseOptions) (depth : Nat) (seen : List Bytes)
    (m : StrTok × Cst) (ms : List (StrTok × Cst)) :
    membersAccept opts depth seen (m :: ms) =
      (memberAccepts opts depth seen m && membersAccept opts depth (addName seen m.1.dec) ms) :=
  rfl

variable {opts : JsonParseOptions}

theorem Cst.not_tooDeep_of_skips {depth : Nat} {t : Cst} (h : t.skips opts depth) :
    tooDeep opts depth = false := by
  cases t <;> simp_all [Cst.skips]

theorem Cst.not_tooDeep_of_accepts {depth : Nat} {t : Cst} (h : t.accepts opts depth) :
    tooDeep opts depth = false := by
  cases t <;> simp_all [Cst.accepts]

@[simp] theorem Literal.cst_skips (opts : JsonParseOptions) (depth : Nat) (l : Literal) :
    l.cst.skips opts depth = !tooDeep opts depth := by
  cases l <;> rfl

@[simp] theorem Literal.cst_accepts (opts : JsonParseOptions) (depth : Nat) (l : Literal) :
    l.cst.accepts opts depth = !tooDeep opts depth := by
  cases l <;> rfl

/-! ## Names in skipped values -/

mutual

/-- Whether every member name of a tree is within the size limit. -/
def Cst.namesFit (opts : JsonParseOptions) : Cst → Bool
  | .arr ts => itemsNamesFit opts ts
  | .obj ms => membersNamesFit opts ms
  | _ => true

/-- Whether every member name of some items is within the size limit. -/
def itemsNamesFit (opts : JsonParseOptions) : List Cst → Bool
  | [] => true
  | t :: ts => t.namesFit opts && itemsNamesFit opts ts

/-- Whether every member name of some members is within the size limit. -/
def membersNamesFit (opts : JsonParseOptions) : List (StrTok × Cst) → Bool
  | [] => true
  | (k, t) :: ms => stringFits opts k && t.namesFit opts && membersNamesFit opts ms

end

mutual

/-- Whether every value that a repeated name discards has only names within the size
limit. -/
def Cst.discardsFit (opts : JsonParseOptions) : Cst → Bool
  | .arr ts => itemsDiscardsFit opts ts
  | .obj ms => membersDiscardsFit opts [] ms
  | _ => true

/-- Whether every value that a repeated name in some items discards has only names within
the size limit. -/
def itemsDiscardsFit (opts : JsonParseOptions) : List Cst → Bool
  | [] => true
  | t :: ts => t.discardsFit opts && itemsDiscardsFit opts ts

/-- Whether every value that a repeated name discards, after the given names, has only names
within the size limit. -/
def membersDiscardsFit (opts : JsonParseOptions) (seen : List Bytes) :
    List (StrTok × Cst) → Bool
  | [] => true
  | (k, t) :: ms =>
    (if k.dec ∈ seen then t.namesFit opts else t.discardsFit opts) &&
      membersDiscardsFit opts (addName seen k.dec) ms

end

/-! ## Strings that are skipped -/

/-- What the skipping loop keeps of a unit. -/
def StrUnit.skipped : StrUnit → SkipUnit
  | .close => .close
  | .plain n => .plain n
  | .esc n out => .esc n out.length
  | .fail code msg n => .fail code msg n

theorem length_appendUtf8 (cp : Nat) : (appendUtf8 cp).length = utf8EncodedLen cp := by
  unfold appendUtf8 utf8EncodedLen
  repeat' split
  all_goals rfl

theorem skipUnicodeUnit_eq (l : Bytes) : skipUnicodeUnit l = (unicodeUnit .dom l).skipped := by
  unfold skipUnicodeUnit unicodeUnit
  cases hex4 l with
  | none => rfl
  | some cp =>
    simp only [← length_appendUtf8]
    split
    · split
      · rfl
      · cases hex4 ((l.drop 4).drop 2) with
        | none => rfl
        | some lo =>
          dsimp only
          split <;> rfl
    · split <;> rfl

theorem skipEscapeUnit_eq (quote : UInt8) (l : Bytes) :
    skipEscapeUnit quote l = (escapeUnit .dom quote l).skipped := by
  cases l with
  | nil => rfl
  | cons e l =>
    simp only [skipEscapeUnit, escapeUnit, skipUnicodeUnit_eq]
    by_cases ha : e = apostrophe
    · subst ha
      by_cases hq : quote = apostrophe <;> simp [simpleEscape, hq, StrUnit.skipped]
    rw [if_neg ha]
    split
    · rename_i hs
      obtain rfl | rfl | rfl | rfl | rfl | rfl | rfl | rfl := hs <;> rfl
    · rename_i hs
      simp only [not_or] at hs
      by_cases hu : e = lowerU
      · simp [hu]
      · simp [simpleEscape, hu, ha, hs, StrUnit.skipped]

/-- The skipping loop and the storing one see the same units. -/
theorem skipUnit_eq (quote a : UInt8) (l : Bytes) :
    skipUnit quote a l = (strUnit .dom quote a l).skipped := by
  unfold skipUnit strUnit utf8Unit
  rw [skipEscapeUnit_eq]
  dsimp only
  repeat' split
  all_goals rfl

theorem scan_skip (quote : UInt8) (s : Loc × StrBody) (l : Bytes) :
    scan (skipStep quote) (fun s => .error (Cur.fail ⟨s.1, []⟩ .unexpectedEof "EOF in string"))
        (s.1, s.2.dec.length) l =
      (scan (bodyStep .dom quote) bodyDone s l).map fun r => (r.1.dec.length, r.2) := by
  induction s, l using scan_induction (bodyStep .dom quote) with
  | nil s => rfl
  | stop s a l r hr =>
    rw [scan_cons_stop hr]
    apply scan_cons_stop
    unfold bodyStep at hr
    unfold skipStep
    rw [skipUnit_eq]
    cases hu : strUnit .dom quote a l with
    | close | fail code msg n =>
      simp only [hu, ScanStep.stop.injEq] at hr
      subst hr
      rfl
    | plain n | esc n out => simp [hu] at hr
  | next s a l s' n hs ih =>
    rw [scan_cons_next hs, ← ih]
    apply scan_cons_next
    unfold bodyStep at hs
    unfold skipStep
    rw [skipUnit_eq]
    cases hu : strUnit .dom quote a l with
    | close | fail code msg n => simp [hu] at hs
    | plain k =>
      simp only [hu, ScanStep.next.injEq] at hs
      obtain ⟨rfl, rfl⟩ := hs
      obtain ⟨-, u, l', rfl, rfl, -⟩ := strUnit_plain hu
      simp [StrUnit.skipped]
    | esc k out =>
      simp only [hu, ScanStep.next.injEq] at hs
      obtain ⟨rfl, rfl⟩ := hs
      simp [StrUnit.skipped]

/-- A body is skipped exactly when it is scanned, to the same end, and its decoded length is
counted. -/
theorem skipStrBodyNoStore_eq (quote : UInt8) (c : Cur) :
    skipStrBodyNoStore quote c =
      (scanBody .dom quote c).map fun r => (r.1.dec.length, r.2) :=
  scan_skip quote (c.loc, {}) c.rest

theorem skipStrBodyNoStore_quoted (quote : UInt8) (c : Cur) :
    skipStrBodyNoStore quote c.adv = (quoted quote c).map fun r => (r.1.dec.length, r.2) := by
  rw [skipStrBodyNoStore_eq]
  unfold quoted
  cases scanBody .dom quote c.adv <;> rfl

/-- A name is skipped exactly when it is read. -/
theorem skipMemberName_eq (mode : ParseMode) (c : Cur) :
    skipMemberName mode c = (memberName mode c).map Prod.snd := by
  have hskip (quote : UInt8) (c : Cur) :
      (skipStrBodyNoStore quote c.adv).map Prod.snd = (quoted quote c).map Prod.snd := by
    rw [skipStrBodyNoStore_quoted]
    cases quoted quote c <;> rfl
  unfold skipMemberName memberName parseObjectMemberName
  cases skipWs mode c with
  | error e => rfl
  | ok c =>
    simp only [hskip]
    split
    · rfl
    split
    · rfl
    · cases mode with
      | strict => rfl
      | json5 =>
        dsimp only
        split <;> rfl

/-! ## Values that are skipped -/

/-- The nesting check comes after the search for a first byte. -/
theorem valueStart_eq (mode : ParseMode) (deep : Bool) (c : Cur) :
    valueStart mode deep c =
      match valueStart mode false c with
      | .error e => .error e
      | .ok (a, c') =>
        if deep then .error (c'.fail .nestingTooDeep "nesting depth limit exceeded")
        else .ok (a, c') := by
  unfold valueStart
  cases skipWs mode c with
  | error e => rfl
  | ok c' =>
    obtain ⟨loc, rest⟩ := c'
    cases rest with
    | nil => rfl
    | cons a l => cases deep <;> rfl

/-- A scanned lexeme is a lexeme of the reference that fits. -/
theorem parseNumberLexeme_follows (c : Cur) :
    Follows (parseNumberLexeme c) (numberText c) (fun b => numberFits b.1)
      (fun b a => a.1.lexeme = b.1 ∧ a.2 = b.2) := by
  unfold parseNumberLexeme numberText
  cases hn : numberLength c.rest with
  | error e => exact follows_none _
  | ok r =>
    obtain ⟨i, n⟩ := r
    obtain ⟨lex, l', hrest, -, rfl⟩ := numberLength_sound hn
    have htake : c.rest.take lex.length = lex := by rw [hrest, List.take_left' rfl]
    dsimp only
    split
    · rename_i hlong
      refine follows_error rfl ?_
      simp only [numberFits, htake, decide_eq_true_eq]
      omega
    rename_i hshort
    refine follows_ok rfl ?_ ⟨rfl, rfl⟩
    simp only [numberFits, htake, decide_eq_true_eq]
    omega

section

variable {opts : JsonParseOptions} {n : Nat}

/-- What the skipping of values, elements and members satisfies at one amount of fuel. -/
structure SkipsFollow (opts : JsonParseOptions) (n : Nat) : Prop where
  value (depth : Nat) (c : Cur) : Follows (skipValue opts n depth c) (readValue opts.mode n c)
    (fun b => b.1.skips opts depth) (fun b a => b.2 = a)
  elems (depth : Nat) (c : Cur) : Follows (skipElems opts n depth c) (readElems opts.mode n c)
    (fun b => itemsSkip opts (depth + 1) b.1) (fun b a => b.2 = a)
  members (depth : Nat) (c : Cur) :
    Follows (skipMembers opts n depth c) (readMembers opts.mode n c)
      (fun b => membersSkip opts (depth + 1) b.1) (fun b a => b.2 = a)

/-- An item and what follows it are skipped as they are read. -/
theorem skipItems_follows {β : Type} {b : Bracket} {skip : Except Fail Cur}
    {item : Option (β × Cur)} {more : Cur → Except Fail Cur}
    {items : Cur → Option (List β × Cur)} {okItem : β → Bool} {ok : List β → Bool}
    (hnil : ok []) (hcons : ∀ x xs, ok (x :: xs) = (okItem x && ok xs))
    (hitem : Follows skip item (fun b => okItem b.1) (fun b a => b.2 = a))
    (hitems : ∀ c, Follows (more c) (items c) (fun b => ok b.1) (fun b a => b.2 = a)) :
    Follows
      (match skip with
        | .error e => .error e
        | .ok c =>
          match separator opts.mode b c with
          | .error e => .error e
          | .ok (true, c) => .ok c
          | .ok (false, c) => more c)
      (readItems opts.mode b item items) (fun b => ok b.1) (fun b a => b.2 = a) := by
  obtain ⟨c', ⟨x, _⟩, rfl, rfl, hok, rfl⟩ | ⟨e, rfl, hno⟩ := hitem.cases
  · dsimp only [readItems] at hok ⊢
    cases separator opts.mode b _ with
    | error e => exact follows_none e
    | ok r =>
      obtain ⟨closed, c''⟩ := r
      cases closed with
      | true => exact follows_ok rfl (by simp [hcons, hok, hnil]) rfl
      | false => exact (hitems c'').mapRef (by simp [hcons, hok]) (fun _ _ h => h)
  rintro ⟨xs, c'⟩ href hok
  obtain ⟨x, c₁, xs', closed, c₂, rfl, hx, -⟩ := readItems_eq_some href
  refine hno _ hx ?_
  simp only [hcons, Bool.and_eq_true] at hok
  exact hok.1

section

variable (ih : SkipsFollow opts n) (depth : Nat) (c : Cur)
include ih depth c

theorem skipValue_step :
    Follows (skipValue opts (n + 1) depth c) (readValue opts.mode (n + 1) c)
      (fun b => b.1.skips opts depth) (fun b a => b.2 = a) := by
  simp only [skipValue, readValue, valueStart_eq _ (tooDeep opts depth)]
  cases valueStart opts.mode false c with
  | error e => exact follows_none e
  | ok r =>
    obtain ⟨a, c'⟩ := r
    by_cases hd : tooDeep opts depth
    · simp only [hd, if_true]
      intro b _ hok
      rw [not_tooDeep_of_skips hok] at hd
      cases hd
    simp only [hd, if_false, Bool.false_eq_true]
    cases lead opts.mode a with
    | str quote =>
      dsimp only
      rw [skipStrBodyNoStore_quoted]
      cases quoted quote c' with
      | error e => exact follows_none e
      | ok r =>
        obtain ⟨t, c''⟩ := r
        dsimp only [Except.map]
        split
        · rename_i hlong
          exact follows_error rfl (by simp [skips, stringFits, hlong])
        · rename_i hshort
          exact follows_ok rfl (by simp [skips, stringFits, hshort, hd]) rfl
    | lit l =>
      dsimp only
      cases literal l c' with
      | error e => exact follows_none e
      | ok c'' => exact follows_ok rfl (by simp [hd]) rfl
    | num =>
      obtain ⟨⟨lex, c''⟩, b, hp, href, hok, -, hcur⟩ | ⟨e, hp, hno⟩ :=
        (parseNumberLexeme_follows c').cases
      · rw [hp, href]
        exact follows_ok rfl (by simpa [skips, hd] using hok) hcur.symm
      rw [hp]
      exact follows_map_error e hno (by simp [skips, hd])
    | arr =>
      cases opened opts.mode Ascii.rbracket c' with
      | error e => exact follows_none e
      | ok r =>
        obtain ⟨closed, c''⟩ := r
        cases closed with
        | true => exact follows_ok rfl (by simp [skips, itemsSkip, hd]) rfl
        | false => exact (ih.elems depth c'').mapRef (by simp [skips, hd]) (fun _ _ h => h)
    | obj =>
      cases opened opts.mode Ascii.rbrace c' with
      | error e => exact follows_none e
      | ok r =>
        obtain ⟨closed, c''⟩ := r
        cases closed with
        | true => exact follows_ok rfl (by simp [skips, membersSkip, hd]) rfl
        | false =>
          exact (ih.members depth c'').mapRef (by simp [skips, hd]) (fun _ _ h => h)
    | other => exact follows_none _

theorem skipMember_step :
    Follows (skipMember opts.mode (skipValue opts n (depth + 1)) c)
      (readMember opts.mode (readValue opts.mode n) c)
      (fun b => b.1.2.skips opts (depth + 1)) (fun b a => b.2 = a) := by
  unfold skipMember readMember
  rw [skipMemberName_eq]
  cases memberName opts.mode c with
  | error e => exact follows_none e
  | ok r =>
    obtain ⟨k, c₁⟩ := r
    dsimp only [Except.map]
    cases colon opts.mode c₁ with
    | error e => exact follows_none e
    | ok c₂ => exact (ih.value (depth + 1) c₂).mapRef (fun _ => Iff.rfl) (fun _ _ h => h)

end

/-- Skipping follows the reference reader at every amount of fuel. -/
theorem skips_follow (opts : JsonParseOptions) (n : Nat) : SkipsFollow opts n := by
  induction n with
  | zero => exact ⟨fun _ _ => follows_none _, fun _ _ => follows_none _, fun _ _ => follows_none _⟩
  | succ n ih =>
    refine ⟨skipValue_step ih, fun depth c => ?_, fun depth c => ?_⟩
    · rw [skipElems, readElems_succ]
      exact skipItems_follows rfl (fun _ _ => rfl) (ih.value (depth + 1) c) (ih.elems depth)
    · rw [skipMembers, readMembers_succ]
      exact skipItems_follows rfl (fun _ _ => rfl) (skipMember_step ih depth c) (ih.members depth)

end

end Conflux.Json
