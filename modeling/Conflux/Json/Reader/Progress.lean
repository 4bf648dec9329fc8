import Conflux.Json.Reader.Next

/-!
# Progress of the pull reader

Every event passes over at least one byte, and an answer without an event leaves the input
where the whitespace ends. So a drain is done after at most as many events as there are
bytes.
-/

namespace Conflux.Json

open Conflux.Core

section

variable {opts : JsonParseOptions} {mode : ParseMode} {c c' : Cur} {maxSize : LimitOption}

theorem parseStrIntoToken_reads {quote : UInt8} (hq : IsQuote quote) {t : JsonStringToken}
    (h : parseStrIntoToken quote maxSize c = .ok (t, c')) :
    ∃ w, c.Reads w c' := by
  unfold parseStrIntoToken at h
  split at h
  · cases h
  rename_i b c₁ hb
  split at h
  · cases h
  · cases h
    exact ⟨_, scanBody_reads hq.ne_backslash hb⟩

/-- A quoted string, from its opening quote. -/
theorem parseStrIntoToken_adv_reads {quote a : UInt8} {l : Bytes} (hq : IsQuote quote)
    (hrest : c.rest = a :: l) {t : JsonStringToken}
    (h : parseStrIntoToken quote maxSize c.adv = .ok (t, c')) : ∃ w, w ≠ [] ∧ c.Reads w c' := by
  obtain ⟨w, hw⟩ := parseStrIntoToken_reads hq h
  exact ⟨_, by simp, (Cur.reads_adv_cons hrest).trans hw⟩

theorem parseObjectKeyToken_reads {t : JsonStringToken}
    (h : parseObjectKeyToken opts c = .ok (t, c')) : ∃ w, w ≠ [] ∧ c.Reads w c' := by
  unfold parseObjectKeyToken at h
  split at h
  · cases h
  rename_i a l hrest
  split at h
  · exact parseStrIntoToken_adv_reads (.inl rfl) hrest h
  split at h
  · exact parseStrIntoToken_adv_reads (.inr rfl) hrest h
  split at h
  · rename_i hident
    have hkey : parseUnquotedKey c = .ok (⟨.bare, c.rest.takeWhile isIdentPart,
        c.rest.takeWhile isIdentPart⟩, c.adv (c.rest.takeWhile isIdentPart).length) := by
      rw [parseUnquotedKey, if_pos (by simp [hrest, hident.2])]
    obtain ⟨hreads, -, -, hne⟩ := parseUnquotedKey_reads hkey
    cases h
    exact ⟨_, hne, hreads⟩
  · cases h

theorem parseNumberLexeme_reads {lex : NumLex} (h : parseNumberLexeme c = .ok (lex, c')) :
    ∃ w, w ≠ [] ∧ c.Reads w c' := by
  unfold parseNumberLexeme at h
  split at h
  · cases h
  rename_i i n hn
  split at h
  · cases h
  cases h
  obtain ⟨lex, l', hrest, hlex, rfl⟩ := numberLength_sound hn
  exact ⟨lex, hlex.ne_nil, .adv (by simp [hrest]) rfl rfl⟩

namespace JsonReader

variable {r r' : JsonReader} {e : Event}

/-- Number of opening brackets. -/
def openings (w : Bytes) : Nat := w.countP fun b => b = Ascii.lbracket || b = Ascii.lbrace

/-- From one reader to another at least one byte is passed over, an opening bracket for each added
level of nesting, and no error met. -/
structure Advances (r r' : JsonReader) : Prop where
  reads : ∃ w, w ≠ [] ∧ r.cur.Reads w r'.cur ∧ r'.stack.length ≤ r.stack.length + openings w
  clean : r'.lastError = r.lastError

theorem setLiteral_kept (r : JsonReader) (l : Literal) :
    (r.setLiteral l).cur = r.cur ∧ (r.setLiteral l).lastError = r.lastError ∧
      (r.setLiteral l).stack = r.stack := by
  cases l <;> exact ⟨rfl, rfl, rfl⟩

theorem lead_bracket {mode : ParseMode} {a : UInt8} (h : lead mode a = .obj ∨ lead mode a = .arr) :
    openings [a] = 1 := by
  have ha : a = Ascii.lbracket ∨ a = Ascii.lbrace := by
    unfold lead at h
    grind
  obtain rfl | rfl := ha <;> rfl

/-- A token that leaves the nesting as it is. -/
theorem Advances.same (hreads : ∃ w, w ≠ [] ∧ r.cur.Reads w r'.cur)
    (hstack : r'.stack.length ≤ r.stack.length) (hclean : r'.lastError = r.lastError) :
    r.Advances r' := by
  obtain ⟨w, hne, hw⟩ := hreads
  exact ⟨⟨w, hne, hw, Nat.le_add_right_of_le hstack⟩, hclean⟩

theorem parseValueEvent_ok (h : r.parseValueEvent opts = .ok (e, r')) : r.Advances r' := by
  unfold parseValueEvent at h
  split at h
  · cases h
  split at h
  · cases h
  rename_i a l hrest
  split at h
  · rename_i quote hlead
    split at h
    · cases h
    · cases h
      exact .same (parseStrIntoToken_adv_reads (lead_eq_str hlead).2.1 hrest ‹_›)
        (Nat.le_refl _) rfl
  · cases h
    refine ⟨⟨[a], by simp, Cur.reads_adv_cons hrest, ?_⟩, rfl⟩
    rw [lead_bracket (.inl ‹_›), List.length_cons]
  · cases h
    refine ⟨⟨[a], by simp, Cur.reads_adv_cons hrest, ?_⟩, rfl⟩
    rw [lead_bracket (.inr ‹_›), List.length_cons]
  · rename_i lit hlead
    split at h
    · cases h
    cases h
    have hne : lit.text ≠ [] := by cases lit <;> decide
    obtain ⟨hcur, hclean, hstack⟩ := setLiteral_kept { r with cur := _ } lit
    refine .same ?_ (Nat.le_of_eq (congrArg List.length hstack)) hclean
    rw [hcur]
    exact ⟨_, hne, literal_reads ‹_›⟩
  · split at h
    · cases h
    · cases h
      exact .same (parseNumberLexeme_reads ‹_›) (Nat.le_refl _) rfl
  · cases h

variable {o : Option Event}

theorem valueEvent_ok (h : r.valueEvent opts = (.ok o, r')) : o ≠ none ∧ r.Advances r' := by
  unfold valueEvent at h
  dsimp only at h
  split at h
  · cases h
  rename_i hp
  cases h
  obtain ⟨hreads, hclean⟩ := parseValueEvent_ok hp
  exact ⟨by simp, hreads, hclean⟩

theorem nextItem_reads {b : Bracket} {first closed : Bool}
    (h : nextItem mode b first c = .ok (closed, c')) :
    ∃ w, (closed → w ≠ []) ∧ c.Reads w c' := by
  unfold nextItem at h
  split at h
  · rename_i hhead
    cases h
    obtain ⟨l, hl⟩ := List.head?_eq_some_iff.mp hhead
    exact ⟨_, by simp, Cur.reads_adv_cons hl⟩
  split at h
  · cases h
    exact ⟨[], by simp, .refl c⟩
  split at h
  · cases h
  rename_i hcomma
  obtain ⟨l, hl⟩ := List.head?_eq_some_iff.mp (not_not.mp hcomma)
  have hone := Cur.reads_adv_cons hl
  split at h
  · cases h
  rename_i c₁ hws
  obtain ⟨w, -, hw⟩ := skipWs_reads hws
  split at h
  · rename_i hend
    cases h
    obtain ⟨l', hl'⟩ := List.head?_eq_some_iff.mp hend.2
    exact ⟨_, by simp, (hone.trans hw).trans (Cur.reads_adv_cons hl')⟩
  · cases h
    exact ⟨_, by simp, hone.trans hw⟩

variable {outer : List StateFrame}

theorem keyEvent_ok (h : r.keyEvent opts outer = (.ok o, r'))
    (hstack : outer.length < r.stack.length) : o ≠ none ∧ r.Advances r' := by
  unfold keyEvent at h
  split at h
  · cases h
  rename_i t c₁ hkey
  obtain ⟨w₁, hne, hw₁⟩ := parseObjectKeyToken_reads hkey
  split at h
  · cases h
  rename_i c₂ hcolon
  obtain ⟨w₂, -, hw₂⟩ := colon_reads hcolon
  cases h
  exact ⟨by simp, .same ⟨_, by simp [hne], hw₁.trans hw₂⟩ hstack rfl⟩

/-- An item event comes after the punctuation in front of the item. -/
theorem Advances.after {stack : List StateFrame} {w : Bytes} (hw : r.cur.Reads w c)
    (hstack : stack.length ≤ r.stack.length)
    (h : o ≠ none ∧ Advances { r with cur := c, stack := stack } r') :
    o ≠ none ∧ r.Advances r' := by
  obtain ⟨ho, ⟨w', hne, hw', hdepth⟩, hclean⟩ := h
  refine ⟨ho, ⟨w ++ w', by simp [hne], hw.trans hw', ?_⟩, hclean⟩
  dsimp only at hdepth
  rw [openings, List.countP_append]
  unfold openings at hdepth
  omega

/-- An answer that is no error keeps the reader free of errors. One without an event changes
nothing and comes at the end of the input only. -/
theorem dispatch_ok (h : r.dispatch opts = (.ok o, r')) :
    (o = none ∧ r' = r ∧ r.cur.rest = []) ∨ (o ≠ none ∧ r.Advances r') := by
  unfold dispatch at h
  split at h
  · split at h
    · rename_i hnil
      cases h
      exact .inl ⟨rfl, rfl, hnil⟩
    · exact .inr (valueEvent_ok h)
  · rename_i hstack
    right
    split at h
    · cases h
    · obtain ⟨w, hne, hw⟩ := nextItem_reads ‹_›
      cases h
      exact ⟨by simp, .same ⟨w, hne rfl, hw⟩ (by simp [hstack]) rfl⟩
    · obtain ⟨w, -, hw⟩ := nextItem_reads ‹_›
      exact Advances.after hw (by simp [hstack]) (valueEvent_ok h)
  · rename_i hstack
    exact .inr (Advances.after (.refl _) (by simp [hstack]) (valueEvent_ok h))
  rename_i hstack
  right
  split at h
  · cases h
  · obtain ⟨w, hne, hw⟩ := nextItem_reads ‹_›
    cases h
    exact ⟨by simp, .same ⟨w, hne rfl, hw⟩ (by simp [hstack]) rfl⟩
  · obtain ⟨w, -, hw⟩ := nextItem_reads ‹_›
    exact Advances.after hw (by simp [hstack]) (keyEvent_ok h (by simp))

/-- An answer that is no error goes on in the input, with an event by at least one byte and an
opening bracket for each level of nesting, and keeps the reader free of errors. -/
theorem next_ok (h : r.next opts = (.ok o, r')) :
    (∃ w, (o ≠ none → w ≠ []) ∧ r.cur.Reads w r'.cur ∧
      r'.stack.length ≤ r.stack.length + openings w) ∧ r'.lastError = none := by
  unfold next at h
  split at h
  · cases h
  rename_i herr
  split at h
  · cases h
  rename_i c hws
  obtain ⟨w, -, hw⟩ := skipWs_reads hws
  obtain ⟨rfl, rfl, -⟩ | ⟨-, ⟨w', hne, hw', hdepth⟩, hclean⟩ := dispatch_ok h
  · exact ⟨⟨w, fun ho => absurd rfl ho, hw, Nat.le_add_right _ _⟩, herr⟩
  · refine ⟨⟨w ++ w', by simp [hne], hw.trans hw', ?_⟩, hclean.trans herr⟩
    rw [openings, List.countP_append]
    exact Nat.le_trans hdepth (by unfold openings; dsimp only; omega)

theorem pull_shorter {a : Emitted} (h : r.pull opts = (.ok (some a), r')) :
    r'.cur.rest.length < r.cur.rest.length := by
  obtain ⟨hans, rfl⟩ := Prod.mk.injEq .. ▸ h
  cases hnext : (r.next opts).1 with
  | error err => simp [hnext, Except.map] at hans
  | ok o =>
    cases o with
    | none => simp [hnext, Except.map] at hans
    | some e =>
      have hok : r.next opts = (.ok (some e), (r.next opts).2) := Prod.ext hnext rfl
      obtain ⟨⟨w, hne, hw, -⟩, -⟩ := next_ok hok
      have hlen := hw.length_eq
      have hpos := List.length_pos_of_ne_nil (hne (by simp))
      omega

/-- The requests that a drain of a reader is given are enough. -/
theorem drains_readAll_le (opts : JsonParseOptions) (r : JsonReader) :
    (∃ s, Drains (pull opts) r (r.readAll opts).1 (r.readAll opts).2 s) ∧
      (r.readAll opts).1.length ≤ r.cur.rest.length := by
  obtain ⟨es, o, s, h, hlen⟩ := @exists_drains _ _ _ (pull opts) (fun r => r.cur.rest.length)
    (fun _ _ _ h => pull_shorter h) r
  have hdrain := h.drain_eq (Nat.lt_succ_of_le hlen)
  rw [readAll, hdrain]
  exact ⟨⟨s, h⟩, hlen⟩

theorem drains_readAll (opts : JsonParseOptions) (r : JsonReader) :
    ∃ s, Drains (pull opts) r (r.readAll opts).1 (r.readAll opts).2 s :=
  (drains_readAll_le opts r).1

theorem readAll_eq_iff {es : List Emitted} {o : Outcome JsonError} :
    r.readAll opts = (es, o) ↔ ∃ s, Drains (pull opts) r es o s := by
  obtain ⟨s, h⟩ := drains_readAll opts r
  constructor
  · intro heq
    rw [heq] at h
    exact ⟨s, h⟩
  rintro ⟨s', h'⟩
  obtain ⟨hes, ho, -⟩ := h.unique h'
  exact Prod.ext hes ho

end JsonReader

end

end Conflux.Json
