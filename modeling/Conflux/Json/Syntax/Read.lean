import Conflux.Core.Assoc
import Conflux.Json.Text.Tokens

/-!
# Syntax trees, values and the reference reader

A syntax tree records what is written: strings with their way of writing, and the members
of an object in order, repeated names included. A value is what a document denotes: decoded
strings, number lexemes, and objects whose repeated names are folded by the policy.

The reference reader is a recursive descent over the tokens, without limits, storage or policy
for repeated names. It is the common reference of the storing parser, the skipping parser
and the pull reader. Recursion is bounded by fuel; twice the length of the input is enough.
-/

namespace Conflux.Json

open Conflux.Core

/-- What is written. -/
inductive Cst where
  | null
  | bool (b : Bool)
  | num (lexeme : Bytes)
  | str (t : StrTok)
  | arr (items : List Cst)
  | obj (members : List (StrTok × Cst))
  deriving Repr

/-- What is denoted. -/
inductive JVal where
  | null
  | bool (b : Bool)
  | num (lexeme : Bytes)
  | str (s : Bytes)
  | arr (items : List JVal)
  | obj (members : List (Bytes × JVal))
  deriving Repr

/-- The tree of a literal. -/
def Literal.cst : Literal → Cst
  | .true_ => .bool true
  | .false_ => .bool false
  | .null_ => .null

/-- Induction over trees, through the lists of items and members. -/
theorem Cst.induction {P : Cst → Prop} (null : P .null) (bool : ∀ b, P (.bool b))
    (num : ∀ l, P (.num l)) (str : ∀ t, P (.str t))
    (arr : ∀ ts, (∀ t ∈ ts, P t) → P (.arr ts))
    (obj : ∀ ms, (∀ m ∈ ms, P m.2) → P (.obj ms)) (t : Cst) : P t :=
  @Cst.rec P (fun ts => ∀ t ∈ ts, P t) (fun ms => ∀ m ∈ ms, P m.2) (fun m => P m.2)
    null bool num str arr obj (by simp) (fun _ _ h hs => by simpa using ⟨h, hs⟩)
    (by simp) (fun _ _ h hs => by simpa using ⟨h, by simpa using hs⟩) (fun _ _ h => h) t

mutual

/-- Whether two values are the same. -/
def JVal.same : JVal → JVal → Bool
  | .null, .null => true
  | .bool a, .bool b => a == b
  | .num a, .num b => a == b
  | .str a, .str b => a == b
  | .arr a, .arr b => itemsSame a b
  | .obj a, .obj b => membersSame a b
  | _, _ => false

/-- Whether two lists of items are the same. -/
def itemsSame : List JVal → List JVal → Bool
  | [], [] => true
  | a :: as, b :: bs => a.same b && itemsSame as bs
  | _, _ => false

/-- Whether two lists of members are the same. -/
def membersSame : List (Bytes × JVal) → List (Bytes × JVal) → Bool
  | [], [] => true
  | (k, a) :: as, (l, b) :: bs => k == l && a.same b && membersSame as bs
  | _, _ => false

end

mutual

theorem JVal.same_iff : (a b : JVal) → (a.same b ↔ a = b)
  | .null, b => by cases b <;> simp [JVal.same]
  | .bool a, b => by cases b <;> simp [JVal.same]
  | .num a, b => by cases b <;> simp [JVal.same]
  | .str a, b => by cases b <;> simp [JVal.same]
  | .arr a, b => by
    have h := itemsSame_iff a
    cases b <;> simp [JVal.same, h]
  | .obj a, b => by
    have h := membersSame_iff a
    cases b <;> simp [JVal.same, h]

theorem itemsSame_iff : (as bs : List JVal) → (itemsSame as bs ↔ as = bs)
  | [], bs => by cases bs <;> simp [itemsSame]
  | a :: as, bs => by
    have ha := JVal.same_iff a
    have has := itemsSame_iff as
    cases bs <;> simp [itemsSame, ha, has]

theorem membersSame_iff : (as bs : List (Bytes × JVal)) → (membersSame as bs ↔ as = bs)
  | [], bs => by cases bs <;> simp [membersSame]
  | (k, a) :: as, bs => by
    have ha := JVal.same_iff a
    have has := membersSame_iff as
    cases bs with
    | nil => simp [membersSame]
    | cons b bs =>
      obtain ⟨l, b⟩ := b
      simp [membersSame, ha, has]

end

/-- Equality of values is decidable. -/
instance : DecidableEq JVal := fun a b => decidable_of_iff _ (JVal.same_iff a b)

/-- Add one member by the policy. A rejecting parser never sees a repeated name. -/
def memberStep {ν : Type} (policy : DuplicateKeyPolicy) (acc : List (Bytes × ν))
    (m : Bytes × ν) : List (Bytes × ν) :=
  match policy with
  | .reject => acc ++ [m]
  | .lastWins => keepLast acc m
  | .firstWins => keepFirst acc m

variable {ν : Type} {vs : List JVal} {ms : List (Bytes × JVal)}

variable (policy : DuplicateKeyPolicy)

/-- Every policy appends a new name. -/
theorem memberStep_of_notMem {acc : List (Bytes × ν)} {m : Bytes × ν}
    (h : m.1 ∉ acc.map Prod.fst) : memberStep policy acc m = acc ++ [m] := by
  cases policy with
  | reject => rfl
  | lastWins | firstWins => exact if_neg h

/-- Fold written members by the policy. -/
def foldMembers {ν : Type} (policy : DuplicateKeyPolicy) (ms : List (Bytes × ν)) :
    List (Bytes × ν) :=
  ms.foldl (memberStep policy) []

/-- Folding looks at names only. -/
theorem foldMembers_map {μ : Type} (g : ν → μ) (ms : List (Bytes × ν)) :
    foldMembers policy (ms.map (Prod.map id g)) =
      (foldMembers policy ms).map (Prod.map id g) := by
  have hstep (acc : List (Bytes × ν)) (m : Bytes × ν) :
      memberStep policy (acc.map (Prod.map id g)) (Prod.map id g m) =
        (memberStep policy acc m).map (Prod.map id g) := by
    cases policy with
    | reject => simp [memberStep]
    | lastWins => exact keepLast_map g acc m
    | firstWins => exact keepFirst_map g acc m
  have aux (acc : List (Bytes × ν)) :
      (ms.map (Prod.map id g)).foldl (memberStep policy) (acc.map (Prod.map id g)) =
        (ms.foldl (memberStep policy) acc).map (Prod.map id g) := by
    induction ms generalizing acc with
    | nil => rfl
    | cons m ms ih => rw [List.map_cons, List.foldl_cons, List.foldl_cons, hstep, ih]
  exact aux []

@[simp] theorem foldMembers_reject (ms : List (Bytes × ν)) :
    foldMembers .reject ms = ms := by
  have aux (acc : List (Bytes × ν)) : ms.foldl (memberStep .reject) acc = acc ++ ms := by
    induction ms generalizing acc with
    | nil => simp
    | cons m ms ih => simp [ih, memberStep]
  exact aux []

theorem foldMembers_lastWins (ms : List (Bytes × ν)) :
    foldMembers .lastWins ms = foldLast ms := rfl

theorem foldMembers_firstWins (ms : List (Bytes × ν)) :
    foldMembers .firstWins ms = foldFirst ms := rfl

mutual

/-- The value of a tree under a policy for repeated names. -/
def Cst.value (policy : DuplicateKeyPolicy) : Cst → JVal
  | .null => .null
  | .bool b => .bool b
  | .num l => .num l
  | .str t => .str t.dec
  | .arr ts => .arr (itemValues policy ts)
  | .obj ms => .obj (foldMembers policy (memberValues policy ms))

/-- The values of items. -/
def itemValues (policy : DuplicateKeyPolicy) : List Cst → List JVal
  | [] => []
  | t :: ts => t.value policy :: itemValues policy ts

/-- The decoded names and the values of members. -/
def memberValues (policy : DuplicateKeyPolicy) : List (StrTok × Cst) → List (Bytes × JVal)
  | [] => []
  | (k, t) :: ms => (k.dec, t.value policy) :: memberValues policy ms

end

theorem itemValues_eq_map (ts : List Cst) :
    itemValues policy ts = ts.map (Cst.value policy) := by
  induction ts with
  | nil => rfl
  | cons t ts ih => rw [itemValues, ih, List.map_cons]

theorem memberValues_eq_map (ms : List (StrTok × Cst)) :
    memberValues policy ms = ms.map fun m => (m.1.dec, m.2.value policy) := by
  induction ms with
  | nil => rfl
  | cons m ms ih => rw [memberValues, ih, List.map_cons]

/-! ## The reference reader -/

/-- A number lexeme of any length. -/
def numberText (c : Cur) : Option (Bytes × Cur) :=
  match numberLength c.rest with
  | .error _ => none
  | .ok (_, n) => some (c.rest.take n, c.adv n)

/-- Read a member: a name, a colon and a value. -/
def readMember (mode : ParseMode) (readVal : Cur → Option (Cst × Cur)) (c : Cur) :
    Option ((StrTok × Cst) × Cur) :=
  match memberName mode c with
  | .error _ => none
  | .ok (k, c) =>
    match colon mode c with
    | .error _ => none
    | .ok c => (readVal c).map fun r => ((k, r.1), r.2)

mutual

/-- Read a value. -/
def readValue (mode : ParseMode) : Nat → Cur → Option (Cst × Cur)
  | 0, _ => none
  | n + 1, c =>
    match valueStart mode false c with
    | .error _ => none
    | .ok (a, c) =>
      match lead mode a with
      | .str quote =>
        match quoted quote c with
        | .error _ => none
        | .ok (t, c) => some (.str t, c)
      | .lit l =>
        match literal l c with
        | .error _ => none
        | .ok c => some (l.cst, c)
      | .num => (numberText c).map fun r => (.num r.1, r.2)
      | .arr =>
        match opened mode Ascii.rbracket c with
        | .error _ => none
        | .ok (true, c) => some (.arr [], c)
        | .ok (false, c) => (readElems mode n c).map fun r => (.arr r.1, r.2)
      | .obj =>
        match opened mode Ascii.rbrace c with
        | .error _ => none
        | .ok (true, c) => some (.obj [], c)
        | .ok (false, c) => (readMembers mode n c).map fun r => (.obj r.1, r.2)
      | .other => none

/-- Read the elements of an array, up to its closing bracket. -/
def readElems (mode : ParseMode) : Nat → Cur → Option (List Cst × Cur)
  | 0, _ => none
  | n + 1, c =>
    match readValue mode n c with
    | none => none
    | some (t, c) =>
      match separator mode .array c with
      | .error _ => none
      | .ok (true, c) => some ([t], c)
      | .ok (false, c) => (readElems mode n c).map fun r => (t :: r.1, r.2)

/-- Read the members of an object, up to its closing brace. -/
def readMembers (mode : ParseMode) : Nat → Cur → Option (List (StrTok × Cst) × Cur)
  | 0, _ => none
  | n + 1, c =>
    match readMember mode (readValue mode n) c with
    | none => none
    | some (m, c) =>
      match separator mode .object c with
      | .error _ => none
      | .ok (true, c) => some ([m], c)
      | .ok (false, c) => (readMembers mode n c).map fun r => (m :: r.1, r.2)

end

/-! ## What a read consists of -/

section

variable {β : Type} {mode : ParseMode} {n : Nat} {a : UInt8} {c c₁ c' : Cur}

/-- After an opening bracket: the closing one, or items. -/
def readOpened (mode : ParseMode) (close : UInt8) (items : Cur → Option (List β × Cur))
    (c : Cur) : Option (List β × Cur) :=
  match opened mode close c with
  | .error _ => none
  | .ok (true, c) => some ([], c)
  | .ok (false, c) => items c

/-- An item, what separates it, and further items unless it is the last. -/
def readItems (mode : ParseMode) (b : Bracket) (item : Option (β × Cur))
    (items : Cur → Option (List β × Cur)) : Option (List β × Cur) :=
  match item with
  | none => none
  | some (x, c) =>
    match separator mode b c with
    | .error _ => none
    | .ok (true, c) => some ([x], c)
    | .ok (false, c) => (items c).map fun r => (x :: r.1, r.2)

theorem readElems_succ (mode : ParseMode) (n : Nat) (c : Cur) : readElems mode (n + 1) c =
    readItems mode .array (readValue mode n c) (readElems mode n) := by
  rw [readElems]
  cases readValue mode n c with
  | none | some r => rfl

theorem readMembers_succ (mode : ParseMode) (n : Nat) (c : Cur) : readMembers mode (n + 1) c =
    readItems mode .object (readMember mode (readValue mode n) c) (readMembers mode n) := by
  rw [readMembers]
  cases readMember mode (readValue mode n) c with
  | none | some r => rfl

theorem readValue_arr (hstart : valueStart mode false c = .ok (a, c₁))
    (hlead : lead mode a = .arr) : readValue mode (n + 1) c =
      (readOpened mode Ascii.rbracket (readElems mode n) c₁).map fun r => (.arr r.1, r.2) := by
  simp only [readValue, hstart, hlead, readOpened]
  split <;> rfl

theorem readValue_obj (hstart : valueStart mode false c = .ok (a, c₁))
    (hlead : lead mode a = .obj) : readValue mode (n + 1) c =
      (readOpened mode Ascii.rbrace (readMembers mode n) c₁).map fun r => (.obj r.1, r.2) := by
  simp only [readValue, hstart, hlead, readOpened]
  split <;> rfl

section

variable {item : Option (β × Cur)} {items : Cur → Option (List β × Cur)} {xs : List β}

theorem readOpened_eq_some {close : UInt8} (h : readOpened mode close items c = some (xs, c')) :
    ∃ closed c₁, opened mode close c = .ok (closed, c₁) ∧
      if closed then xs = [] ∧ c' = c₁ else items c₁ = some (xs, c') := by
  unfold readOpened at h
  split at h
  · cases h
  · rename_i ho
    cases h
    exact ⟨true, c', ho, by simp⟩
  · rename_i c₁ ho
    exact ⟨false, c₁, ho, by simpa using h⟩

theorem readItems_eq_some {b : Bracket} (h : readItems mode b item items = some (xs, c')) :
    ∃ x c₁ xs' closed c₂, xs = x :: xs' ∧ item = some (x, c₁) ∧
      separator mode b c₁ = .ok (closed, c₂) ∧
      if closed then xs' = [] ∧ c' = c₂ else items c₂ = some (xs', c') := by
  unfold readItems at h
  split at h
  · cases h
  rename_i x c₁
  split at h
  · cases h
  · rename_i c₂ hsep
    cases h
    exact ⟨x, c₁, [], true, c', rfl, rfl, hsep, by simp⟩
  rename_i c₂ hsep
  obtain ⟨⟨xs', c₃⟩, hxs, heq⟩ := Option.map_eq_some_iff.mp h
  cases heq
  exact ⟨x, c₁, xs', false, c₂, rfl, rfl, hsep, by simpa using hxs⟩

end

/-- A member is a name, a colon and a value. -/
theorem readMember_eq_some {readVal : Cur → Option (Cst × Cur)} {m : StrTok × Cst}
    (h : readMember mode readVal c = some (m, c')) :
    ∃ c₁ c₂, memberName mode c = .ok (m.1, c₁) ∧ colon mode c₁ = .ok c₂ ∧
      readVal c₂ = some (m.2, c') := by
  simp only [readMember] at h
  split at h
  · cases h
  rename_i k c₁ hk
  split at h
  · cases h
  rename_i c₂ hcolon
  obtain ⟨⟨t, c₃⟩, hv, heq⟩ := Option.map_eq_some_iff.mp h
  cases heq
  exact ⟨c₁, c₂, hk, hcolon, hv⟩

/-- What a value was read as, by the byte it starts with. -/
inductive ValueRead (mode : ParseMode) (n : Nat) (a : UInt8) (c c' : Cur) : Cst → Prop
  | str {quote : UInt8} {t : StrTok} : lead mode a = .str quote →
      quoted quote c = .ok (t, c') → ValueRead mode n a c c' (.str t)
  | lit {l : Literal} : lead mode a = .lit l → literal l c = .ok c' →
      ValueRead mode n a c c' l.cst
  | num {lexeme : Bytes} : lead mode a = .num → numberText c = some (lexeme, c') →
      ValueRead mode n a c c' (.num lexeme)
  | arr {ts : List Cst} : lead mode a = .arr →
      readOpened mode Ascii.rbracket (readElems mode n) c = some (ts, c') →
      ValueRead mode n a c c' (.arr ts)
  | obj {ms : List (StrTok × Cst)} : lead mode a = .obj →
      readOpened mode Ascii.rbrace (readMembers mode n) c = some (ms, c') →
      ValueRead mode n a c c' (.obj ms)

theorem readValue_eq_some {t : Cst} (h : readValue mode (n + 1) c = some (t, c')) :
    ∃ a c₁, valueStart mode false c = .ok (a, c₁) ∧ ValueRead mode n a c₁ c' t := by
  cases hstart : valueStart mode false c with
  | error e => simp [readValue, hstart] at h
  | ok r =>
    obtain ⟨a, c₁⟩ := r
    refine ⟨a, c₁, rfl, ?_⟩
    cases hlead : lead mode a with
    | str quote =>
      simp only [readValue, hstart, hlead] at h
      split at h
      · cases h
      · cases h
        exact .str hlead ‹_›
    | lit l =>
      simp only [readValue, hstart, hlead] at h
      split at h
      · cases h
      · cases h
        exact .lit hlead ‹_›
    | num =>
      simp only [readValue, hstart, hlead] at h
      obtain ⟨⟨lexeme, c₂⟩, hnum, heq⟩ := Option.map_eq_some_iff.mp h
      cases heq
      exact .num hlead hnum
    | arr =>
      rw [readValue_arr hstart hlead] at h
      obtain ⟨⟨ts, c₂⟩, hts, heq⟩ := Option.map_eq_some_iff.mp h
      cases heq
      exact .arr hlead hts
    | obj =>
      rw [readValue_obj hstart hlead] at h
      obtain ⟨⟨ms, c₂⟩, hms, heq⟩ := Option.map_eq_some_iff.mp h
      cases heq
      exact .obj hlead hms
    | other => simp [readValue, hstart, hlead] at h

end

/-- Fuel that is enough for any value of an input. -/
def readFuel (l : Bytes) : Nat := 2 * l.length + 2

/-- Read a text: a value with nothing but whitespace around it. -/
def readText (mode : ParseMode) (c : Cur) : Option Cst :=
  match readValue mode (readFuel c.rest) c with
  | none => none
  | some (t, c) =>
    match skipWs mode c with
    | .error _ => none
    | .ok c => if c.rest = [] then some t else none

/-- A text is a value and then nothing but whitespace. -/
theorem readText_eq_some_iff {mode : ParseMode} {c : Cur} {t : Cst} :
    readText mode c = some t ↔ ∃ c₁ c₂, readValue mode (readFuel c.rest) c = some (t, c₁) ∧
      skipWs mode c₁ = .ok c₂ ∧ c₂.rest = [] := by
  unfold readText
  cases readValue mode (readFuel c.rest) c with
  | none => simp
  | some r =>
    obtain ⟨t', c₁⟩ := r
    cases hws : skipWs mode c₁ with
    | error e => simp [hws]
    | ok c₂ =>
      dsimp only
      rw [hws]
      dsimp only
      constructor
      · intro h
        split at h
        · cases h
          exact ⟨c₁, c₂, rfl, hws, ‹_›⟩
        · cases h
      rintro ⟨_, _, heq, hws', hnil⟩
      cases heq
      rw [hws] at hws'
      cases hws'
      rw [if_pos hnil]

end Conflux.Json
