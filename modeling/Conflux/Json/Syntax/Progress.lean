import Conflux.Json.Syntax.Read
import Conflux.Json.Text.Progress

/-!
# Progress of the reference reader

A value, and the rest of an array or object, are never empty as written. So the nesting of
the recursion is bounded by the length of the input, and the fuel given to the reader does
not matter once it is enough. Whatever the mode, the strings, names and numbers of a tree that was
read are sentences of their grammars.
-/

namespace Conflux.Json

section

variable {mode : ParseMode} {c c' : Cur}

/-- A number lexeme is read from the head. -/
theorem numberText_reads {lexeme : Bytes} (h : numberText c = some (lexeme, c')) :
    c.Reads lexeme c' ∧ NumberText lexeme := by
  unfold numberText at h
  split at h
  · cases h
  rename_i i n hn
  obtain ⟨lex, l', hrest, hlex, rfl⟩ := numberLength_sound hn
  cases h
  have htake : c.rest.take lex.length = lex := by rw [hrest, List.take_left' rfl]
  have hreads := Cur.reads_adv (c := c) (n := lex.length) (by simp [hrest])
  rw [htake] at hreads ⊢
  exact ⟨hreads, hlex⟩

/-- What reading values, elements and members passes over is not empty. -/
structure ReadsSome (mode : ParseMode) (n : Nat) : Prop where
  value {c c' : Cur} {t : Cst} : readValue mode n c = some (t, c') → ∃ w, w ≠ [] ∧ c.Reads w c'
  elems {c c' : Cur} {ts : List Cst} :
    readElems mode n c = some (ts, c') → ∃ w, w ≠ [] ∧ c.Reads w c'
  members {c c' : Cur} {ms : List (StrTok × Cst)} :
    readMembers mode n c = some (ms, c') → ∃ w, w ≠ [] ∧ c.Reads w c'

variable {n : Nat}

/-- What is read after an opening bracket begins with that bracket. -/
theorem readOpened_reads {β : Type} {close a : UInt8} {l : Bytes} {xs : List β}
    {items : Cur → Option (List β × Cur)} (hl : c.rest = a :: l)
    (hitems : ∀ {c}, items c = some (xs, c') → ∃ w, w ≠ [] ∧ c.Reads w c')
    (h : readOpened mode close items c = some (xs, c')) : ∃ w, w ≠ [] ∧ c.Reads w c' := by
  obtain ⟨closed, c₁, ho, hrest⟩ := readOpened_eq_some h
  obtain ⟨w, -, hw⟩ := opened_reads hl ho
  cases closed with
  | true =>
    obtain ⟨-, rfl⟩ := hrest
    exact ⟨_, by simp, hw⟩
  | false =>
    obtain ⟨w', -, hw'⟩ := hitems hrest
    exact ⟨_, by simp, hw.trans hw'⟩

/-- Items are not empty if each of them is not. -/
theorem readItems_reads {β : Type} {b : Bracket} {xs : List β} {item : Option (β × Cur)}
    {items : Cur → Option (List β × Cur)}
    (hitem : ∀ {x c'}, item = some (x, c') → ∃ w, w ≠ [] ∧ c.Reads w c')
    (hitems : ∀ {xs c}, items c = some (xs, c') → ∃ w, w ≠ [] ∧ c.Reads w c')
    (h : readItems mode b item items = some (xs, c')) : ∃ w, w ≠ [] ∧ c.Reads w c' := by
  obtain ⟨x, c₁, xs', closed, c₂, rfl, hx, hsep, hrest⟩ := readItems_eq_some h
  obtain ⟨w₁, hne, hw₁⟩ := hitem hx
  obtain ⟨w₂, -, hw₂, -⟩ := separator_reads hsep
  have hw := hw₁.trans hw₂
  cases closed with
  | true =>
    obtain ⟨-, rfl⟩ := hrest
    exact ⟨_, by simp [hne], hw⟩
  | false =>
    obtain ⟨w₃, -, hw₃⟩ := hitems hrest
    exact ⟨_, by simp [hne], hw.trans hw₃⟩

theorem readValue_reads_step (ih : ReadsSome mode n) {t : Cst}
    (h : readValue mode (n + 1) c = some (t, c')) : ∃ w, w ≠ [] ∧ c.Reads w c' := by
  obtain ⟨a, c₁, hstart, hread⟩ := readValue_eq_some h
  obtain ⟨hws, -, l, hl⟩ := valueStart_ok hstart
  obtain ⟨w, -, hw⟩ := skipWs_reads hws
  -- It is enough that what follows the whitespace is not empty.
  suffices hval : ∃ w, w ≠ [] ∧ c₁.Reads w c' by
    obtain ⟨w', hne, hw'⟩ := hval
    exact ⟨w ++ w', by simp [hne], hw.trans hw'⟩
  cases hread with
  | str hlead hq =>
    obtain ⟨rfl, hquote, -⟩ := lead_eq_str hlead
    exact ⟨_, by simp, (quoted_reads hquote hl hq).1⟩
  | lit _ hlit =>
    rename_i lit _
    have hne : lit.text ≠ [] := by cases lit <;> decide
    exact ⟨_, hne, literal_reads hlit⟩
  | num _ hnum =>
    obtain ⟨hreads, hlex⟩ := numberText_reads hnum
    exact ⟨_, hlex.ne_nil, hreads⟩
  | arr _ hts => exact readOpened_reads hl ih.elems hts
  | obj _ hms => exact readOpened_reads hl ih.members hms

/-- A member is not empty if values are not. -/
theorem readMember_reads {m : StrTok × Cst}
    (hval : ∀ {c c' : Cur} {t : Cst}, readValue mode n c = some (t, c') →
      ∃ w, w ≠ [] ∧ c.Reads w c')
    (h : readMember mode (readValue mode n) c = some (m, c')) : ∃ w, w ≠ [] ∧ c.Reads w c' := by
  obtain ⟨c₁, c₂, hk, hcolon, hv⟩ := readMember_eq_some h
  obtain ⟨w₁, hne, hw₁, -⟩ := memberName_reads hk
  obtain ⟨w₂, -, hw₂⟩ := colon_reads hcolon
  obtain ⟨w₃, -, hw₃⟩ := hval hv
  exact ⟨_, by simp [hne], (hw₁.trans hw₂).trans hw₃⟩

/-- Reading makes progress at every amount of fuel. -/
theorem reads_some (mode : ParseMode) (n : Nat) : ReadsSome mode n := by
  induction n with
  | zero => exact ⟨fun h => (by cases h), fun h => (by cases h), fun h => (by cases h)⟩
  | succ n ih =>
    refine ⟨readValue_reads_step ih, fun h => ?_, fun h => ?_⟩
    · rw [readElems_succ] at h
      exact readItems_reads ih.value ih.elems h
    · rw [readMembers_succ] at h
      exact readItems_reads (readMember_reads ih.value) ih.members h

end

/-! ## Leading whitespace -/

variable {mode : ParseMode} {c' c : Cur} {e : Fail}

/-- The reader may start before or after leading whitespace. -/
theorem readValue_of_skipWs (h : skipWs mode c = .ok c') (n : Nat) :
    readValue mode n c = readValue mode n c' := by
  cases n with
  | zero => rfl
  | succ n => simp only [readValue, valueStart, h, skipWs_idem h]

theorem readValue_of_error (h : skipWs mode c = .error e) (n : Nat) :
    readValue mode n c = none := by
  cases n with
  | zero => rfl
  | succ n => simp only [readValue, valueStart, h]

theorem readValue_of_nil (h : skipWs mode c = .ok c') (hc : c'.rest = []) (n : Nat) :
    readValue mode n c = none := by
  cases n with
  | zero => rfl
  | succ n => simp only [readValue, valueStart, h, hc]

theorem readElems_of_error (h : skipWs mode c = .error e) (n : Nat) :
    readElems mode n c = none := by
  cases n with
  | zero => rfl
  | succ n => simp only [readElems, readValue_of_error h]

theorem readMembers_of_error (h : skipWs mode c = .error e) (n : Nat) :
    readMembers mode n c = none := by
  cases n with
  | zero => rfl
  | succ n => simp only [readMembers, readMember, memberName, h]

/-- Elements may be read before or after leading whitespace. -/
theorem readElems_of_skipWs (h : skipWs mode c = .ok c') (n : Nat) :
    readElems mode n c = readElems mode n c' := by
  cases n with
  | zero => rfl
  | succ n => simp only [readElems, readValue_of_skipWs h]

/-- Members may be read before or after leading whitespace. -/
theorem readMembers_of_skipWs (h : skipWs mode c = .ok c') (n : Nat) :
    readMembers mode n c = readMembers mode n c' := by
  cases n with
  | zero => rfl
  | succ n => simp only [readMembers, readMember, memberName, h, skipWs_idem h]

/-! ## Leaves -/

/-- A tree whose strings, names and numbers can be written. -/
inductive Cst.Written : Cst → Prop
  | null : Written .null
  | bool (b : Bool) : Written (.bool b)
  | num {lexeme : Bytes} (h : NumberText lexeme) : Written (.num lexeme)
  | str {t : StrTok} (h : t.Written) : Written (.str t)
  | arr {ts : List Cst} (items : ∀ t ∈ ts, Written t) : Written (.arr ts)
  | obj {ms : List (StrTok × Cst)} (names : ∀ m ∈ ms, m.1.Written)
      (values : ∀ m ∈ ms, Written m.2) : Written (.obj ms)

variable {k : StrTok} {t : Cst} {ts : List Cst} {ms : List (StrTok × Cst)} {s : Bytes}

section

variable {mode : ParseMode} {c c' : Cur} {n : Nat}

/-- What reading values, elements and members yields at one amount of fuel. -/
structure ReadsWritten (mode : ParseMode) (n : Nat) : Prop where
  value {c c' : Cur} {t : Cst} : readValue mode n c = some (t, c') → t.Written
  elems {c c' : Cur} {ts : List Cst} : readElems mode n c = some (ts, c') → ∀ t ∈ ts, t.Written
  members {c c' : Cur} {ms : List (StrTok × Cst)} : readMembers mode n c = some (ms, c') →
    ∀ m ∈ ms, m.1.Written ∧ m.2.Written

section

variable {β : Type} {P : β → Prop} {item : Option (β × Cur)} {xs : List β}
  {items : Cur → Option (List β × Cur)}
  (hitems : ∀ {xs c c'}, items c = some (xs, c') → ∀ x ∈ xs, P x)
include hitems

theorem forall_of_readOpened {close : UInt8}
    (h : readOpened mode close items c = some (xs, c')) : ∀ x ∈ xs, P x := by
  obtain ⟨closed, c₁, -, hrest⟩ := readOpened_eq_some h
  cases closed with
  | true =>
    obtain ⟨rfl, -⟩ := hrest
    simp
  | false => exact hitems hrest

theorem forall_of_readItems {b : Bracket} (hitem : ∀ {x c}, item = some (x, c) → P x)
    (h : readItems mode b item items = some (xs, c')) : ∀ x ∈ xs, P x := by
  obtain ⟨x, c₁, xs', closed, c₂, rfl, hx, -, hrest⟩ := readItems_eq_some h
  rw [List.forall_mem_cons]
  refine ⟨hitem hx, ?_⟩
  cases closed with
  | true =>
    obtain ⟨rfl, -⟩ := hrest
    simp
  | false => exact hitems hrest

end

section

variable (ih : ReadsWritten mode n)
include ih

theorem readValue_written_step
    (h : readValue mode (n + 1) c = some (t, c')) : t.Written := by
  obtain ⟨a, c₁, -, hread⟩ := readValue_eq_some h
  cases hread with
  | str hlead hq => exact .str (quoted_written (lead_eq_str hlead).2.1 hq)
  | lit =>
    rename_i lit _ _
    cases lit with
    | true_ => exact .bool true
    | false_ => exact .bool false
    | null_ => exact .null
  | num _ hnum => exact .num (numberText_reads hnum).2
  | arr _ hts => exact .arr (forall_of_readOpened ih.elems hts)
  | obj _ hms =>
    have hwritten := forall_of_readOpened ih.members hms
    exact .obj (fun m hm => (hwritten m hm).1) (fun m hm => (hwritten m hm).2)

end

/-- Trees that were read can be written, at every amount of fuel. -/
theorem reads_written (mode : ParseMode) (n : Nat) : ReadsWritten mode n := by
  induction n with
  | zero => exact ⟨fun h => (by cases h), fun h => (by cases h), fun h => (by cases h)⟩
  | succ n ih =>
    refine ⟨readValue_written_step ih, fun h => ?_, fun h => ?_⟩
    · rw [readElems_succ] at h
      exact forall_of_readItems ih.elems ih.value h
    · rw [readMembers_succ] at h
      refine forall_of_readItems ih.members (fun hm => ?_) h
      obtain ⟨c₁, c₂, hk, -, hv⟩ := readMember_eq_some hm
      obtain ⟨_, -, -, hk', -⟩ := memberName_reads hk
      exact ⟨hk', ih.value hv⟩

theorem readText_written (h : readText mode c = some t) : t.Written := by
  obtain ⟨c₁, c₂, hv, -, -⟩ := readText_eq_some_iff.mp h
  exact (reads_written _ _).value hv

end

/-! ## Strings and names of a value -/

mutual

/-- The strings and names of a value. -/
def JVal.strings : JVal → List Bytes
  | .str s => [s]
  | .arr vs => itemStrings vs
  | .obj xs => memberStrings xs
  | _ => []

/-- The strings and names of some items. -/
def itemStrings : List JVal → List Bytes
  | [] => []
  | v :: vs => v.strings ++ itemStrings vs

/-- The strings and names of some members. -/
def memberStrings : List (Bytes × JVal) → List Bytes
  | [] => []
  | (k, v) :: xs => k :: (v.strings ++ memberStrings xs)

end

theorem mem_itemStrings {vs : List JVal} : s ∈ itemStrings vs ↔ ∃ v ∈ vs, s ∈ v.strings := by
  induction vs with
  | nil => simp [itemStrings]
  | cons v vs ih => simp [itemStrings, ih]

variable {xs : List (Bytes × JVal)}

theorem mem_memberStrings : s ∈ memberStrings xs ↔ ∃ x ∈ xs, s = x.1 ∨ s ∈ x.2.strings := by
  induction xs with
  | nil => simp [memberStrings]
  | cons x xs ih => simp [memberStrings, ih, or_assoc]

/-! ## Strings and names of a tree that a policy keeps -/

mutual

/-- The strings and names that the value of a tree is made of. Of members with one name, they are
those of the member whose value the policy keeps. -/
def Cst.kept (policy : DuplicateKeyPolicy) : Cst → List StrTok
  | .str t => [t]
  | .arr ts => itemsKept policy ts
  | .obj ms => (foldMembers policy (membersKept policy ms)).flatMap Prod.snd
  | _ => []

/-- The strings and names of some items that are kept. -/
def itemsKept (policy : DuplicateKeyPolicy) : List Cst → List StrTok
  | [] => []
  | t :: ts => t.kept policy ++ itemsKept policy ts

/-- Each member's decoded name, with the strings and names that are kept if the member is. -/
def membersKept (policy : DuplicateKeyPolicy) : List (StrTok × Cst) → List (Bytes × List StrTok)
  | [] => []
  | (k, t) :: ms => (k.dec, k :: t.kept policy) :: membersKept policy ms

end

variable {policy : DuplicateKeyPolicy}

theorem mem_itemsKept : k ∈ itemsKept policy ts ↔ ∃ t ∈ ts, k ∈ t.kept policy := by
  induction ts with
  | nil => simp [itemsKept]
  | cons t ts ih => simp [itemsKept, ih]

/-- The members by their decoded names. -/
def byName (ms : List (StrTok × Cst)) : List (Bytes × StrTok × Cst) := ms.map fun m => (m.1.dec, m)

theorem memberValues_eq_byName (policy : DuplicateKeyPolicy) (ms : List (StrTok × Cst)) :
    memberValues policy ms = (byName ms).map (Prod.map id fun m => m.2.value policy) := by
  induction ms with
  | nil => rfl
  | cons m ms ih => rw [memberValues, ih, byName, byName, List.map_cons, List.map_cons]; rfl

theorem membersKept_eq_byName (policy : DuplicateKeyPolicy) (ms : List (StrTok × Cst)) :
    membersKept policy ms =
      (byName ms).map (Prod.map id fun m => m.1 :: m.2.kept policy) := by
  induction ms with
  | nil => rfl
  | cons m ms ih => rw [membersKept, ih, byName, byName, List.map_cons, List.map_cons]; rfl

/-- Folding members makes none up. -/
theorem mem_foldMembers {ν : Type} {x : Bytes × ν} {xs : List (Bytes × ν)}
    (h : x ∈ foldMembers policy xs) : x ∈ xs := by
  cases policy with
  | reject => simpa using h
  | lastWins => exact Core.mem_foldLast h
  | firstWins => exact Core.mem_foldFirst h

theorem mem_foldMembers_byName {x : Bytes × StrTok × Cst}
    (h : x ∈ foldMembers policy (byName ms)) : x.2 ∈ ms ∧ x.1 = x.2.1.dec := by
  obtain ⟨m, hm, rfl⟩ := List.mem_map.mp (mem_foldMembers h)
  exact ⟨hm, rfl⟩

theorem mem_kept_obj : k ∈ (Cst.obj ms).kept policy ↔
    ∃ x ∈ foldMembers policy (byName ms), k = x.2.1 ∨ k ∈ x.2.2.kept policy := by
  rw [Cst.kept, membersKept_eq_byName, foldMembers_map]
  simp

/-- The strings and names of the value of a tree are decoded from those that are kept. -/
theorem Cst.mem_strings_value (policy : DuplicateKeyPolicy) (t : Cst) :
    s ∈ (t.value policy).strings ↔ ∃ k ∈ t.kept policy, k.dec = s := by
  induction t using Cst.induction generalizing s with
  | null | bool b | num l => simp [Cst.value, JVal.strings, Cst.kept]
  | str t => simp [Cst.value, JVal.strings, Cst.kept, eq_comm]
  | arr ts ih =>
    rw [Cst.value, itemValues_eq_map, JVal.strings, mem_itemStrings, Cst.kept]
    simp only [List.mem_map, mem_itemsKept]
    constructor
    · rintro ⟨_, ⟨t, ht, rfl⟩, hs⟩
      obtain ⟨k, hk, rfl⟩ := (ih t ht).mp hs
      exact ⟨k, ⟨t, ht, hk⟩, rfl⟩
    · rintro ⟨k, ⟨t, ht, hk⟩, rfl⟩
      exact ⟨_, ⟨t, ht, rfl⟩, (ih t ht).mpr ⟨k, hk, rfl⟩⟩
  | obj ms ih =>
    rw [Cst.value, memberValues_eq_byName, foldMembers_map, JVal.strings, mem_memberStrings]
    simp only [List.mem_map, mem_kept_obj]
    constructor
    · rintro ⟨_, ⟨x, hx, rfl⟩, hs⟩
      obtain ⟨hm, hname⟩ := mem_foldMembers_byName hx
      obtain rfl | hs := hs
      · exact ⟨x.2.1, ⟨x, hx, .inl rfl⟩, hname.symm⟩
      · obtain ⟨k, hk, rfl⟩ := (ih x.2 hm).mp hs
        exact ⟨k, ⟨x, hx, .inr hk⟩, rfl⟩
    · rintro ⟨k, ⟨x, hx, hk⟩, rfl⟩
      obtain ⟨hm, hname⟩ := mem_foldMembers_byName hx
      refine ⟨_, ⟨x, hx, rfl⟩, ?_⟩
      obtain rfl | hk := hk
      · exact .inl hname.symm
      · exact .inr ((ih x.2 hm).mpr ⟨k, hk, rfl⟩)

/-- What is kept of a tree that can be written can be written. -/
theorem Cst.Written.kept (policy : DuplicateKeyPolicy) (h : t.Written) :
    ∀ k ∈ t.kept policy, k.Written := by
  induction h with
  | null | bool b | num _ => simp [Cst.kept]
  | str h => simpa [Cst.kept] using h
  | arr _ ih =>
    intro k hk
    obtain ⟨t, ht, hkt⟩ := mem_itemsKept.mp hk
    exact ih t ht k hkt
  | obj hnames _ ih =>
    intro k hk
    obtain ⟨x, hx, hk⟩ := mem_kept_obj.mp hk
    have hm := (mem_foldMembers_byName hx).1
    obtain rfl | hk := hk
    · exact hnames x.2 hm
    · exact ih x.2 hm k hk

end Conflux.Json
