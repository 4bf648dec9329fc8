import Conflux.Core.Numerals
import Conflux.Dns.Codec

/-!
# Encoding DNS queries

`encodeQuery` writes a header, one question and, if asked for, an option record. A valid
hostname is a row of labels with dots between them and perhaps one behind; its encoding is the
labels with their lengths in front.
-/

namespace Conflux.Dns

open Conflux.Core List QClass

/-- Whether the request asked for recursion. -/
def Header.rd (h : Header) : Bool := h.flags &&& 0x0100 != 0

/-! ## Hostnames -/

/-- The loop over the characters of a hostname. -/
def labelsValid : Bytes → Nat → Bool
  | [], labelLen => 0 < labelLen
  | c :: cs, labelLen =>
    if c = 0 then false
    else if c = 0x2E then if labelLen = 0 then false else labelsValid cs 0
    else if 63 < labelLen + 1 then false
    else labelsValid cs (labelLen + 1)

/-- A name without the dot behind it. -/
def trimDot (name : Bytes) : Bytes :=
  if name.getLast? = some 0x2E then name.dropLast else name

/-- A name of labels, of at most 253 bytes without its trailing dot. -/
def isValidHostname (name : Bytes) : Bool :=
  if name.isEmpty then false
  else
    let trimmed := trimDot name
    if trimmed.isEmpty || 253 < trimmed.length then false else labelsValid trimmed 0

/-! ## Encoding -/

/-- Options of the extension record. -/
structure Edns0Options where
  udpSize : UInt16 := 4096
  extRcode : UInt8 := 0
  version : UInt8 := 0
  flags : UInt16 := 0
  deriving DecidableEq, Repr

/-- Write 16 bits. -/
def writeU16 (v : UInt16) : Bytes := bytesOfU16 v

/-- Write 32 bits. -/
def writeU32 (v : UInt32) : Bytes := bytesOfU32 v

/-- How far a name has been encoded. -/
structure QnameState where
  pos : Nat := 0
  out : Bytes := []
  deriving DecidableEq, Repr

/-- A name as the text of a message. -/
def nameText (name : Bytes) : String := String.ofList (name.map fun c => Char.ofNat c.toNat)

/-- One round of encoding a name: a label with its length in front. -/
def qnameTurn (qname : Bytes) (s : QnameState) : Turn QnameState (Except DnsError Bytes) :=
  if s.pos < qname.length then
    let dot := (qname.drop s.pos).findIdx? (· == 0x2E)
    let len := dot.getD (qname.length - s.pos)
    if len = 0 then .done (.ok s.out)
    else if 63 < len then
      let text := nameText qname
      .done (.error { kind := .invalidHostname,
                      message := s!"encode_query: label > 63 bytes in '{text}'" })
    else
      .again { pos := s.pos + len + if dot.isSome then 1 else 0
               out := s.out ++ UInt8.ofNat len :: (qname.drop s.pos).take len }
  else .done (.ok s.out)

/-- The labels of a name with their lengths in front. -/
def encodeLabels (qname : Bytes) : Except DnsError Bytes :=
  (loop (qnameTurn qname) (qname.length + 1) {}).getD (.ok [])

/-- The name of a question: labels and the root. -/
def encodeName (qname : Bytes) : Except DnsError Bytes := do
  let labels ← encodeLabels qname
  return labels ++ [0]

/-- Type of the extension record. -/
def QType.opt : QType := 41

/-- The time to live of the extension record carries its other fields. -/
def Edns0Options.ttl (edns : Edns0Options) : UInt32 :=
  edns.extRcode.toUInt32 <<< 24 ||| edns.version.toUInt32 <<< 16 ||| edns.flags.toUInt32

/-- The extension record. -/
def encodeOpt (edns : Edns0Options) : Bytes :=
  0 :: (writeU16 QType.opt ++ writeU16 edns.udpSize ++ writeU32 edns.ttl ++ writeU16 0)

/-- The additional records. -/
def encodeAdditional : Option Edns0Options → Bytes
  | some edns => encodeOpt edns
  | none => []

/-- A query with one question and recursion desired. -/
def encodeQuery (id : UInt16) (qname : Bytes) (qtype : QType) (edns : Option Edns0Options) :
    Except DnsError Bytes := do
  let name ← encodeName qname
  return writeU16 id ++ writeU16 0x0100 ++ writeU16 1 ++ writeU16 0 ++ writeU16 0 ++
    writeU16 (if edns.isSome then 1 else 0) ++ name ++ writeU16 qtype ++ writeU16 in_ ++
    encodeAdditional edns

/-! ## Rows of labels -/

/-- A label that can be encoded. -/
structure GoodLabel (label : Bytes) : Prop where
  pos : 0 < label.length
  short : label.length ≤ 63
  dotless : 0x2E ∉ label

/-- Labels with dots between them. -/
def joinLabels (first : Bytes) (rest : List Bytes) : Bytes := first ++ rest.flatMap (0x2E :: ·)

/-- A label with its length in front. -/
def wireLabel (label : Bytes) : Bytes := UInt8.ofNat label.length :: label

/-- The rest of a label and the labels behind it. -/
theorem exists_labels {cs : Bytes} {labelLen : Nat} (h : labelsValid cs labelLen = true) :
    ∃ first rest, cs = joinLabels first rest ∧ 0 < labelLen + first.length ∧
      (labelLen ≤ 63 → labelLen + first.length ≤ 63) ∧ 0x2E ∉ first ∧
      ∀ label ∈ rest, GoodLabel label := by
  induction cs generalizing labelLen with
  | nil =>
    refine ⟨[], [], rfl, ?_, id, not_mem_nil, fun _ hl => by cases hl⟩
    simpa [labelsValid] using h
  | cons c cs ih =>
    rw [labelsValid] at h
    split at h
    · cases h
    split at h
    · rename_i hdot
      split at h
      · cases h
      rename_i hlen
      obtain ⟨first, rest, rfl, hpos, hshort, hdotless, hrest⟩ := ih h
      rw [Nat.zero_add] at hpos hshort
      exact ⟨[], first :: rest, by rw [hdot]; rfl, by rw [length_nil]; omega, id, not_mem_nil,
        forall_mem_cons.mpr ⟨⟨hpos, hshort (Nat.zero_le _), hdotless⟩, hrest⟩⟩
    rename_i hdot
    split at h
    · cases h
    rename_i hlen
    obtain ⟨first, rest, rfl, hpos, hshort, hdotless, hrest⟩ := ih h
    refine ⟨c :: first, rest, rfl, ?_, ?_, ?_, hrest⟩
    · rw [length_cons]
      omega
    · intro _
      have hshort' := hshort (by omega)
      rw [length_cons]
      omega
    · rw [mem_cons, not_or]
      exact ⟨fun heq => hdot heq.symm, hdotless⟩

variable {name qname first : Bytes} {rest : List Bytes}

/-- A valid hostname is a row of labels, perhaps with a dot behind it. -/
theorem exists_labels_of_valid (h : isValidHostname name = true) :
    ∃ first rest, trimDot name = joinLabels first rest ∧
      (name = joinLabels first rest ∨ name = joinLabels first rest ++ [0x2E]) ∧
      (joinLabels first rest).length ≤ 253 ∧ ∀ label ∈ first :: rest, GoodLabel label := by
  rw [isValidHostname] at h
  split at h
  · cases h
  dsimp only at h
  split at h
  · cases h
  rename_i hshort
  rw [Bool.or_eq_true, not_or, decide_eq_true_eq] at hshort
  obtain ⟨first, rest, hjoin, hpos, hfirst, hdotless, hrest⟩ := exists_labels h
  rw [Nat.zero_add] at hpos hfirst
  rw [hjoin] at hshort
  refine ⟨first, rest, hjoin, ?_, by omega, ?_⟩
  · rw [trimDot] at hjoin
    split at hjoin
    · rename_i hlast
      right
      rw [← hjoin]
      exact (dropLast_append_getLast? 0x2E hlast).symm
    · exact .inl hjoin
  · exact forall_mem_cons.mpr ⟨⟨hpos, hfirst (Nat.zero_le _), hdotless⟩, hrest⟩

/-! ## The encoded name -/

theorem encodeLabels_ends (qname : Bytes) : Ends (qnameTurn qname) {} (encodeLabels qname) := by
  have hstep : ∀ s s', True → qnameTurn qname s = .again s' →
      True ∧ qname.length - s'.pos < qname.length - s.pos := by
    intro s s' _ hturn
    rw [qnameTurn] at hturn
    split at hturn
    · rename_i hlt
      dsimp only at hturn
      split at hturn
      · cases hturn
      rename_i hlen
      split at hturn
      · cases hturn
      cases hturn
      refine ⟨trivial, ?_⟩
      dsimp only
      omega
    · cases hturn
  obtain ⟨r, hloop⟩ := exists_loop_eq hstep trivial
    (show qname.length - ({} : QnameState).pos < qname.length + 1 by omega)
  rw [encodeLabels, hloop]
  exact ends_of_loop hloop

variable {s : QnameState} {label : Bytes}

/-- A label in front of a dot is encoded, and the round goes on behind the dot. -/
theorem qnameTurn_dot {rest : Bytes} (hlabel : GoodLabel label)
    (hdrop : qname.drop s.pos = label ++ 0x2E :: rest) :
    qnameTurn qname s =
      .again { pos := s.pos + label.length + 1, out := s.out ++ wireLabel label } := by
  have hlength := congrArg List.length hdrop
  rw [length_drop, length_append, length_cons] at hlength
  have hfind : (qname.drop s.pos).findIdx? (· == 0x2E) = some label.length := by
    rw [hdrop, List.findIdx?_append, List.findIdx?_eq_none_iff.mpr]
    · simp [List.findIdx?_cons]
    · intro c hc
      exact beq_false_of_ne fun heq => hlabel.dotless (heq ▸ hc)
  have hpos := hlabel.pos
  have hshort := hlabel.short
  rw [qnameTurn, if_pos (by omega), hfind]
  dsimp only [Option.getD_some]
  rw [if_neg (by omega), if_neg (by omega), hdrop, take_left]
  rfl

/-- The label at the end is encoded. -/
theorem qnameTurn_last (hlabel : GoodLabel label) (hdrop : qname.drop s.pos = label) :
    qnameTurn qname s =
      .again { pos := s.pos + label.length, out := s.out ++ wireLabel label } := by
  have hlength := congrArg List.length hdrop
  rw [length_drop] at hlength
  have hfind : (qname.drop s.pos).findIdx? (· == 0x2E) = none := by
    rw [hdrop, List.findIdx?_eq_none_iff]
    intro c hc
    exact beq_false_of_ne fun heq => hlabel.dotless (heq ▸ hc)
  have hpos := hlabel.pos
  have hshort := hlabel.short
  rw [qnameTurn, if_pos (by omega), hfind]
  dsimp only [Option.getD_none]
  rw [hlength, if_neg (by omega), if_neg (by omega), hdrop, take_length]
  rfl

theorem qnameTurn_end (h : qname.length ≤ s.pos) : qnameTurn qname s = .done (.ok s.out) := by
  rw [qnameTurn, if_neg (by omega)]

/-- From a place on, the labels that stand there are encoded one after the other. -/
theorem ends_qnameTurn (hgood : ∀ label ∈ first :: rest, GoodLabel label)
    (hdrop : qname.drop s.pos = joinLabels first rest ∨
      qname.drop s.pos = joinLabels first rest ++ [0x2E]) :
    Ends (qnameTurn qname) s (.ok (s.out ++ (first :: rest).flatMap wireLabel)) := by
  induction rest generalizing first s with
  | nil =>
    have hfirst := hgood first mem_cons_self
    have hout : s.out ++ [first].flatMap wireLabel = s.out ++ wireLabel first := by simp
    have hjoin : joinLabels first [] = first := by simp [joinLabels]
    rw [hjoin] at hdrop
    rw [hout]
    rcases hdrop with hdrop | hdrop
    · have hlength := congrArg List.length hdrop
      rw [length_drop] at hlength
      refine .again (qnameTurn_last hfirst hdrop) (.done (qnameTurn_end ?_))
      dsimp only
      omega
    have hlength := congrArg List.length hdrop
    rw [length_drop, length_append, length_singleton] at hlength
    refine .again (qnameTurn_dot hfirst hdrop) (.done (qnameTurn_end ?_))
    dsimp only
    omega
  | cons label rest ih =>
    have hfirst := hgood first mem_cons_self
    have hjoin : joinLabels first (label :: rest) = first ++ 0x2E :: joinLabels label rest := by
      simp [joinLabels]
    have hrest : ∀ tail, qname.drop s.pos = first ++ 0x2E :: tail →
        qname.drop (s.pos + first.length + 1) = tail := by
      intro tail htail
      rw [add_assoc, ← drop_drop, htail]
      simp
    have hgood' : ∀ l ∈ label :: rest, GoodLabel l := fun l hl =>
      hgood l (mem_cons_of_mem _ hl)
    have hturn : ∃ tail, qname.drop s.pos = first ++ 0x2E :: tail ∧
        (tail = joinLabels label rest ∨ tail = joinLabels label rest ++ [0x2E]) := by
      rw [hjoin] at hdrop
      rcases hdrop with hdrop | hdrop
      · exact ⟨_, hdrop, .inl rfl⟩
      · exact ⟨joinLabels label rest ++ [0x2E], by rw [hdrop]; simp, .inr rfl⟩
    obtain ⟨tail, htail, hcases⟩ := hturn
    have hnext := ih (s := { pos := s.pos + first.length + 1, out := s.out ++ wireLabel first })
      hgood' (by rw [hrest tail htail]; exact hcases)
    have hout : s.out ++ (first :: label :: rest).flatMap wireLabel =
        s.out ++ wireLabel first ++ (label :: rest).flatMap wireLabel := by simp
    rw [hout]
    exact .again (qnameTurn_dot hfirst htail) hnext

/-- The encoded name of a row of labels. -/
theorem encodeName_eq (hgood : ∀ label ∈ first :: rest, GoodLabel label)
    (hname : qname = joinLabels first rest ∨ qname = joinLabels first rest ++ [0x2E]) :
    encodeName qname = .ok ((first :: rest).flatMap wireLabel ++ [0]) := by
  have hends := ends_qnameTurn (s := {}) hgood hname
  rw [nil_append] at hends
  rw [encodeName, (encodeLabels_ends qname).unique hends]
  rfl

theorem length_flatMap_wireLabel (first : Bytes) (rest : List Bytes) :
    ((first :: rest).flatMap wireLabel).length = (joinLabels first rest).length + 1 := by
  induction rest generalizing first with
  | nil => simp [wireLabel, joinLabels]
  | cons label rest ih =>
    have hrest := ih label
    simp only [flatMap_cons, length_append, wireLabel, length_cons, joinLabels] at hrest ⊢
    omega

/-! ## Decoding what was encoded -/

section

variable {wire rest first behind : Bytes} {pos i offset : Nat}

theorem getElem?_of_drop {c : UInt8} (h : wire.drop i = c :: rest) : wire[i]? = some c := by
  have hzero : (wire.drop i)[0]? = some c := by rw [h]; rfl
  rwa [List.getElem?_drop, add_zero] at hzero

theorem drop_of_drop (front : Bytes) (h : wire.drop i = front ++ rest) :
    wire.drop (i + front.length) = rest := by
  rw [← drop_drop, h, drop_left]

theorem readU16_of_drop {v : UInt16} (h : wire.drop i = writeU16 v ++ rest) :
    readU16 wire i = .ok v := by
  have hlo : wire.drop (i + 1) = (v &&& 0xFF).toUInt8 :: rest :=
    drop_of_drop [(v >>> 8).toUInt8] h
  rw [readU16, getElem?_of_drop h, getElem?_of_drop hlo]
  exact congrArg Except.ok (u16OfBytes_split v)

theorem readU32_of_drop {v : UInt32} (h : wire.drop i = writeU32 v ++ rest) :
    readU32 wire i = .ok v := by
  have hb : wire.drop (i + 1) = ((v >>> 16) &&& 0xFF).toUInt8 :: ((v >>> 8) &&& 0xFF).toUInt8 ::
      (v &&& 0xFF).toUInt8 :: rest := drop_of_drop [_] h
  have hc : wire.drop (i + 2) = ((v >>> 8) &&& 0xFF).toUInt8 :: (v &&& 0xFF).toUInt8 :: rest :=
    drop_of_drop [_, _] h
  have hd : wire.drop (i + 3) = (v &&& 0xFF).toUInt8 :: rest := drop_of_drop [_, _, _] h
  rw [readU32, getElem?_of_drop h, getElem?_of_drop hb, getElem?_of_drop hc, getElem?_of_drop hd]
  exact congrArg Except.ok (u32OfBytes_split v)

/-- Lengths of labels have no flags. -/
theorem length_byte {n : Nat} (hpos : 0 < n) (hshort : n ≤ 63) :
    UInt8.ofNat n ≠ 0 ∧ UInt8.ofNat n &&& 0xC0 ≠ 0xC0 ∧ UInt8.ofNat n &&& 0xC0 = 0 ∧
      (UInt8.ofNat n).toNat = n := by
  have hall : ∀ n < 64, 0 < n → UInt8.ofNat n ≠ 0 ∧ UInt8.ofNat n &&& 0xC0 ≠ 0xC0 ∧
      UInt8.ofNat n &&& 0xC0 = 0 ∧ (UInt8.ofNat n).toNat = n := by decide
  exact hall n (by omega) hpos

/-- What is read so far, with one more label. -/
def appendLabel (out label : Bytes) : Bytes :=
  if out.isEmpty then label.map asciiLower else out ++ 0x2E :: label.map asciiLower

theorem nameTurn_label {s : NameState} (hlabel : GoodLabel label)
    (hdrop : wire.drop s.cursor = wireLabel label ++ rest)
    (hshort : (appendLabel s.out label).length ≤ 253) :
    nameTurn wire offset s =
      .again { s with out := appendLabel s.out label, cursor := s.cursor + 1 + label.length } := by
  obtain ⟨hne, hnot, hplain, htoNat⟩ := length_byte hlabel.pos hlabel.short
  have hlength := congrArg List.length hdrop
  rw [length_drop, wireLabel, cons_append, length_cons, length_append] at hlength
  have hbehind : wire.drop (s.cursor + 1) = label ++ rest := drop_of_drop [_] hdrop
  have hbytes : (wire.drop (s.cursor + 1)).take label.length = label := by
    rw [hbehind, take_left]
  rw [nameTurn, getElem?_of_drop hdrop]
  dsimp only
  rw [if_neg hne, if_neg hnot, if_neg (not_not.mpr hplain), htoNat, if_neg (by omega), hbytes]
  exact if_neg (Nat.not_lt.mpr hshort)

theorem nameTurn_root {s : NameState} (hdrop : wire.drop s.cursor = 0 :: rest)
    (hpointer : s.followedPointer = false) :
    nameTurn wire offset s = .done (.ok (s.out, s.cursor + 1 - offset)) := by
  rw [nameTurn, getElem?_of_drop hdrop]
  simp [hpointer]

theorem length_le_foldl_appendLabel (out : Bytes) (labels : List Bytes) :
    out.length ≤ (labels.foldl appendLabel out).length := by
  induction labels generalizing out with
  | nil => exact Nat.le_refl _
  | cons label labels ih =>
    refine Nat.le_trans ?_ (ih (appendLabel out label))
    rw [appendLabel]
    split
    · rename_i hempty
      rw [List.isEmpty_iff.mp hempty]
      exact Nat.zero_le _
    · rw [length_append]
      exact Nat.le_add_right _ _

/-- Labels that stand at the cursor are read one after the other. -/
theorem ends_nameTurn {labels : List Bytes} {s : NameState}
    (hgood : ∀ label ∈ labels, GoodLabel label)
    (hdrop : wire.drop s.cursor = labels.flatMap wireLabel ++ 0 :: rest)
    (hpointer : s.followedPointer = false)
    (hshort : (labels.foldl appendLabel s.out).length ≤ 253) :
    Ends (nameTurn wire offset) s (.ok (labels.foldl appendLabel s.out,
      s.cursor + (labels.flatMap wireLabel).length + 1 - offset)) := by
  induction labels generalizing s with
  | nil => exact .done (nameTurn_root hdrop hpointer)
  | cons label labels ih =>
    obtain ⟨hlabel, hlabels⟩ := forall_mem_cons.mp hgood
    rw [flatMap_cons, append_assoc] at hdrop
    have hlength : (wireLabel label).length = 1 + label.length := by
      rw [wireLabel, length_cons, add_comm]
    have hturn : nameTurn wire offset s = .again { s with
        out := appendLabel s.out label
        cursor := s.cursor + 1 + label.length } :=
      nameTurn_label hlabel hdrop
        (le_trans (length_le_foldl_appendLabel _ labels) hshort)
    have hnext := drop_of_drop (wireLabel label) hdrop
    rw [hlength, ← add_assoc] at hnext
    have hrest := ih (s := { s with out := appendLabel s.out label
                                    cursor := s.cursor + 1 + label.length })
      hlabels hnext hpointer hshort
    have hsum : s.cursor + ((label :: labels).flatMap wireLabel).length + 1 - offset =
        s.cursor + 1 + label.length + (labels.flatMap wireLabel).length + 1 - offset := by
      rw [flatMap_cons, length_append, hlength]
      omega
    rw [hsum]
    exact .again hturn hrest

/-- A row of labels is read back as the name they spell, in lower case. -/
theorem foldl_appendLabel (first : Bytes) (rest : List Bytes)
    (hgood : ∀ label ∈ first :: rest, GoodLabel label) :
    (first :: rest).foldl appendLabel [] = (joinLabels first rest).map asciiLower := by
  have happend : ∀ (labels : List Bytes) (out : Bytes), out ≠ [] →
      labels.foldl appendLabel out = out ++ (labels.flatMap (0x2E :: ·)).map asciiLower := by
    intro labels
    induction labels with
    | nil => intro out _; simp
    | cons label labels ih =>
      intro out hout
      have hstep : appendLabel out label = out ++ 0x2E :: label.map asciiLower := by
        simp [appendLabel, hout]
      rw [foldl_cons, hstep, ih _ (by simp)]
      have hdot : asciiLower 0x2E = 0x2E := by decide
      simp [hdot]
  have hfirst : first.map asciiLower ≠ [] := by
    intro hnil
    have hpos := (hgood first mem_cons_self).pos
    rw [map_eq_nil_iff.mp hnil] at hpos
    exact lt_irrefl 0 hpos
  have hstart : appendLabel [] first = first.map asciiLower := by simp [appendLabel]
  rw [foldl_cons, hstart, happend rest _ hfirst, joinLabels, map_append]

/-- The name at an offset where a row of labels was encoded. -/
theorem decodeName_of_drop {rest : List Bytes} (hgood : ∀ label ∈ first :: rest, GoodLabel label)
    (hshort : (joinLabels first rest).length ≤ 253)
    (hdrop : wire.drop offset = (first :: rest).flatMap wireLabel ++ 0 :: behind) :
    decodeName wire offset = .ok ((joinLabels first rest).map asciiLower,
      ((first :: rest).flatMap wireLabel ++ [0]).length) := by
  have hfold := foldl_appendLabel first rest hgood
  have hends : Ends (nameTurn wire offset) { cursor := offset }
      (.ok ((first :: rest).foldl appendLabel [],
        offset + ((first :: rest).flatMap wireLabel).length + 1 - offset)) :=
    ends_nameTurn hgood hdrop rfl (by rw [hfold, length_map]; exact hshort)
  have hlength : offset + ((first :: rest).flatMap wireLabel).length + 1 - offset =
      ((first :: rest).flatMap wireLabel ++ [0]).length := by
    rw [length_append, length_singleton]
    omega
  rw [(decodeName_ends wire offset).unique hends, hfold, hlength]

theorem decodeName_root (hdrop : wire.drop offset = 0 :: behind) :
    decodeName wire offset = .ok ([], 1) := by
  have hturn : nameTurn wire offset { cursor := offset } = .done (.ok ([], offset + 1 - offset)) :=
    nameTurn_root hdrop rfl
  rw [Nat.add_sub_cancel_left] at hturn
  exact (decodeName_ends wire offset).unique (.done hturn)

theorem ok_bind {α β : Type} (a : α) (f : α → Except DnsError β) :
    (Except.ok a >>= f : Except DnsError β) = f a := rfl

theorem readQuestion_of_drop {rest : List Bytes} {qtype : QType} {qclass : QClass}
    (hgood : ∀ label ∈ first :: rest, GoodLabel label)
    (hshort : (joinLabels first rest).length ≤ 253)
    (hdrop : wire.drop pos = ((first :: rest).flatMap wireLabel ++ [0]) ++
      (writeU16 qtype ++ (writeU16 qclass ++ behind))) :
    ∃ pos', readQuestion wire pos = .ok ({ name := (joinLabels first rest).map asciiLower,
                                           qtype := qtype, qclass := qclass }, pos') ∧
      wire.drop pos' = behind := by
  have hname := decodeName_of_drop hgood hshort (by rw [hdrop, append_assoc, singleton_append])
  have hqtype := drop_of_drop _ hdrop
  have hqclass : wire.drop (pos + _ + 2) = writeU16 qclass ++ behind :=
    drop_of_drop (writeU16 qtype) hqtype
  refine ⟨pos + ((first :: rest).flatMap wireLabel ++ [0]).length + 4, ?_, ?_⟩
  · simp only [readQuestion, hname, ok_bind, readU16_of_drop hqtype, readU16_of_drop hqclass]
    rfl
  · exact drop_of_drop (writeU16 qclass) hqclass

/-- The extension record as it is decoded. -/
def Edns0Options.record (edns : Edns0Options) : ResourceRecord where
  name := []
  type := QType.opt
  rclass := edns.udpSize
  ttl := edns.ttl
  rdata := []

theorem readRr_of_drop {edns : Edns0Options} (hdrop : wire.drop pos = encodeOpt edns) :
    ∃ pos', readRr wire pos = .ok (edns.record, pos') := by
  have htype : wire.drop (pos + 1) = writeU16 QType.opt ++
      (writeU16 edns.udpSize ++ (writeU32 edns.ttl ++ (writeU16 0 ++ []))) :=
    drop_of_drop [0] hdrop
  have hclass : wire.drop (pos + 1 + 2) = _ := drop_of_drop (writeU16 QType.opt) htype
  have httl : wire.drop (pos + 1 + 4) = _ := drop_of_drop (writeU16 edns.udpSize) hclass
  have hrdlen : wire.drop (pos + 1 + 8) = _ := drop_of_drop (writeU32 edns.ttl) httl
  have hend : wire.drop (pos + 1 + 10) = [] := drop_of_drop (writeU16 0) hrdlen
  have hlength := congrArg List.length hdrop
  rw [length_drop] at hlength
  change wire.length - pos = 11 at hlength
  refine ⟨pos + 1 + 10 + 0, ?_⟩
  simp only [readRr, decodeName_root hdrop, ok_bind, readU16_of_drop htype,
    readU16_of_drop hclass, readU32_of_drop httl, readU16_of_drop hrdlen]
  change (if wire.length < pos + 1 + 10 + 0 then _ else _) = _
  rw [if_neg (by omega)]
  rfl

end

/-! ## The round trip -/

/-- The bytes of a query for a row of labels. -/
def queryBytes (id : UInt16) (name : Bytes) (qtype : QType) (edns : Option Edns0Options) : Bytes :=
  writeU16 id ++ (writeU16 0x0100 ++ (writeU16 1 ++ (writeU16 0 ++ (writeU16 0 ++
    (writeU16 (if edns.isSome then 1 else 0) ++ (name ++ (writeU16 qtype ++
      (writeU16 in_ ++ encodeAdditional edns))))))))

theorem encodeQuery_eq (h : encodeName qname = .ok name) (id : UInt16) (qtype : QType)
    (edns : Option Edns0Options) :
    encodeQuery id qname qtype edns = .ok (queryBytes id name qtype edns) := by
  rw [encodeQuery, h, queryBytes]
  simp only [ok_bind, append_assoc]
  rfl

/-- The records behind the question. -/
theorem appendGenerated_additional {wire : Bytes} {pos : Nat} {edns : Option Edns0Options}
    (hdrop : wire.drop pos = encodeAdditional edns) :
    ∃ pos', appendGenerated (readRr wire)
      (if edns.isSome then (1 : UInt16) else 0).toNat pos =
        .ok ((edns.map Edns0Options.record).toList, pos') := by
  cases edns with
  | none => exact ⟨pos, rfl⟩
  | some edns =>
    obtain ⟨pos', hread⟩ := readRr_of_drop hdrop
    refine ⟨pos', ?_⟩
    change appendGenerated (readRr wire) 1 pos = _
    simp only [appendGenerated, hread, ok_bind]
    rfl

theorem decodeMessage_queryBytes (hgood : ∀ label ∈ first :: rest, GoodLabel label)
    (hshort : (joinLabels first rest).length ≤ 253) (id : UInt16) (qtype : QType)
    (edns : Option Edns0Options) :
    decodeMessage (queryBytes id ((first :: rest).flatMap wireLabel ++ [0]) qtype edns) =
      .ok { header := { id := id, flags := 0x0100, qdcount := 1, ancount := 0, nscount := 0,
                        arcount := if edns.isSome then 1 else 0 }
            questions := [{ name := (joinLabels first rest).map asciiLower, qtype := qtype,
                            qclass := in_ }]
            answers := []
            authority := []
            additional := (edns.map Edns0Options.record).toList } := by
  set wire := queryBytes id ((first :: rest).flatMap wireLabel ++ [0]) qtype edns with hwire
  have hid : wire.drop 0 = writeU16 id ++ _ := hwire
  have hflags : wire.drop 2 = writeU16 0x0100 ++ _ := drop_of_drop (writeU16 id) hid
  have hqd : wire.drop 4 = writeU16 1 ++ _ := drop_of_drop (writeU16 0x0100) hflags
  have han : wire.drop 6 = writeU16 0 ++ _ := drop_of_drop (writeU16 1) hqd
  have hns : wire.drop 8 = writeU16 0 ++ _ := drop_of_drop (writeU16 0) han
  have har : wire.drop 10 = writeU16 (if edns.isSome then 1 else 0) ++ _ :=
    drop_of_drop (writeU16 0) hns
  have hname : wire.drop 12 = _ := drop_of_drop (writeU16 _) har
  have hlength : ¬ wire.length < 12 := by
    have hdropped := congrArg List.length hname
    rw [length_drop, length_append, length_append, length_singleton] at hdropped
    omega
  obtain ⟨pos, hquestion, hbehind⟩ := readQuestion_of_drop hgood hshort hname
  obtain ⟨pos', hadditional⟩ := appendGenerated_additional hbehind
  have hquestions : appendGenerated (readQuestion wire) (1 : UInt16).toNat 12 =
      .ok ([{ name := (joinLabels first rest).map asciiLower, qtype := qtype,
              qclass := in_ }], pos) := by
    change appendGenerated (readQuestion wire) 1 12 = _
    simp only [appendGenerated, hquestion, ok_bind]
    rfl
  have hnone : ∀ pos, appendGenerated (readRr wire) (0 : UInt16).toNat pos = .ok ([], pos) :=
    fun _ => rfl
  simp only [decodeMessage, if_neg hlength, readU16_of_drop hid, readU16_of_drop hflags,
    readU16_of_drop hqd, readU16_of_drop han, readU16_of_drop hns, readU16_of_drop har, ok_bind,
    hquestions, hnone, hadditional]
  rfl

/-- For every id, valid hostname, query type and options: encoding succeeds, the encoded name is a
row of labels of at most 63 bytes with a root, of at most 255 bytes, and decoding gives the id,
recursion desired, the one question with the lowercased name without its trailing dot, no answers,
and the option record as asked for. -/
theorem decodeMessage_encodeQuery (id : UInt16) (h : Bytes) (qtype : QType)
    (edns : Option Edns0Options) (hvalid : isValidHostname h = true) :
    ∃ wire msg, encodeQuery id h qtype edns = .ok wire ∧ decodeMessage wire = .ok msg ∧
      msg.header.id = id ∧ msg.header.rd = true ∧
      msg.questions = [{ name := (trimDot h).map asciiLower, qtype := qtype,
                         qclass := in_ }] ∧
      msg.answers = [] ∧ msg.authority = [] ∧
      msg.additional = (edns.map Edns0Options.record).toList ∧
      ∃ labels : List Bytes, encodeName h = .ok (labels.flatMap wireLabel ++ [0]) ∧
        (labels.flatMap wireLabel ++ [0]).length ≤ 255 ∧
        ∀ label ∈ labels, 0 < label.length ∧ label.length ≤ 63 := by
  obtain ⟨first, rest, htrim, hname, hshort, hgood⟩ := exists_labels_of_valid hvalid
  have hencode := encodeName_eq hgood hname
  have hrd : ((0x0100 : UInt16) &&& 0x0100 != 0) = true := by decide
  refine ⟨_, _, encodeQuery_eq hencode id qtype edns, decodeMessage_queryBytes hgood hshort id
    qtype edns, rfl, hrd, ?_, rfl, rfl, rfl, first :: rest, hencode, ?_, ?_⟩
  · rw [htrim]
  · have hlength := length_flatMap_wireLabel first rest
    rw [length_append, length_singleton]
    omega
  · intro label hlabel
    exact ⟨(hgood label hlabel).pos, (hgood label hlabel).short⟩

/-- `a.B.` with the default options. -/
theorem decodeMessage_encodeQuery_sample :
    isValidHostname [0x61, 0x2E, 0x42, 0x2E] = true ∧
      ∃ wire msg, encodeQuery 7 [0x61, 0x2E, 0x42, 0x2E] 28 (some {}) = .ok wire ∧
        decodeMessage wire = .ok msg ∧
        msg.questions = [{ name := [0x61, 0x2E, 0x62], qtype := 28, qclass := 1 }] := by
  refine ⟨by decide, ?_⟩
  obtain ⟨wire, msg, hencode, hdecode, -, -, hquestions, -⟩ :=
    decodeMessage_encodeQuery 7 [0x61, 0x2E, 0x42, 0x2E] 28 (some {}) (by decide)
  exact ⟨wire, msg, hencode, hdecode, hquestions⟩

end Conflux.Dns
