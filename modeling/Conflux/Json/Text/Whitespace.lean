import Conflux.Core.Scan
import Conflux.Json.Basic

/-!
# Cursors and whitespace

A cursor is the unread part of the input together with its location. Both front ends skip
whitespace with the same loop: blanks in strict mode, blanks and comments in JSON5 mode.
-/

namespace Conflux.Json

open Conflux.Core Ascii

/-- The unread input and where it starts. -/
structure Cur where
  /-- Location of the first unread byte. -/
  loc : Loc := {}
  /-- Unread bytes. -/
  rest : Bytes
  deriving DecidableEq, Repr

/-- Pass over `n` bytes of the current line. -/
def Cur.adv (c : Cur) (n : Nat := 1) : Cur := ⟨c.loc.adv n, c.rest.drop n⟩

@[simp] theorem Cur.adv_rest (c : Cur) (n : Nat) : (c.adv n).rest = c.rest.drop n := rfl
@[simp] theorem Cur.adv_loc (c : Cur) (n : Nat) : (c.adv n).loc = c.loc.adv n := rfl

/-- A failed scan: the error, and the cursor the scanner stopped at. -/
structure Fail where
  err : JsonError
  /-- Where the scanner stands. -/
  cur : Cur
  deriving DecidableEq, Repr

/-- Fail at the cursor. -/
def Cur.fail (c : Cur) (code : JsonIssueCode) (msg : String) : Fail := ⟨mkErr c.loc code msg, c⟩

/-- The four blanks of the grammar. -/
def isBlank (c : UInt8) : Bool :=
  c == space || c == tab || c == cr || c == lf

/-- What the whitespace loop is inside of. -/
inductive WsState where
  | blank
  | line
  | block (start : Loc)
  deriving DecidableEq, Repr

/-- The error of a block comment that is never closed, at its start. The cursor is left at the end
of the input. -/
def unterminatedComment (start loc : Loc) (rest : Bytes) : Fail :=
  ⟨mkErr start .unexpectedEof "unterminated block comment",
    ⟨{ loc with offset := loc.offset + rest.length }, []⟩⟩

/-- One step of the whitespace loop. -/
def wsStep (mode : ParseMode) (s : WsState × Loc) (a : UInt8) (l : Bytes) :
    ScanStep (WsState × Loc) (Except Fail Cur) :=
  match s.1 with
  | .blank =>
    if a = lf then .next (.blank, s.2.newline) 0
    else if isBlank a then .next (.blank, s.2.adv) 0
    else if mode = .json5 ∧ a = slash then
      if l.head? = some slash then .next (.line, s.2.adv 2) 1
      else if l.head? = some star then .next (.block s.2, s.2.adv 2) 1
      else .stop (.ok ⟨s.2, a :: l⟩)
    else .stop (.ok ⟨s.2, a :: l⟩)
  | .line =>
    -- The line feed itself is left to the blank loop, which counts the line.
    if a = lf then .next (.blank, s.2.newline) 0 else .next (.line, s.2.adv) 0
  | .block start =>
    match l with
    | [] => .stop (.error (unterminatedComment start s.2 [a]))
    | b :: _ =>
      if a = star ∧ b = slash then .next (.blank, s.2.adv 2) 1
      else if a = lf then .next (.block start, s.2.newline) 0
      else .next (.block start, s.2.adv) 0

/-- The end of the input inside the whitespace loop. -/
def wsDone (s : WsState × Loc) : Except Fail Cur :=
  match s.1 with
  | .block start => .error (unterminatedComment start s.2 [])
  | _ => .ok ⟨s.2, []⟩

/-- Skip whitespace, and comments in JSON5 mode. -/
def skipWs (mode : ParseMode) (c : Cur) : Except Fail Cur :=
  scan (wsStep mode) wsDone (.blank, c.loc) c.rest

/-- A byte the loop has stopped at: its successor state is the cursor itself. -/
def WsStop (mode : ParseMode) (c : Cur) : Prop :=
  ∀ a l, c.rest = a :: l → wsStep mode (.blank, c.loc) a l = .stop (.ok c)

variable {mode : ParseMode}

/-- Where the loop stops, another run of it stops at once. -/
theorem skipWs_of_stop {c : Cur} (h : WsStop mode c) : skipWs mode c = .ok c := by
  obtain ⟨loc, rest⟩ := c
  cases rest with
  | nil => rfl
  | cons a l => exact scan_cons_stop (h a l rfl)

private theorem scan_ws_stop {c : Cur} (s : WsState × Loc) (l : Bytes)
    (h : scan (wsStep mode) wsDone s l = .ok c) : WsStop mode c := by
  induction s, l using scan_induction (wsStep mode) with
  | nil s =>
    obtain ⟨st, loc⟩ := s
    cases st <;> simp [wsDone] at h <;> subst h <;> simp [WsStop]
  | stop s a l b hb =>
    rw [scan_cons_stop hb] at h
    subst h
    obtain ⟨st, loc⟩ := s
    cases st with
    | blank =>
      have hc : c = ⟨loc, a :: l⟩ := by
        unfold wsStep at hb
        grind
      subst hc
      rintro a' l' ⟨rfl, rfl⟩
      exact hb
    | line => simp [wsStep] at hb; grind
    | block start => unfold wsStep at hb; grind
  | next s a l s' n hs ih =>
    rw [scan_cons_next hs] at h
    exact ih h

/-- Skipped whitespace leaves nothing to skip. -/
theorem skipWs_idem {c c' : Cur} (h : skipWs mode c = .ok c') : skipWs mode c' = .ok c' :=
  skipWs_of_stop (scan_ws_stop _ _ h)

end Conflux.Json
