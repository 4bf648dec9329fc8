import Mathlib.Data.List.Induction
import Conflux.Http.Response.Model

/-!
# Deferred responses

A deferred response is filled in later, by the handler's task or by a check of its deadline,
and taken by the connection that waits for it. Each call does its work under the lock in one
step; a call that stored a response signals the event counter in a later step of its own, an
expiry after it has asked the task to cancel. Between these steps any other call may run.

That a response is there is known only from the stored response itself, which taking removes.
So a completion that comes after the response was taken is stored, signalled and taken as if
it were the first one.
-/

namespace Conflux.Http

open List Option

open Framing (Response ascii)

/-- The response to a request whose deadline has passed. -/
def gatewayTimeout : Response :=
  { status := 504
    statusText := ascii "Gateway Timeout"
    body := .text (ascii "<html><body><h1>504 Gateway Timeout</h1></body></html>") }

/-- What the lock of a deferred response protects. Task controls are numbered. -/
structure DeferredResponse where
  /-- The response, while it is stored. -/
  ready : Option Response := none
  /-- When the request has waited long enough. -/
  deadline : Int
  /-- The task to cancel at the deadline. -/
  cancelCtl : Option Nat := none
  deriving DecidableEq, Repr

namespace DeferredResponse

/-- Store a response unless one is stored. The answer is whether it was stored. -/
def complete (d : DeferredResponse) (response : Response) : Bool × DeferredResponse :=
  match d.ready with
  | some _ => (false, d)
  | none => (true, { d with ready := some response })

/-- Take the stored response. -/
def takeReady (d : DeferredResponse) : Option Response × DeferredResponse :=
  match d.ready with
  | some response => (some response, { d with ready := none })
  | none => (none, d)

/-- Store the timeout response if the deadline has passed and no response is stored. -/
def expireIfPastDeadline (d : DeferredResponse) (now : Int) : Bool × DeferredResponse :=
  if d.ready.isSome then (false, d)
  else if now < d.deadline then (false, d)
  else (true, { d with ready := some gatewayTimeout, cancelCtl := none })

end DeferredResponse

/-! ## Runs -/

/-- A deferred response, the calls on it that are between two steps, and what came of the
finished ones. -/
structure DeferredRun where
  /-- What the lock protects. -/
  response : DeferredResponse
  /-- Expiries that have still to ask a task to cancel, with the control they took. -/
  cancelsDue : List (Option Nat) := []
  /-- Calls that have still to signal the event counter. -/
  wakesDue : Nat := 0
  /-- Tasks that were asked to cancel. -/
  cancelled : List Nat := []
  /-- How often the event counter was signalled. -/
  signals : Nat := 0
  /-- The responses that were stored, oldest first. -/
  made : List Response := []
  /-- The responses that were taken, oldest first. -/
  taken : List Response := []
  deriving DecidableEq, Repr

/-- A step of some call. -/
inductive DeferredStep where
  | complete (response : Response)
  | expireIfPastDeadline (now : Int)
  | takeReady
  | requestCancel
  | signal
  deriving DecidableEq, Repr

/-- A step that stores a response where none is stored. -/
def DeferredStep.Makes (deadline : Int) : DeferredStep → Prop
  | .complete _ => True
  | .expireIfPastDeadline now => deadline ≤ now
  | _ => False

namespace DeferredRun

/-- What a step does. -/
def step (s : DeferredRun) : DeferredStep → DeferredRun
  | .complete response =>
    match s.response.complete response with
    | (true, d) =>
      { s with response := d, wakesDue := s.wakesDue + 1, made := s.made ++ [response] }
    | (false, d) => { s with response := d }
  | .expireIfPastDeadline now =>
    match s.response.expireIfPastDeadline now with
    | (true, d) =>
      { s with
        response := d
        cancelsDue := s.cancelsDue ++ [s.response.cancelCtl]
        made := s.made ++ [gatewayTimeout] }
    | (false, d) => { s with response := d }
  | .takeReady =>
    match s.response.takeReady with
    | (some response, d) => { s with response := d, taken := s.taken ++ [response] }
    | (none, d) => { s with response := d }
  | .requestCancel =>
    match s.cancelsDue with
    | [] => s
    | ctl :: rest =>
      { s with
        cancelsDue := rest
        wakesDue := s.wakesDue + 1
        cancelled := s.cancelled ++ ctl.toList }
  | .signal =>
    match s.wakesDue with
    | 0 => s
    | n + 1 => { s with wakesDue := n, signals := s.signals + 1 }

/-- A sequence of steps. -/
def run (s : DeferredRun) (steps : List DeferredStep) : DeferredRun := steps.foldl step s

/-- A deferred response with a deadline and a task, before any call. -/
def start (deadline : Int) (cancelCtl : Option Nat) : DeferredRun :=
  { response := { deadline := deadline, cancelCtl := cancelCtl } }

/-- Signals that were given, and those that a call in progress will give. -/
def signalled (s : DeferredRun) : Nat := s.signals + s.wakesDue + s.cancelsDue.length

/-- At most one response was taken and it is the first one stored; the event counter is signalled
once if a response was stored, and else not at all. -/
structure DeliveredOnce (s : DeferredRun) : Prop where
  taken_once : s.taken.length ≤ 1
  first : ∀ r ∈ s.taken, s.made.head? = some r
  signalled_once : s.signalled = if s.made = [] then 0 else 1

/-! ## What a step can do -/

/-- A step stores a response, takes the stored one, or leaves both as they are. -/
inductive Did (s : DeferredRun) (o : DeferredStep) (s' : DeferredRun) : Prop
  | made (r : Response) (hready : s.response.ready = none) (hmakes : o.Makes s.response.deadline)
      (hready' : s'.response.ready = some r) (hmade : s'.made = s.made ++ [r])
      (htaken : s'.taken = s.taken) (hsignalled : s'.signalled = s.signalled + 1)
  | took {r : Response} (hready : s.response.ready = some r) (hready' : s'.response.ready = none)
      (hmade : s'.made = s.made) (htaken : s'.taken = s.taken ++ [r])
      (hsignalled : s'.signalled = s.signalled)
  | kept (hbusy : o.Makes s.response.deadline → s.response.ready ≠ none)
      (hready' : s'.response.ready = s.response.ready) (hmade : s'.made = s.made)
      (htaken : s'.taken = s.taken) (hsignalled : s'.signalled = s.signalled)

open DeferredResponse

theorem step_did (s : DeferredRun) (o : DeferredStep) : Did s o (s.step o) := by
  cases o with
  | complete response =>
    cases hready : s.response.ready with
    | none =>
      refine .made response hready trivial ?_ ?_ ?_ ?_
      all_goals simp [step, complete, hready, signalled]
      omega
    | some r =>
      have hsame : s.step (.complete response) = s := by
        simp [step, complete, hready]
      rw [hsame]
      exact .kept (fun _ => by simp [hready]) rfl rfl rfl rfl
  | expireIfPastDeadline now =>
    by_cases hmakes : s.response.ready = none ∧ s.response.deadline ≤ now
    · obtain ⟨hready, hpast⟩ := hmakes
      refine .made gatewayTimeout hready hpast ?_ ?_ ?_ ?_
      all_goals simp [step, expireIfPastDeadline, hready, Int.not_lt.mpr hpast,
        signalled]
      omega
    have hsame : s.step (.expireIfPastDeadline now) = s := by
      rw [step, expireIfPastDeadline]
      cases hready : s.response.ready with
      | none =>
        have hearly : now < s.response.deadline :=
          Int.not_le.mp fun hpast => hmakes ⟨hready, hpast⟩
        simp [hearly]
      | some r => simp
    rw [hsame]
    exact .kept (fun hpast hready => hmakes ⟨hready, hpast⟩) rfl rfl rfl rfl
  | takeReady =>
    cases hready : s.response.ready with
    | none =>
      have hsame : s.step .takeReady = s := by
        simp [step, takeReady, hready]
      rw [hsame]
      exact .kept (fun h => h.elim) rfl rfl rfl rfl
    | some r =>
      refine .took hready ?_ ?_ ?_ ?_ <;> simp [step, takeReady, hready, signalled]
  | requestCancel =>
    cases hdue : s.cancelsDue with
    | nil =>
      have hsame : s.step .requestCancel = s := by simp [step, hdue]
      rw [hsame]
      exact .kept (fun h => h.elim) rfl rfl rfl rfl
    | cons control rest =>
      refine .kept (fun h => h.elim) ?_ ?_ ?_ ?_
      all_goals simp [step, hdue, signalled]
      omega
  | signal =>
    cases hdue : s.wakesDue with
    | zero =>
      have hsame : s.step .signal = s := by simp [step, hdue]
      rw [hsame]
      exact .kept (fun h => h.elim) rfl rfl rfl rfl
    | succ n =>
      refine .kept (fun h => h.elim) ?_ ?_ ?_ ?_
      all_goals simp [step, hdue, signalled]
      omega

theorem deadline_step (s : DeferredRun) (o : DeferredStep) :
    (s.step o).response.deadline = s.response.deadline := by
  cases o with
  | complete response =>
    rw [step, complete]
    cases s.response.ready <;> rfl
  | expireIfPastDeadline now =>
    rw [step, expireIfPastDeadline]
    split_ifs <;> rfl
  | takeReady =>
    rw [step, takeReady]
    cases s.response.ready <;> rfl
  | requestCancel =>
    rw [step]
    cases s.cancelsDue <;> rfl
  | signal =>
    rw [step]
    cases s.wakesDue <;> rfl

/-! ## What every run keeps -/

/-- The stored responses are the taken ones and the one that is there, each is or will be
signalled, and the deadline stays. -/
structure Accounted (deadline : Int) (s : DeferredRun) : Prop where
  made_eq : s.made = s.taken ++ s.response.ready.toList
  signalled_eq : s.signalled = s.made.length
  deadline_eq : s.response.deadline = deadline

theorem accounted_start (deadline : Int) (cancelCtl : Option Nat) :
    Accounted deadline (start deadline cancelCtl) := ⟨rfl, rfl, rfl⟩

variable {deadline : Int} {s : DeferredRun}

/-- A step keeps the accounts. -/
theorem Accounted.step (h : Accounted deadline s) (o : DeferredStep) :
    Accounted deadline (s.step o) := by
  have hdeadline := (s.deadline_step o).trans h.deadline_eq
  cases s.step_did o with
  | made r hready hmakes hready' hmade htaken hsignalled =>
    refine ⟨?_, ?_, hdeadline⟩
    · rw [hmade, htaken, hready', h.made_eq, hready]
      simp
    · rw [hsignalled, hmade, h.signalled_eq, length_append, length_singleton]
  | took hready hready' hmade htaken hsignalled =>
    refine ⟨?_, ?_, hdeadline⟩
    · rw [hmade, htaken, hready', h.made_eq, hready]
      simp
    · rw [hsignalled, hmade, h.signalled_eq]
  | kept hbusy hready' hmade htaken hsignalled =>
    refine ⟨?_, ?_, hdeadline⟩
    · rw [hmade, htaken, hready', h.made_eq]
    · rw [hsignalled, hmade, h.signalled_eq]

/-- A run keeps the accounts. -/
theorem Accounted.run (h : Accounted deadline s) (steps : List DeferredStep) :
    Accounted deadline (s.run steps) := by
  induction steps generalizing s with
  | nil => exact h
  | cons o steps ih => exact ih (h.step o)

theorem run_append (s : DeferredRun) (steps steps' : List DeferredStep) :
    s.run (steps ++ steps') = (s.run steps).run steps' := foldl_append

theorem made_step_le (s : DeferredRun) (o : DeferredStep) :
    s.made.length ≤ (s.step o).made.length := by
  cases s.step_did o with
  | made _ _ _ _ hmade _ _ =>
    rw [hmade, length_append]
    exact Nat.le_add_right _ _
  | took _ _ hmade _ _ | kept _ _ hmade _ _ => exact Nat.le_of_eq (congrArg List.length hmade.symm)

theorem made_run_le (s : DeferredRun) (steps : List DeferredStep) :
    s.made.length ≤ (s.run steps).made.length := by
  induction steps generalizing s with
  | nil => exact Nat.le_refl _
  | cons o steps ih => exact Nat.le_trans (s.made_step_le o) (ih (s.step o))

/-- Delivery is once exactly if at most one response was stored. -/
theorem Accounted.deliveredOnce_iff (h : Accounted deadline s) :
    s.DeliveredOnce ↔ s.made.length ≤ 1 := by
  constructor
  · intro honce
    have hsignalled := honce.signalled_once
    rw [h.signalled_eq] at hsignalled
    split at hsignalled <;> omega
  intro hle
  have hmade := h.made_eq
  refine ⟨?_, ?_, ?_⟩
  · rw [hmade, length_append] at hle
    omega
  · intro r hr
    cases htaken : s.taken with
    | nil =>
      rw [htaken] at hr
      cases hr
    | cons r' rest =>
      rw [htaken, cons_append] at hmade
      rw [hmade, length_cons] at hle
      have hnil : rest ++ s.response.ready.toList = [] :=
        eq_nil_of_length_eq_zero (by omega)
      rw [htaken, (append_eq_nil_iff.mp hnil).1, mem_singleton] at hr
      rw [hmade, hr]
      rfl
  rw [h.signalled_eq]
  split
  · rename_i hnil
    rw [hnil]
    rfl
  rename_i hne
  have hpos := length_pos_iff.mpr hne
  omega

/-! ## Late completions -/

/-- A completion, or an expiry past the deadline, comes after a response was taken. -/
def Late (deadline : Int) (cancelCtl : Option Nat) (steps : List DeferredStep) : Prop :=
  ∃ pre o post, steps = pre ++ o :: post ∧ ((start deadline cancelCtl).run pre).taken ≠ [] ∧
    o.Makes deadline

variable {cancelCtl : Option Nat} {steps : List DeferredStep}

theorem late_of_made (h : 2 ≤ ((start deadline cancelCtl).run steps).made.length) :
    Late deadline cancelCtl steps := by
  induction steps using List.reverseRecOn with
  | nil => exact absurd h (Nat.not_succ_le_zero 1)
  | append_singleton steps o ih =>
    -- The last step stored the second response, or an earlier one did.
    have hacc := (accounted_start deadline cancelCtl).run steps
    by_cases hearly : 2 ≤ ((start deadline cancelCtl).run steps).made.length
    · obtain ⟨pre, o', post, rfl, hrest⟩ := ih hearly
      exact ⟨pre, o', post ++ [o], by simp, hrest⟩
    rw [run_append] at h
    cases ((start deadline cancelCtl).run steps).step_did o with
    | made _ hready hmakes _ hmade _ _ =>
      refine ⟨steps, o, [], rfl, ?_, hacc.deadline_eq ▸ hmakes⟩
      intro hnil
      have hempty := hacc.made_eq
      rw [hnil, hready] at hempty
      change 2 ≤ (((start deadline cancelCtl).run steps).step o).made.length at h
      rw [hmade, hempty] at h
      exact absurd h (Nat.not_succ_le_self 1)
    | took _ _ hmade _ _ | kept _ _ hmade _ _ =>
      change 2 ≤ (((start deadline cancelCtl).run steps).step o).made.length at h
      rw [hmade] at h
      exact absurd h hearly

theorem made_of_late (h : Late deadline cancelCtl steps) :
    2 ≤ ((start deadline cancelCtl).run steps).made.length := by
  obtain ⟨pre, o, post, rfl, htaken, hmakes⟩ := h
  have hacc := (accounted_start deadline cancelCtl).run pre
  have hpos := length_pos_iff.mpr htaken
  rw [run_append]
  refine Nat.le_trans ?_ (made_run_le (((start deadline cancelCtl).run pre).step o) post)
  have hlen := congrArg List.length hacc.made_eq
  rw [length_append] at hlen
  rw [← hacc.deadline_eq] at hmakes
  cases ((start deadline cancelCtl).run pre).step_did o with
  | made _ hready _ _ hmade _ _ =>
    rw [hmade, length_append, length_singleton]
    omega
  | took hready _ hmade _ _ =>
    rw [hready, toList_some, length_singleton] at hlen
    rw [hmade]
    omega
  | kept hbusy _ hmade _ _ =>
    obtain ⟨r, hready⟩ := ne_none_iff_exists'.mp (hbusy hmakes)
    rw [hready, toList_some, length_singleton] at hlen
    rw [hmade]
    omega

/-- In every interleaving, the response is delivered once exactly if nothing completes or expires
the request after a response was taken. -/
theorem deliveredOnce_run_iff (deadline : Int) (cancelCtl : Option Nat)
    (steps : List DeferredStep) :
    ((start deadline cancelCtl).run steps).DeliveredOnce ↔ ¬ Late deadline cancelCtl steps := by
  have hacc := (accounted_start deadline cancelCtl).run steps
  rw [hacc.deliveredOnce_iff]
  constructor
  · intro hle hlate
    have htwo := made_of_late hlate
    omega
  intro hlate
  by_contra hmore
  exact hlate (late_of_made (by omega))

/-- What the handler's task answers. -/
def lateResponse : Response := { body := .text (ascii "late") }

/-- The timeout response is taken, and then the handler's task completes: its response is taken
too and the counter is signalled again. -/
theorem run_lateCompletion :
    ((start 0 (some 1)).run [.expireIfPastDeadline 5, .requestCancel, .signal, .takeReady,
      .complete lateResponse, .signal, .takeReady]).taken =
        [gatewayTimeout, lateResponse] ∧
    ((start 0 (some 1)).run [.expireIfPastDeadline 5, .requestCancel, .signal, .takeReady,
      .complete lateResponse, .signal, .takeReady]).signals = 2 := by
  decide

end DeferredRun

end Conflux.Http
