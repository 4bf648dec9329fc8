import Mathlib.Data.List.Basic

/-!
# Transactions

`with_transaction` runs a body between BEGIN and COMMIT, rolls back what fails, and tries again
behind a serialization failure or a deadlock. On the server an error aborts the transaction; then
it accepts nothing but its end, and COMMIT rolls back while it reports success.
-/

namespace Conflux.Db

open List

/-- What a query throws, as far as `with_transaction` tells errors apart. -/
inductive QueryError where
  | serialization | deadlock | other
  deriving DecidableEq

/-- What is sent to the server. -/
inductive Query where
  | begin_ | commit | rollback | statement
  deriving DecidableEq

/-- The transaction status of a session. -/
inductive TxStatus where
  | idle | open_ | aborted
  deriving DecidableEq

/-- What the server makes of its status. -/
def TxStatus.next : TxStatus → Query → Option QueryError → TxStatus
  | _, .begin_, none => .open_
  | _, .commit, none => .idle
  | _, .rollback, none => .idle
  | .open_, .commit, some _ => .aborted
  | .open_, .statement, some _ => .aborted
  | t, _, _ => t

/-- Queries and how they were answered. -/
abbrev QueryLog := List (Query × Option QueryError)

/-- A session: what was sent and how it was answered, and whether the last COMMIT committed. -/
structure Session where
  status : TxStatus := .idle
  sent : QueryLog := []
  committed : Bool := false
  deriving DecidableEq

variable (reply : Nat → Option QueryError)

/-- Send a query. An aborted transaction refuses statements and BEGIN. -/
def Session.query (s : Session) (q : Query) : Option QueryError × Session :=
  let r :=
    if s.status = .aborted && (q = .statement || q = .begin_) then some .other
    else reply s.sent.length
  (r,
    { status := s.status.next q r
      sent := s.sent ++ [(q, r)]
      committed := q = .commit && s.status = .open_ && r = none })

/-- A body: it sees the answers to its queries, and returns or throws. -/
inductive Body where
  | done
  | throw (e : QueryError)
  | query (next : Option QueryError → Body)

/-- Run a body on a session. -/
def Body.run : Body → Session → Option QueryError × Session
  | .done, s => (none, s)
  | .throw e, s => (some e, s)
  | .query next, s =>
    let r := s.query reply .statement
    (next r.1).run r.2

/-- How an attempt ends. A BEGIN that fails leaves the loop at once. -/
inductive Outcome where
  | returned
  | failed (e : QueryError)
  | notBegun (e : QueryError)
  deriving DecidableEq

/-- One turn of the loop of `with_transaction`, up to the decision to try again. -/
def attempt (body : Body) (s : Session) : Outcome × Session :=
  match s.query reply .begin_ with
  | (some e, s) => (.notBegun e, s)
  | (none, s) =>
    match body.run reply s with
    | (some e, s) => (.failed e, (s.query reply .rollback).2)
    | (none, s) =>
      match s.query reply .commit with
      | (some e, s) => (.failed e, (s.query reply .rollback).2)
      | (none, s) => (.returned, s)

/-- `with_transaction`, with the number of retries left. The body may differ between attempts. -/
def withTransaction (body : Nat → Body) : Nat → Session → Outcome × Session
  | 0, s => attempt reply (body 0) s
  | n + 1, s =>
    match attempt reply (body (n + 1)) s with
    | (.failed e, s) => if e = .other then (.failed e, s) else withTransaction body n s
    | r => r

/-- The statements of a body. -/
def Statements (ss : QueryLog) : Prop := ∀ x ∈ ss, x.1 = .statement

/-- The queries of an attempt. -/
inductive AttemptLog : Outcome → QueryLog → Prop
  | notBegun {e : QueryError} : AttemptLog (.notBegun e) [(.begin_, some e)]
  | returned {ss : QueryLog} (h : Statements ss) :
    AttemptLog .returned ((.begin_, none) :: ss ++ [(.commit, none)])
  | commitFailed {ss : QueryLog} {e : QueryError} {r : Option QueryError} (h : Statements ss) :
    AttemptLog (.failed e) ((.begin_, none) :: ss ++ [(.commit, some e)] ++ [(.rollback, r)])
  | bodyFailed {ss : QueryLog} {e : QueryError} {r : Option QueryError} (h : Statements ss) :
    AttemptLog (.failed e) ((.begin_, none) :: ss ++ [(.rollback, r)])

/-- A run of `with_transaction`: at most `n` attempts fail and are retried, and one more ends it.
If it returns, what it sent last is committed exactly if no statement failed, and the session ends
idle unless a ROLLBACK failed. -/
structure Transacted (s : Session) (n : Nat) (r : Outcome × Session) (logs : List QueryLog)
    (last : QueryLog) : Prop where
  sent : r.2.sent = s.sent ++ (logs ++ [last]).flatten
  retries : logs.length ≤ n
  failed : ∀ log ∈ logs, ∃ e, e ≠ .other ∧ AttemptLog (.failed e) log
  shape : AttemptLog r.1 last
  committed : r.1 = .returned → (r.2.committed = true ↔ ∀ x ∈ last, x.2 = none)
  idle : s.status = .idle →
    r.2.status = .idle ∨ ∃ e, (.rollback, some e) ∈ (logs ++ [last]).flatten

variable {s s' : Session} {q : Query} {r : Option QueryError} {n : Nat}

theorem Session.query_eq {reply : Nat → Option QueryError} (h : s.query reply q = (r, s')) :
    s' = ⟨s.status.next q r, s.sent ++ [(q, r)], q = .commit && s.status = .open_ && r = none⟩ := by
  cases h
  rfl

/-- A body sends statements, and the transaction stays open if none of them fails. -/
theorem Body.run_spec (b : Body) (h : s.status = .open_ ∨ s.status = .aborted) :
    ∃ ss, (b.run reply s).2.sent = s.sent ++ ss ∧ Statements ss ∧
      ((b.run reply s).2.status = .open_ ↔ s.status = .open_ ∧ ∀ x ∈ ss, x.2 = none) := by
  induction b generalizing s with
  | done | throw e => exact ⟨[], by simp [Body.run, Statements]⟩
  | query next ih =>
    cases hq : s.query reply .statement with
    | mk r s' =>
      have hs' := Session.query_eq hq
      have hstatus : s'.status = .open_ ∨ s'.status = .aborted := by
        rw [hs']
        rcases h with h | h <;> cases r <;> simp [h, TxStatus.next]
      have hopen : s'.status = .open_ ↔ s.status = .open_ ∧ r = none := by
        rw [hs']
        rcases h with h | h <;> cases r <;> simp [h, TxStatus.next]
      obtain ⟨ss, hsent, hss, hrun⟩ := ih r hstatus
      refine ⟨(.statement, r) :: ss, ?_, forall_mem_cons.mpr ⟨rfl, hss⟩, ?_⟩
      · rw [Body.run, hq, hsent, hs']
        simp
      · rw [Body.run, hq, hrun, hopen, forall_mem_cons, and_assoc]

/-- A failed attempt ends with ROLLBACK. -/
theorem transacted_rollback {log : QueryLog} {e : QueryError} (hsent : s'.sent = s.sent ++ log)
    (hshape : ∀ r, AttemptLog (.failed e) (log ++ [(.rollback, r)])) :
    ∃ last, Transacted s n (.failed e, (s'.query reply .rollback).2) [] last := by
  cases hq : s'.query reply .rollback with
  | mk r s'' =>
    have hs'' := Session.query_eq hq
    refine ⟨log ++ [(.rollback, r)], ?_, Nat.zero_le n, nofun, hshape r, nofun, fun _ => ?_⟩
    · simp [hs'', hsent]
    · cases r with
      | none => exact .inl (by rw [hs'']; cases s'.status <;> rfl)
      | some e => exact .inr ⟨e, by simp⟩

theorem attempt_spec (b : Body) (s : Session) :
    ∃ last, Transacted s n (attempt reply b s) [] last := by
  unfold attempt
  split
  · rename_i e s₁ hbegin
    obtain rfl := Session.query_eq hbegin
    exact ⟨[(.begin_, some e)], rfl, Nat.zero_le n, nofun, .notBegun, nofun,
      fun hidle => .inl (by simp [hidle, TxStatus.next])⟩
  rename_i s₁ hbegin
  have hs₁ := Session.query_eq hbegin
  have hopen : s₁.status = .open_ := by
    rw [hs₁]
    cases s.status <;> rfl
  obtain ⟨ss, hsent, hss, hrun⟩ := b.run_spec reply (.inl hopen)
  have hlog : s₁.sent ++ ss = s.sent ++ ((.begin_, none) :: ss) := by simp [hs₁]
  rw [hlog] at hsent
  split
  · rename_i e s₂ hbody
    rw [hbody] at hsent
    exact transacted_rollback reply hsent fun r => .bodyFailed hss
  rename_i s₂ hbody
  rw [hbody] at hsent hrun
  dsimp only at hsent hrun
  split
  · rename_i e s₃ hcommit
    refine transacted_rollback reply ?_ fun r => .commitFailed hss
    rw [Session.query_eq hcommit, hsent, append_assoc]
  rename_i s₃ hcommit
  have hs₃ := Session.query_eq hcommit
  refine ⟨(.begin_, none) :: ss ++ [(.commit, none)], ?_, Nat.zero_le n, nofun, .returned hss,
    fun _ => ?_, fun _ => .inl ?_⟩
  · simp [hs₃, hsent]
  · rw [hs₃, forall_mem_append, forall_mem_cons]
    simp [hrun, hopen]
  · rw [hs₃]
    cases s₂.status <;> rfl

/-- With `n` retries the body is run in at most `n + 1` transactions. -/
theorem withTransaction_transacted (reply : Nat → Option QueryError) (body : Nat → Body) (n : Nat)
    (s : Session) : ∃ logs last, Transacted s n (withTransaction reply body n s) logs last := by
  induction n generalizing s with
  | zero => exact ⟨[], attempt_spec reply (body 0) s⟩
  | succ n ih =>
    obtain ⟨log, h⟩ := attempt_spec (n := n + 1) reply (body (n + 1)) s
    rw [withTransaction]
    split
    · rename_i e s₁ hattempt
      rw [hattempt] at h
      split
      · exact ⟨[], log, h⟩
      rename_i he
      obtain ⟨logs, last, hrest⟩ := ih s₁
      refine ⟨log :: logs, last, ?_, Nat.succ_le_succ hrest.retries,
        forall_mem_cons.mpr ⟨⟨e, he, h.shape⟩, hrest.failed⟩, hrest.shape, hrest.committed, ?_⟩
      · rw [hrest.sent, h.sent]
        simp
      intro hidle
      rcases h.idle hidle with hidle | ⟨e', hmem⟩
      · exact (hrest.idle hidle).imp_right fun ⟨e', hmem⟩ => ⟨e', mem_append_right _ hmem⟩
      · exact .inr ⟨e', mem_append_left _ (by simpa using hmem)⟩
    · exact ⟨[], log, h⟩

/-- A body that goes on behind a failed statement: `with_transaction` returns and nothing is
committed. -/
theorem withTransaction_swallowed :
    withTransaction (fun k => if k = 1 then some .other else none)
        (fun _ => .query fun _ => .done) 3 {} =
      (.returned, { sent := [(.begin_, none), (.statement, some .other), (.commit, none)] }) := by
  decide

end Conflux.Db
