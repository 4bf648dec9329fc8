import Conflux.Core.Guarded
import Mathlib.Data.List.Perm.Basic

/-!
# The connection pool

Completing a task can run code of its holder, which calls the pool again. So the calls are cut at
these points: a connection that `dispatch_lease_` was called with is out, and a loop of
`try_dispatch_waiters_` is a number of rounds still to be made, with the events of nested calls
between them.
-/

namespace Conflux.Db

open Conflux.Core List

/-- The part of the configuration that the accounting depends on. -/
structure PoolConfig where
  minConnections : Nat
  maxConnections : Nat
  /-- Whether there is an `on_acquire`. -/
  onAcquire : Bool
  min_le_max : minConnections ≤ maxConnections

/-- Why a connection is out: `dispatch_lease_` was called, `on_acquire` runs, or it is leased. -/
inductive Use where
  | handing | preparing | leased
  deriving DecidableEq

/-- The pool and the connections it has given away. -/
structure Pool where
  idle : List Nat
  /-- For each waiter, whether it is active. -/
  waiters : List Bool
  total : Int
  out : List (Nat × Use)
  /-- Connections that calls of `acquire` open. -/
  connecting : Nat
  /-- Connections that `grow_if_needed_` opens. -/
  growing : Nat
  /-- Calls of `try_dispatch_waiters_` in progress. -/
  dispatching : Nat
  closed : List Nat
  /-- The connections opened so far are the numbers below this one. -/
  opened : Nat

/-- What happens to a pool before it is closed. A lease that is not accepted is returned at once. -/
inductive PoolEvent where
  | acquire
  | connected
  | connectFailed
  | grown
  | growFailed
  /-- `on_acquire` gives a task, or throws. -/
  | prepare (c : Nat) (started : Bool)
  | prepareFailed (c : Nat)
  | deliver (c : Nat) (accepted healthy : Bool)
  | giveBack (c : Nat) (onOwner healthy : Bool)
  /-- A waiter times out or is cancelled. -/
  | expire (i : Nat)
  /-- A round of a loop of `try_dispatch_waiters_`. -/
  | dispatch

namespace Pool

/-- A pool after `create`. -/
def create (cfg : PoolConfig) : Pool :=
  { idle := [], waiters := [], total := cfg.minConnections, out := [], connecting := 0
    growing := cfg.minConnections, dispatching := 0, closed := [], opened := 0 }

/-- A connection is closed and not counted any more. -/
def drop (p : Pool) (c : Nat) : Pool := { p with closed := c :: p.closed, total := p.total - 1 }

/-- Take account of a connection outside the idle list. -/
def keep (p : Pool) (c : Nat) (use : Use) : Pool := { p with out := (c, use) :: p.out }

/-- `return_` on the owner thread. -/
def returnConn (p : Pool) (c : Nat) (healthy : Bool) : Pool :=
  if healthy then { p with idle := p.idle ++ [c], dispatching := p.dispatching + 1 }
  else
    { p with
      closed := c :: p.closed
      total := if p.total > 0 then p.total - 1 else p.total
      dispatching := p.dispatching + 1 }

/-- `acquire` on the owner thread. -/
def acquire (cfg : PoolConfig) (p : Pool) : Pool :=
  match p.idle.getLast? with
  | some c => { p with idle := p.idle.dropLast }.keep c .handing
  | none =>
    if p.total < cfg.maxConnections then
      { p with total := p.total + 1, connecting := p.connecting + 1 }
    else { p with waiters := p.waiters ++ [true] }

/-- The next round of `try_dispatch_waiters_`, or the end of the loop. -/
def dispatchRound (p : Pool) : Pool :=
  match p.waiters, p.idle.getLast? with
  | active :: waiters, some c =>
    if active then { p with waiters := waiters, idle := p.idle.dropLast }.keep c .handing
    else { p with waiters := waiters }
  | _, _ => { p with dispatching := p.dispatching - 1 }

/-- What a connection was out for when its lease is made. -/
def ready (cfg : PoolConfig) : Use := if cfg.onAcquire then .preparing else .handing

/-- A connection is not out any more. -/
def take (p : Pool) (c : Nat) (use : Use) : Pool := { p with out := p.out.erase (c, use) }

/-- An event; one that is not possible changes nothing. -/
def step (cfg : PoolConfig) (p : Pool) : PoolEvent → Pool
  | .acquire => p.acquire cfg
  | .connected =>
    if 0 < p.connecting then
      { p with connecting := p.connecting - 1, opened := p.opened + 1 }.keep p.opened .handing
    else p
  | .connectFailed =>
    if 0 < p.connecting then { p with connecting := p.connecting - 1, total := p.total - 1 } else p
  | .grown =>
    -- the new connection is pushed and the waiters are dispatched, as when one is returned
    if 0 < p.growing then
      { p with growing := p.growing - 1, opened := p.opened + 1 }.returnConn p.opened true
    else p
  | .growFailed =>
    if 0 < p.growing then { p with growing := p.growing - 1, total := p.total - 1 } else p
  | .prepare c started =>
    if (c, .handing) ∈ p.out ∧ cfg.onAcquire then
      if started then (p.take c .handing).keep c .preparing else (p.take c .handing).drop c
    else p
  | .prepareFailed c => if (c, .preparing) ∈ p.out then (p.take c .preparing).drop c else p
  | .deliver c accepted healthy =>
    if (c, ready cfg) ∈ p.out then
      if accepted then (p.take c (ready cfg)).keep c .leased
      else (p.take c (ready cfg)).returnConn c healthy
    else p
  | .giveBack c onOwner healthy =>
    if (c, .leased) ∈ p.out then
      if onOwner then (p.take c .leased).returnConn c healthy else (p.take c .leased).drop c
    else p
  | .expire i => { p with waiters := p.waiters.set i false }
  | .dispatch => if 0 < p.dispatching then p.dispatchRound else p

/-- The pool after some events. -/
def run (cfg : PoolConfig) (events : List PoolEvent) : Pool :=
  events.foldl (step cfg) (create cfg)

/-! ## Accounting -/

/-- The connections that are leased. -/
def leased (p : Pool) : List (Nat × Use) := p.out.filter (·.2 = .leased)

/-- The number of connections being opened or prepared. -/
def opening (p : Pool) : Nat :=
  p.connecting + p.growing + (p.out.filter (¬ ·.2 = .leased)).length

/-- The counter is right, and every connection is in one place, closed or in `taken`. -/
structure Accounted (cfg : PoolConfig) (p : Pool) (taken : List Nat) : Prop where
  total : p.total = p.idle.length + p.out.length + p.connecting + p.growing + taken.length
  le_max : p.total ≤ cfg.maxConnections
  once : (taken ++ (p.idle ++ p.out.map Prod.fst ++ p.closed)).Perm (range p.opened)

variable {cfg : PoolConfig} {p : Pool} {c : Nat}

section

variable (h : Accounted cfg p [c])
include h

theorem Accounted.drop : Accounted cfg (p.drop c) [] := by
  have htotal := h.total
  rw [length_singleton] at htotal
  refine ⟨?_, Int.le_trans (Int.sub_le_self _ Int.one_nonneg) h.le_max, perm_middle.trans h.once⟩
  simp only [Pool.drop, length_nil]
  omega

theorem Accounted.keep (use : Use) : Accounted cfg (p.keep c use) [] := by
  have htotal := h.total
  refine ⟨?_, h.le_max, Perm.trans (perm_iff_count.mpr fun x => ?_) h.once⟩
  · simp only [Pool.keep, length_cons, length_nil] at htotal ⊢
    omega
  · simp only [Pool.keep, map_cons, count_append, count_cons, count_nil]
    omega

theorem Accounted.returnConn (healthy : Bool) : Accounted cfg (p.returnConn c healthy) [] := by
  have htotal := h.total
  cases healthy with
  | false =>
    have hdrop := h.drop
    rw [length_singleton] at htotal
    rw [Pool.returnConn, if_neg Bool.false_ne_true, if_pos (by omega)]
    exact ⟨hdrop.total, hdrop.le_max, hdrop.once⟩
  | true =>
    refine ⟨?_, h.le_max, Perm.trans (perm_iff_count.mpr fun x => ?_) h.once⟩
    · simp only [Pool.returnConn, if_true, length_append, length_cons, length_nil] at htotal ⊢
      omega
    · simp only [Pool.returnConn, if_true, count_append, count_cons, count_nil]
      omega

end

namespace Accounted

variable (h : Accounted cfg p [])
include h

theorem take {use : Use} (hc : (c, use) ∈ p.out) : Accounted cfg (p.take c use) [c] := by
  have htotal := h.total
  have hperm := perm_cons_erase hc
  have hlength := hperm.length_eq
  refine ⟨?_, h.le_max, Perm.trans (perm_iff_count.mpr fun x => ?_) h.once⟩
  · simp only [Pool.take, length_cons, length_nil] at htotal hlength ⊢
    omega
  have hcount := (hperm.map Prod.fst).count_eq x
  simp only [Pool.take, map_cons, count_append, count_cons, count_nil] at hcount ⊢
  omega

/-- The last idle connection is taken. -/
theorem takeIdle (hc : p.idle.getLast? = some c) (waiters : List Bool) :
    Accounted cfg { p with waiters := waiters, idle := p.idle.dropLast } [c] := by
  have htotal := h.total
  have hidle := dropLast_append_getLast? c hc
  have hlength := congrArg length hidle
  refine ⟨?_, h.le_max, Perm.trans (perm_iff_count.mpr fun x => ?_) h.once⟩
  · simp only [length_append, length_cons, length_nil] at htotal hlength ⊢
    omega
  have hcount := congrArg (count x) hidle
  simp only [count_append, count_cons, count_nil] at hcount ⊢
  omega

/-- A connection was opened. -/
theorem takeNew {connecting growing : Nat}
    (hcount : connecting + growing + 1 = p.connecting + p.growing) :
    Accounted cfg { p with connecting := connecting, growing := growing, opened := p.opened + 1 }
      [p.opened] := by
  have htotal := h.total
  refine ⟨?_, h.le_max, ?_⟩
  · simp only [length_cons, length_nil] at htotal ⊢
    omega
  · rw [range_succ]
    exact (h.once.cons _).trans (perm_append_singleton _ _).symm

/-- A connection could not be opened. -/
theorem openFailed {connecting growing : Nat}
    (hcount : connecting + growing + 1 = p.connecting + p.growing) :
    Accounted cfg
      { p with connecting := connecting, growing := growing, total := p.total - 1 } [] := by
  have htotal := h.total
  refine ⟨?_, Int.le_trans (Int.sub_le_self _ Int.one_nonneg) h.le_max, h.once⟩
  simp only at htotal ⊢
  omega

/-- Every event keeps the accounts. -/
theorem step (e : PoolEvent) : Accounted cfg (p.step cfg e) [] := by
  have htotal := h.total
  have hsame (waiters : List Bool) (dispatching : Nat) :
      Accounted cfg { p with waiters := waiters, dispatching := dispatching } [] :=
    ⟨htotal, h.le_max, h.once⟩
  cases e with
  | acquire =>
    rw [Pool.step, Pool.acquire]
    split
    · exact (h.takeIdle (by assumption) p.waiters).keep _
    split
    · refine ⟨?_, by assumption, h.once⟩
      simp only
      omega
    · exact hsame _ _
  | connected =>
    rw [Pool.step]
    split
    · exact (h.takeNew (by omega)).keep _
    · exact h
  | grown =>
    rw [Pool.step]
    split
    · exact (h.takeNew (by omega)).returnConn _
    · exact h
  | connectFailed | growFailed =>
    rw [Pool.step]
    split
    · exact h.openFailed (by omega)
    · exact h
  | prepare c started =>
    rw [Pool.step]
    split
    · rename_i hc
      split
      · exact (h.take hc.1).keep _
      · exact (h.take hc.1).drop
    · exact h
  | prepareFailed c =>
    rw [Pool.step]
    split
    · exact (h.take (by assumption)).drop
    · exact h
  | deliver c accepted healthy =>
    rw [Pool.step]
    split
    · split
      · exact (h.take (by assumption)).keep _
      · exact (h.take (by assumption)).returnConn _
    · exact h
  | giveBack c onOwner healthy =>
    rw [Pool.step]
    split
    · split
      · exact (h.take (by assumption)).returnConn _
      · exact (h.take (by assumption)).drop
    · exact h
  | expire i => exact hsame _ _
  | dispatch =>
    rw [Pool.step, Pool.dispatchRound]
    split
    · split
      · split
        · exact (h.takeIdle (by assumption) _).keep _
        · exact hsame _ _
      · exact hsame _ _
    · exact h

end Accounted

theorem run_accounted (cfg : PoolConfig) (events : List PoolEvent) :
    Accounted cfg (run cfg events) [] := by
  have hstart : Accounted cfg (create cfg) [] :=
    ⟨by simp [create], Int.ofNat_le.mpr cfg.min_le_max, Perm.refl _⟩
  exact foldlRecOn (motive := (Accounted cfg · [])) events (step cfg) hstart fun _ h e _ => h.step e

/-- The counter is the number of connections that are idle, leased, or being opened or prepared,
it is at most the maximum, and every connection is in one place or closed. -/
theorem run_total_and_places (cfg : PoolConfig) (events : List PoolEvent) :
    let p := run cfg events
    p.total = p.idle.length + p.leased.length + p.opening ∧ p.total ≤ cfg.maxConnections ∧
      (p.idle ++ p.out.map Prod.fst ++ p.closed).Perm (range p.opened) ∧
      (p.leased.map Prod.fst).Nodup := by
  intro p
  have h : Accounted cfg p [] := run_accounted cfg events
  have htotal := h.total
  have hsplit := p.out.length_eq_length_filter_add (·.2 = .leased)
  refine ⟨?_, h.le_max, h.once, ?_⟩
  · simp only [opening, leased, decide_not, length_nil] at htotal hsplit ⊢
    omega
  have hnodup : (p.idle ++ p.out.map Prod.fst ++ p.closed).Nodup :=
    h.once.nodup_iff.mpr nodup_range
  have hout := (nodup_append.mp (nodup_append.mp hnodup).1).2.1
  exact hout.sublist (filter_sublist.map _)

/-! ## Waiters -/

/-- What the waiters can see of an event. -/
structure Seen (cfg : PoolConfig) (p p' : Pool) : Prop where
  waiters : p'.waiters = p.waiters ∨
    p'.total = p.total ∧ (true ∈ p'.waiters → true ∈ p.waiters ∨ cfg.maxConnections ≤ p.total)
  idle : p'.dispatching = 0 → true ∈ p'.waiters →
    p'.idle = [] ∨ p.dispatching = 0 ∧ true ∈ p.waiters ∧ (p.idle = [] → p'.idle = [])

theorem Seen.same {p' : Pool} (hwaiters : p'.waiters = p.waiters)
    (hdispatching : p'.dispatching = p.dispatching) (hidle : p.idle = [] → p'.idle = []) :
    Seen cfg p p' :=
  ⟨.inl hwaiters, fun hzero hactive => .inr ⟨hdispatching ▸ hzero, hwaiters ▸ hactive, hidle⟩⟩

theorem Seen.returnConn {p' : Pool} (h : p'.waiters = p.waiters) (healthy : Bool) :
    Seen cfg p (p'.returnConn c healthy) := by
  unfold Pool.returnConn
  split
  all_goals exact ⟨.inl h, fun hzero => absurd hzero (Nat.succ_ne_zero _)⟩

theorem seen_acquire (cfg : PoolConfig) (p : Pool) : Seen cfg p (p.acquire cfg) := by
  unfold Pool.acquire
  split
  · exact .same rfl rfl fun hnil => congrArg dropLast hnil
  rename_i hlast
  split
  · exact .same rfl rfl id
  rename_i hfull
  refine ⟨.inr ⟨rfl, fun _ => .inr (Int.not_lt.mp hfull)⟩, fun _ _ => .inl ?_⟩
  exact getLast?_eq_none_iff.mp hlast

theorem seen_dispatchRound (cfg : PoolConfig) (p : Pool) (h : 0 < p.dispatching) :
    Seen cfg p p.dispatchRound := by
  unfold Pool.dispatchRound
  split
  · rename_i active waiters _ hwaiters _
    have hmem (hactive : true ∈ waiters) : true ∈ p.waiters := by
      rw [hwaiters]
      exact mem_cons_of_mem _ hactive
    have hbusy : ¬ p.dispatching = 0 := Nat.ne_of_gt h
    split
    all_goals exact ⟨.inr ⟨rfl, fun h => .inl (hmem h)⟩, fun hzero => absurd hzero hbusy⟩
  -- the loop ends because there is no waiter, or nothing is idle
  rename_i hend
  refine ⟨.inl rfl, fun _ hactive => .inl ?_⟩
  cases hlast : p.idle.getLast? with
  | none => exact getLast?_eq_none_iff.mp hlast
  | some c =>
    obtain ⟨w, ws, hwaiters⟩ := exists_cons_of_ne_nil (ne_nil_of_mem hactive)
    exact absurd hlast (hend w ws c hwaiters)

theorem seen_step (cfg : PoolConfig) (p : Pool) (e : PoolEvent) : Seen cfg p (p.step cfg e) := by
  have hsame : Seen cfg p p := .same rfl rfl id
  cases e with
  | acquire => exact seen_acquire cfg p
  | connected | connectFailed | growFailed | prepareFailed c =>
    rw [step]
    split
    · exact .same rfl rfl id
    · exact hsame
  | grown =>
    rw [step]
    split
    · exact .returnConn (by rfl) _
    · exact hsame
  | prepare c started =>
    rw [step]
    split
    · split
      all_goals exact .same rfl rfl id
    · exact hsame
  | deliver c accepted healthy =>
    rw [step]
    split
    · split
      · exact .same rfl rfl id
      · exact .returnConn (by rfl) _
    · exact hsame
  | giveBack c onOwner healthy =>
    rw [step]
    split
    · split
      · exact .returnConn (by rfl) _
      · exact .same rfl rfl id
    · exact hsame
  | expire i =>
    have hactive (h : true ∈ p.waiters.set i false) : true ∈ p.waiters :=
      (mem_or_eq_of_mem_set h).resolve_right (by decide)
    exact ⟨.inr ⟨rfl, fun h => .inl (hactive h)⟩, fun hzero h => .inr ⟨hzero, hactive h, id⟩⟩
  | dispatch =>
    rw [step]
    split
    · exact seen_dispatchRound cfg p (by assumption)
    · exact hsame

/-- An active waiter waits only while all connections are in use, being opened or prepared. -/
def Waiting (cfg : PoolConfig) (p : Pool) : Prop :=
  true ∈ p.waiters → p.total = cfg.maxConnections ∧ (p.dispatching = 0 → p.idle = [])

/-- The event lowers the number of connections: one fails or is closed. -/
def frees (cfg : PoolConfig) (p : Pool) : PoolEvent → Bool
  | .connectFailed => 0 < p.connecting
  | .growFailed => 0 < p.growing
  | .prepare c started => !started && cfg.onAcquire && p.out.contains (c, .handing)
  | .prepareFailed c => p.out.contains (c, .preparing)
  | .deliver c accepted healthy => !accepted && !healthy && p.out.contains (c, ready cfg)
  | .giveBack c onOwner healthy => !(onOwner && healthy) && p.out.contains (c, .leased)
  | .acquire | .connected | .grown | .expire _ | .dispatch => false

/-- Only the events that free capacity lower the number of connections. -/
theorem total_le_step {e : PoolEvent} (h : frees cfg p e = false) :
    p.total ≤ (p.step cfg e).total := by
  cases e with
  | acquire =>
    rw [step, Pool.acquire]
    split
    · exact Int.le_refl _
    split
    · exact Int.le_add_one (Int.le_refl _)
    · exact Int.le_refl _
  | connected | grown =>
    rw [step]
    split <;> exact Int.le_refl _
  | connectFailed | growFailed =>
    exact Int.le_of_eq (congrArg total (if_neg (by simpa [frees] using h)).symm)
  | expire i => exact Int.le_refl _
  | dispatch =>
    rw [step, Pool.dispatchRound]
    repeat' split
    all_goals exact Int.le_refl _
  | prepare c started =>
    rw [step]
    split
    · rename_i hc
      rw [if_pos (by simpa [frees, hc] using h)]
      exact Int.le_refl _
    · exact Int.le_refl _
  | prepareFailed c =>
    exact Int.le_of_eq (congrArg total (if_neg (by simpa [frees] using h)).symm)
  | deliver c accepted healthy =>
    rw [step]
    split
    · rename_i hc
      have hok : accepted = true ∨ healthy = true := by
        cases accepted <;> cases healthy <;> simp_all [frees]
      obtain rfl | rfl := hok
      · exact Int.le_refl _
      · cases accepted <;> exact Int.le_refl _
    · exact Int.le_refl _
  | giveBack c onOwner healthy =>
    rw [step]
    split
    · rename_i hc
      have hok : onOwner = true ∧ healthy = true := by
        cases onOwner <;> cases healthy <;> simp_all [frees]
      rw [hok.1, hok.2]
      exact Int.le_refl _
    · exact Int.le_refl _

/-- No waiter is stranded: with nothing in progress, an active waiter is queued only if nothing is
idle and all connections are in use. -/
def Served (cfg : PoolConfig) (p : Pool) : Prop :=
  p.dispatching = 0 → p.opening = 0 → true ∈ p.waiters →
    p.idle = [] ∧ p.total = cfg.maxConnections

/-- The event ends what was in progress, and leaves an active waiter although there is capacity. -/
def strands (cfg : PoolConfig) (p : Pool) (e : PoolEvent) : Bool :=
  p.waiters.contains true &&
    match e with
    | .connectFailed => 0 < p.connecting && p.dispatching == 0 && p.opening == 1
    | .growFailed => 0 < p.growing && p.dispatching == 0 && p.opening == 1
    | .prepare c started =>
      !started && cfg.onAcquire && p.out.contains (c, .handing) && p.dispatching == 0 &&
        p.opening == 1
    | .prepareFailed c => p.out.contains (c, .preparing) && p.dispatching == 0 && p.opening == 1
    | .deliver c accepted _ =>
      accepted && p.out.contains (c, ready cfg) && p.dispatching == 0 && p.opening == 1 &&
        p.total < cfg.maxConnections
    | .giveBack c onOwner _ =>
      !onOwner && p.out.contains (c, .leased) && p.dispatching == 0 && p.opening == 0
    | .dispatch =>
      p.dispatching == 1 && p.idle.isEmpty && p.opening == 0 && p.total < cfg.maxConnections
    | .acquire | .connected | .grown | .expire _ => false

/-- A waiter is active in a pool at rest that could open one more connection. -/
structure Short (cfg : PoolConfig) (p : Pool) : Prop where
  dispatching : p.dispatching = 0
  opening : p.opening = 0
  active : true ∈ p.waiters
  total : p.total < cfg.maxConnections

theorem opening_keep (p : Pool) (c : Nat) (use : Use) :
    (p.keep c use).opening = p.opening + if use = .leased then 0 else 1 := by
  cases use <;> simp [opening, Pool.keep, Nat.add_assoc]

theorem opening_take {use : Use} (hc : (c, use) ∈ p.out) :
    p.opening = (p.take c use).opening + if use = .leased then 0 else 1 := by
  have hlength := ((perm_cons_erase hc).filter (¬ ·.2 = .leased)).length_eq
  cases use <;> simp_all [opening, Pool.take, Nat.add_assoc]

theorem not_short_returnConn (p : Pool) (c : Nat) (healthy : Bool) :
    ¬ Short cfg (p.returnConn c healthy) := by
  intro h
  have hzero := h.dispatching
  cases healthy <;> exact absurd hzero (Nat.succ_ne_zero _)

theorem not_short_keep {use : Use} (h : use ≠ .leased) : ¬ Short cfg (p.keep c use) := by
  intro hshort
  have hopening := hshort.opening
  rw [opening_keep, if_neg h] at hopening
  omega

/-- A connection that was not opened or prepared leaves the pool short if nothing else is in
progress. -/
theorem short_lost_iff {p' : Pool} (h : Accounted cfg p []) (hopening : p.opening = p'.opening + 1)
    (hdispatching : p'.dispatching = p.dispatching) (hwaiters : p'.waiters = p.waiters)
    (htotal : p'.total = p.total - 1) :
    Short cfg p' ↔ p.waiters.contains true ∧ p.dispatching = 0 ∧ p.opening = 1 := by
  have hle := h.le_max
  rw [contains_iff_mem]
  constructor
  · rintro ⟨hzero, hnone, hactive, -⟩
    exact ⟨hwaiters ▸ hactive, by omega, by omega⟩
  · rintro ⟨hactive, hzero, hone⟩
    exact ⟨by omega, by omega, hwaiters ▸ hactive, by omega⟩

theorem short_drop_iff (h : Accounted cfg p []) {use : Use} (hc : (c, use) ∈ p.out)
    (huse : use ≠ .leased) :
    Short cfg ((p.take c use).drop c) ↔
      p.waiters.contains true ∧ p.dispatching = 0 ∧ p.opening = 1 := by
  have hopening := opening_take hc
  rw [if_neg huse] at hopening
  exact short_lost_iff h hopening rfl rfl rfl

/-- A round of a loop leaves the pool short if it ends the last loop and nothing was idle. -/
theorem short_dispatchRound_iff (hpos : 0 < p.dispatching) :
    Short cfg p.dispatchRound ↔ strands cfg p .dispatch = true := by
  simp only [strands, Bool.and_eq_true, contains_iff_mem, beq_iff_eq, decide_eq_true_iff,
    List.isEmpty_iff]
  cases hlast : p.idle.getLast? with
  | none =>
    have hidle := getLast?_eq_none_iff.mp hlast
    have hend : p.dispatchRound = { p with dispatching := p.dispatching - 1 } := by
      cases hwaiters : p.waiters <;> simp only [dispatchRound, hwaiters, hlast]
    rw [hend]
    constructor
    · rintro ⟨hzero, hnone, hactive, htotal⟩
      exact ⟨hactive, ⟨⟨⟨by dsimp only at hzero; omega, hidle⟩, hnone⟩, htotal⟩⟩
    · rintro ⟨hactive, ⟨⟨⟨hone, -⟩, hnone⟩, htotal⟩⟩
      exact ⟨by dsimp only; omega, hnone, hactive, htotal⟩
  | some c =>
    have hidle : p.idle ≠ [] := by
      rintro heq
      simp [heq] at hlast
    refine iff_of_false ?_ fun hstrands => hidle hstrands.2.1.1.2
    cases hwaiters : p.waiters with
    | nil =>
      simp only [dispatchRound, hwaiters, hlast]
      exact fun hshort => absurd hshort.active not_mem_nil
    | cons active waiters =>
      simp only [dispatchRound, hwaiters, hlast]
      split
      · exact not_short_keep (by decide)
      · intro hshort
        have hzero : p.dispatching = 0 := hshort.dispatching
        omega

/-- A request is served, opens a connection, or waits while all are in use. -/
theorem not_short_acquire (h : Accounted cfg p []) : ¬ Short cfg (p.acquire cfg) := by
  have hle := h.le_max
  rw [Pool.acquire]
  split
  · exact not_short_keep (by decide)
  split
  · intro hshort
    have hopening := hshort.opening
    simp only [opening] at hopening
    omega
  · intro hshort
    have htotal := hshort.total
    simp only at htotal
    omega

/-- A preparation that does not start leaves the pool short if it was the last thing in
progress. -/
theorem short_prepare_iff (h : Accounted cfg p []) (hp : ¬ Short cfg p) (c : Nat)
    (started : Bool) : Short cfg (p.step cfg (.prepare c started)) ↔
      strands cfg p (.prepare c started) = true := by
  rw [step]
  split
  · rename_i hc
    cases started with
    | true => simp [not_short_keep, strands]
    | false =>
      rw [if_neg (by decide), short_drop_iff h hc.1 (by decide)]
      simp [strands, hc]
  · rename_i hc
    refine iff_of_false hp ?_
    simp only [strands, Bool.and_eq_true, contains_iff_mem]
    exact fun hstrands => hc ⟨hstrands.2.1.1.2, hstrands.2.1.1.1.2⟩

/-- A delivery leaves the pool short if it ends the last thing in progress. -/
theorem short_deliver_iff (hc : (c, ready cfg) ∈ p.out) (healthy : Bool) :
    Short cfg (keep (p.take c (ready cfg)) c .leased) ↔
      strands cfg p (.deliver c true healthy) = true := by
  have hready : ready cfg ≠ .leased := by
    unfold ready
    split <;> decide
  have hopening := opening_take hc
  rw [if_neg hready] at hopening
  have hkeep := opening_keep (p.take c (ready cfg)) c .leased
  rw [if_pos rfl] at hkeep
  simp only [strands, Bool.and_eq_true, contains_iff_mem, beq_iff_eq, decide_eq_true_iff]
  constructor
  · rintro ⟨hzero, hnone, hactive, htotal⟩
    exact ⟨hactive, ⟨⟨⟨⟨trivial, hc⟩, hzero⟩, by omega⟩, htotal⟩⟩
  · rintro ⟨hactive, ⟨⟨⟨⟨-, -⟩, hzero⟩, hone⟩, htotal⟩⟩
    exact ⟨hzero, by omega, hactive, htotal⟩

/-- A connection that is given up on another thread leaves the pool short if nothing else is in
progress. -/
theorem short_giveBack_iff (h : Accounted cfg p []) (hc : (c, .leased) ∈ p.out) (healthy : Bool) :
    Short cfg ((p.take c .leased).drop c) ↔ strands cfg p (.giveBack c false healthy) = true := by
  have hle := h.le_max
  have hopening := opening_take hc
  rw [if_pos rfl] at hopening
  simp only [strands, Bool.and_eq_true, contains_iff_mem, beq_iff_eq, Bool.not_false]
  constructor
  · rintro ⟨hzero, hnone, hactive, -⟩
    exact ⟨hactive, ⟨⟨⟨trivial, hc⟩, hzero⟩, hopening.trans hnone⟩⟩
  · rintro ⟨hactive, ⟨⟨⟨-, -⟩, hzero⟩, hnone⟩⟩
    refine ⟨hzero, hopening.symm.trans hnone, hactive, ?_⟩
    simp only [Pool.drop, Pool.take]
    omega

/-- An event leaves a pool that was not short short exactly if it strands a waiter. -/
theorem short_step_iff (h : Accounted cfg p []) (hp : ¬ Short cfg p) (e : PoolEvent) :
    Short cfg (p.step cfg e) ↔ strands cfg p e = true := by
  cases e with
  | acquire => exact iff_of_false (not_short_acquire h) (by simp [strands])
  | connected =>
    rw [step]
    split
    · simp [not_short_keep, strands]
    · simp [hp, strands]
  | grown =>
    rw [step]
    split
    · simp [not_short_returnConn, strands]
    · simp [hp, strands]
  | connectFailed | growFailed =>
    rw [step]
    split
    · rename_i hpos
      refine Iff.trans (short_lost_iff h ?_ ?_ ?_ ?_) ?_
      · simp only [opening]
        omega
      · rfl
      · rfl
      · rfl
      · simp [strands, hpos]
    · rename_i hzero
      simp [hp, strands, hzero]
  | prepare c started => exact short_prepare_iff h hp c started
  | prepareFailed c =>
    rw [step]
    split
    · rename_i hc
      rw [short_drop_iff h hc (by decide)]
      simp [strands, hc]
    · rename_i hc
      simp [hp, strands, hc]
  | deliver c accepted healthy =>
    rw [step]
    split
    · rename_i hc
      cases accepted with
      | false => simp [not_short_returnConn, strands]
      | true => exact short_deliver_iff hc healthy
    · rename_i hc
      simp [hp, strands, hc]
  | giveBack c onOwner healthy =>
    rw [step]
    split
    · rename_i hc
      cases onOwner with
      | true => simp [not_short_returnConn, strands]
      | false => exact short_giveBack_iff h hc healthy
    · rename_i hc
      simp [hp, strands, hc]
  | expire i =>
    refine iff_of_false (fun hshort => hp ?_) (by simp [strands])
    have hactive := (mem_or_eq_of_mem_set hshort.active).resolve_right (by decide)
    exact ⟨hshort.dispatching, hshort.opening, hactive, hshort.total⟩
  | dispatch =>
    rw [step]
    split
    · rename_i hpos
      exact short_dispatchRound_iff hpos
    · rename_i hzero
      simp [hp, strands, Nat.eq_zero_of_not_pos hzero]

/-- Between calls nothing is idle while a waiter is active. -/
def Unclaimed (p : Pool) : Prop := p.dispatching = 0 → true ∈ p.waiters → p.idle = []

/-- Every event keeps this. -/
theorem Unclaimed.step (h : Unclaimed p) (cfg : PoolConfig) (e : PoolEvent) :
    Unclaimed (p.step cfg e) := by
  intro hzero hactive
  obtain hnil | ⟨hbefore, hactive, hidle⟩ := (seen_step cfg p e).idle hzero hactive
  · exact hnil
  · exact hidle (h hbefore hactive)

/-- No waiter is stranded in a pool that is not short. -/
theorem served_iff_not_short (h : Accounted cfg p []) (hidle : Unclaimed p) :
    Served cfg p ↔ ¬ Short cfg p := by
  have hle := h.le_max
  constructor
  · intro hserved hshort
    have htotal := (hserved hshort.dispatching hshort.opening hshort.active).2
    have hless := hshort.total
    omega
  · intro hnot hzero hnone hactive
    refine ⟨hidle hzero hactive, Int.le_antisymm hle (Int.not_lt.mp fun hless => hnot ?_)⟩
    exact ⟨hzero, hnone, hactive, hless⟩

theorem served_step_iff (h : Accounted cfg p [] ∧ Unclaimed p ∧ Served cfg p) (e : PoolEvent) :
    Accounted cfg (p.step cfg e) [] ∧ Unclaimed (p.step cfg e) ∧ Served cfg (p.step cfg e) ↔
      (!strands cfg p e) = true := by
  obtain ⟨haccounted, hidle, hserved⟩ := h
  have hnext := haccounted.step e
  have hidle' := hidle.step cfg e
  rw [served_iff_not_short haccounted hidle] at hserved
  rw [served_iff_not_short hnext hidle', short_step_iff haccounted hserved, Bool.not_eq_true']
  simp [hnext, hidle']

/-- As long as no event frees capacity while a waiter is active, waiters wait for good
reasons. -/
theorem waiting_step (h : Accounted cfg p [] ∧ Waiting cfg p) {e : PoolEvent}
    (hok : (frees cfg p e && p.waiters.contains true) = false) :
    Accounted cfg (p.step cfg e) [] ∧ Waiting cfg (p.step cfg e) := by
  have hseen := seen_step cfg p e
  have hnext := h.1.step e
  have hle := hnext.le_max
  refine ⟨hnext, fun hactive => ⟨?_, fun hzero => ?_⟩⟩
  · obtain heq | ⟨heq, hor⟩ := hseen.waiters
    · rw [heq] at hactive
      have htotal := (h.2 hactive).1
      have hkept : p.total ≤ (p.step cfg e).total := by
        refine total_le_step ?_
        rwa [contains_iff_mem.mpr hactive, Bool.and_true] at hok
      omega
    obtain hbefore | hfull := hor hactive
    · rw [heq]
      exact (h.2 hbefore).1
    · have htotal := h.1.le_max
      omega
  · obtain hnil | ⟨hbefore, hactive, hidle⟩ := hseen.idle hzero hactive
    · exact hnil
    · exact hidle ((h.2 hactive).2 hbefore)

/-- No waiter is stranded in a run exactly if no event of it ends what was in progress and leaves
an active waiter with capacity to spare. It is enough that no connection fails, is broken or comes
back on another thread while a waiter is active. -/
theorem served_iff (cfg : PoolConfig) (events : List PoolEvent) :
    ((∀ before after, events = before ++ after → Served cfg (run cfg before)) ↔
        allowed (step cfg) (fun p e => !strands cfg p e) (create cfg) events = true) ∧
      (allowed (step cfg) (fun p e => !(frees cfg p e && p.waiters.contains true)) (create cfg)
          events = true →
        ∀ before after, events = before ++ after → Served cfg (run cfg before)) := by
  constructor
  · have hstart :
        Accounted cfg (create cfg) [] ∧ Unclaimed (create cfg) ∧ Served cfg (create cfg) :=
      ⟨run_accounted cfg [], fun _ hactive => absurd hactive not_mem_nil,
        fun _ _ hactive => absurd hactive not_mem_nil⟩
    rw [← forall_along_iff_allowed
      (I := fun p => Accounted cfg p [] ∧ Unclaimed p ∧ Served cfg p)
      (fun _ e h => served_step_iff h e) hstart events]
    refine forall₃_congr fun before _ _ =>
      ⟨fun h => ⟨run_accounted cfg before, ?_, h⟩, fun h => h.2.2⟩
    exact foldlRecOn (motive := Unclaimed) before (step cfg) hstart.2.1 fun _ h e _ => h.step cfg e
  · intro hallowed before after heq
    have hstart : Accounted cfg (create cfg) [] ∧ Waiting cfg (create cfg) :=
      ⟨run_accounted cfg [], fun hactive => absurd hactive not_mem_nil⟩
    have hwaiting := along_of_allowed (I := fun p => Accounted cfg p [] ∧ Waiting cfg p)
      (fun _ _ h hok => waiting_step h (Bool.not_eq_true' _ ▸ hok)) hstart hallowed heq
    exact fun hzero _ hactive => ⟨(hwaiting.2 hactive).2 hzero, (hwaiting.2 hactive).1⟩

/-- The only connection comes back broken: nothing is being opened, and the waiter waits on. -/
theorem run_stranded :
    let p := run ⟨0, 1, false, by decide⟩
      [.acquire, .connected, .deliver 0 true true, .acquire, .giveBack 0 true false, .dispatch]
    p.dispatching = 0 ∧ p.opening = 0 ∧ p.waiters = [true] ∧ p.total = 0 := by
  decide

end Pool

end Conflux.Db
