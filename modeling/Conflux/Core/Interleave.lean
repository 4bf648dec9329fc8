import Mathlib.Logic.Function.Basic
import Mathlib.Data.List.Basic

/-!
# Interleaved threads

Any number of threads, each with a local state, take turns to act on one shared state. An
invariant of all their interleavings is split into a part about the shared state, a part about
each thread, and a part about each pair of threads, so that its proof looks at one step and at
one other thread at a time. A second rule says that something which the shared state calls for
has a thread that answers for it.
-/

namespace Conflux.Core

open List Function

/-- Threads over a shared state. -/
structure Threads (ι σ κ : Type*) where
  /-- What all threads act on. -/
  shared : σ
  /-- Where each thread is. -/
  pc : ι → κ

variable {ι σ κ α β : Type*} [DecidableEq ι] {s : Threads ι σ κ}

namespace Threads

/-- One thread makes a step. -/
def fire (step : α → σ → κ → σ × κ) (s : Threads ι σ κ) (m : ι × α) : Threads ι σ κ where
  shared := (step m.2 s.shared (s.pc m.1)).1
  pc := update s.pc m.1 (step m.2 s.shared (s.pc m.1)).2

/-- An interleaving of steps. -/
def run (step : α → σ → κ → σ × κ) (s : Threads ι σ κ) (moves : List (ι × α)) :
    Threads ι σ κ :=
  moves.foldl (fire step) s

variable {step : α → σ → κ → σ × κ}

@[simp] theorem run_nil (s : Threads ι σ κ) : run step s [] = s := rfl

@[simp] theorem run_cons (s : Threads ι σ κ) (m : ι × α) (moves : List (ι × α)) :
    run step s (m :: moves) = run step (fire step s m) moves := rfl

theorem run_append (s : Threads ι σ κ) (moves moves' : List (ι × α)) :
    run step s (moves ++ moves') = run step (run step s moves) moves' := foldl_append

@[simp] theorem fire_pc_self (s : Threads ι σ κ) (i : ι) (a : α) :
    (fire step s (i, a)).pc i = (step a s.shared (s.pc i)).2 := update_self i _ _

theorem fire_pc_of_ne (s : Threads ι σ κ) {i j : ι} (a : α) (h : j ≠ i) :
    (fire step s (i, a)).pc j = s.pc j := update_of_ne h _ _

/-- What steps keep, runs keep. -/
theorem run_induct (P : Threads ι σ κ → Prop) (hstep : ∀ s m, P s → P (fire step s m)) (h : P s)
    (moves : List (ι × α)) : P (run step s moves) :=
  List.foldlRecOn moves (fire step) h fun s hs m _ => hstep s m hs

/-- What becomes of the shared state and one thread while that thread runs alone. -/
def alone (step : α → σ → κ → σ × κ) (s : σ) (k : κ) (as : List α) : σ × κ :=
  as.foldl (fun r a => step a r.1 r.2) (s, k)

theorem run_alone (s : Threads ι σ κ) (i : ι) (as : List α) :
    run step s (as.map fun a => (i, a)) =
      { shared := (alone step s.shared (s.pc i) as).1
        pc := update s.pc i (alone step s.shared (s.pc i) as).2 } := by
  induction as generalizing s with
  | nil =>
    rw [map_nil, run_nil, alone, foldl_nil, update_eq_self]
  | cons a as ih =>
    rw [map_cons, run_cons, ih, fire_pc_self, fire, update_idem]
    rfl

theorem run_alone_pc (s : Threads ι σ κ) (i : ι) (as : List α) :
    (run step s (as.map fun a => (i, a))).pc i = (alone step s.shared (s.pc i) as).2 := by
  rw [run_alone]
  exact update_self i _ _

/-- The shared state, each thread and each pair of threads are as they should be. -/
structure Holds (S : σ → Prop) (L : σ → κ → Prop) (D : κ → κ → Prop) (s : Threads ι σ κ) :
    Prop where
  shared : S s.shared
  each : ∀ i, L s.shared (s.pc i)
  apart : ∀ i j, i ≠ j → D (s.pc i) (s.pc j)

end Threads

/-- A step keeps the shared part, its own thread's part and every other thread's, and stays apart
from the others. -/
structure Modular (step : α → σ → κ → σ × κ) (S : σ → Prop) (L : σ → κ → Prop)
    (D : κ → κ → Prop) : Prop where
  symm : ∀ {k k'}, D k k' → D k' k
  own : ∀ {s k}, S s → L s k → ∀ a, S (step a s k).1 ∧ L (step a s k).1 (step a s k).2
  other : ∀ {s k k'}, S s → L s k → L s k' → D k k' → ∀ a, L (step a s k).1 k'
  apart : ∀ {s k k'}, S s → L s k → L s k' → D k k' → ∀ a, D (step a s k).2 k'

variable {step : α → σ → κ → σ × κ} {S : σ → Prop} {L : σ → κ → Prop} {D : κ → κ → Prop}

open Threads

theorem Modular.fire (h : Modular step S L D) (hs : s.Holds S L D) (m : ι × α) :
    (s.fire step m).Holds S L D := by
  obtain ⟨i, a⟩ := m
  have hown := h.own hs.shared (hs.each i) a
  have hapart : ∀ j, j ≠ i → D (step a s.shared (s.pc i)).2 (s.pc j) := fun j hj =>
    h.apart hs.shared (hs.each i) (hs.each j) (hs.apart i j hj.symm) a
  refine ⟨hown.1, ?_, ?_⟩
  · intro j
    by_cases hj : j = i
    · subst hj
      rw [fire_pc_self]
      exact hown.2
    · rw [fire_pc_of_ne s a hj]
      exact h.other hs.shared (hs.each i) (hs.each j) (hs.apart i j (Ne.symm hj)) a
  intro j k hjk
  by_cases hj : j = i
  · subst hj
    rw [fire_pc_self, fire_pc_of_ne s a hjk.symm]
    exact hapart k hjk.symm
  rw [fire_pc_of_ne s a hj]
  by_cases hk : k = i
  · subst hk
    rw [fire_pc_self]
    exact h.symm (hapart j hj)
  · rw [fire_pc_of_ne s a hk]
    exact hs.apart j k hjk

/-- The invariant holds after any interleaving. -/
theorem Modular.run (h : Modular step S L D) (hs : s.Holds S L D) (moves : List (ι × α)) :
    (s.run step moves).Holds S L D :=
  run_induct (·.Holds S L D) (fun _ m hs => h.fire hs m) hs moves

/-- What the shared state calls for after a step is answered for by the stepping thread, or was
called for before and is not that thread's. -/
structure Answered (step : α → σ → κ → σ × κ) (S : σ → Prop) (L : σ → κ → Prop)
    (Need : σ → β → Prop) (Owns : κ → β → Prop) : Prop where
  keep : ∀ {s k}, S s → L s k → ∀ a b, Need (step a s k).1 b →
    Owns (step a s k).2 b ∨ Need s b ∧ ¬ Owns k b

variable {Need : σ → β → Prop} {Owns : κ → β → Prop}

theorem Answered.fire (h : Answered step S L Need Owns) (hs : s.Holds S L D)
    (howned : ∀ b, Need s.shared b → ∃ i, Owns (s.pc i) b) (m : ι × α) :
    ∀ b, Need (s.fire step m).shared b → ∃ i, Owns ((s.fire step m).pc i) b := by
  obtain ⟨i, a⟩ := m
  intro b hneed
  rcases h.keep hs.shared (hs.each i) a b hneed with howns | ⟨hneed', hnot⟩
  · exact ⟨i, by rw [fire_pc_self]; exact howns⟩
  obtain ⟨j, hj⟩ := howned b hneed'
  have hji : j ≠ i := by
    rintro rfl
    exact hnot hj
  exact ⟨j, by rw [fire_pc_of_ne s a hji]; exact hj⟩

/-- What is called for after any interleaving has a thread that answers for it. -/
theorem Answered.run (h : Answered step S L Need Owns) (hmod : Modular step S L D)
    (hs : s.Holds S L D) (howned : ∀ b, Need s.shared b → ∃ i, Owns (s.pc i) b)
    (moves : List (ι × α)) :
    ∀ b, Need (s.run step moves).shared b → ∃ i, Owns ((s.run step moves).pc i) b := by
  have hboth := run_induct
    (fun s => s.Holds S L D ∧ ∀ b, Need s.shared b → ∃ i, Owns (s.pc i) b)
    (fun s m hs => ⟨hmod.fire hs.1 m, h.fire hs.1 hs.2 m⟩) ⟨hs, howned⟩ moves
  exact hboth.2

/-- What a split of a list that ends in `m` can be. -/
theorem forall_split_concat {α : Type} {p : List α → α → Prop} {moves : List α} {m : α} :
    (∀ before x after, moves ++ [m] = before ++ x :: after → p before x) ↔
      (∀ before x after, moves = before ++ x :: after → p before x) ∧ p moves m := by
  constructor
  · intro h
    refine ⟨?_, h moves m [] rfl⟩
    rintro before x after rfl
    exact h before x (after ++ [m]) (by simp)
  rintro ⟨h, hm⟩ before x after heq
  obtain rfl | ⟨after', last, rfl⟩ := after.eq_nil_or_concat'
  · obtain ⟨rfl, hx⟩ := append_inj' heq rfl
    cases hx
    exact hm
  rw [← cons_append, ← append_assoc] at heq
  obtain ⟨rfl, -⟩ := append_inj' heq rfl
  exact h before x after' rfl

end Conflux.Core
