import Conflux.Core.Loop

/-!
# Computations that load from memory

A span is a stretch of memory of which every address can be loaded, also those outside it. A
computation on a span is run together with the addresses it loads, so that it can be said that
it loads only from within the span. The rules follow a computation step by step beside a
reference in `Except` that works on the list of the span's cells.
-/

namespace Conflux.Core

variable {κ ε α β σ : Type}

/-- Memory with a stretch of it that belongs to someone. -/
structure Span (κ : Type) where
  /-- What an address holds. -/
  cell : Nat → κ
  /-- The addresses below belong to the span. -/
  size : Nat

/-- The cells of a span. -/
def Span.toList (m : Span κ) : List κ := (List.range m.size).map m.cell

@[simp] theorem Span.length_toList (m : Span κ) : m.toList.length = m.size := by
  simp [toList]

theorem Span.getElem?_toList_of_lt (m : Span κ) {i : Nat} (h : i < m.size) :
    m.toList[i]? = some (m.cell i) := by
  simp [toList, h]

theorem Span.getElem?_toList_of_le (m : Span κ) {i : Nat} (h : m.size ≤ i) : m.toList[i]? = none :=
  List.getElem?_eq_none (by rw [length_toList]; exact h)

/-- What one turn of a loop answers, with its faults thrown. -/
def Turn.thrown : Turn σ (Except ε β) → Except ε (Turn σ β)
  | .again s => .ok (.again s)
  | .done (.ok b) => .ok (.done b)
  | .done (.error e) => .error e

/-- A computation on a span: its answer, and the addresses it loads. -/
def Reading (κ ε α : Type) : Type := Span κ → Except ε α × List Nat

namespace Reading

/-- Loads are listed in the order in which they are made. -/
instance : Monad (Reading κ ε) where
  pure a := fun _ => (.ok a, [])
  bind p f := fun m =>
    match p m with
    | (.ok a, loads) => ((f a m).1, loads ++ (f a m).2)
    | (.error e, loads) => (.error e, loads)

/-- Load from an address. -/
def load (i : Nat) : Reading κ ε κ := fun m => (.ok (m.cell i), [i])

/-- The number of cells. -/
def size : Reading κ ε Nat := fun m => (.ok m.size, [])

/-- Stop with an error. -/
def throw (e : ε) : Reading κ ε α := fun _ => (.error e, [])

/-- Load from consecutive addresses. -/
def loadRange (start : Nat) : Nat → Reading κ ε (List κ)
  | 0 => pure []
  | n + 1 => do
    let a ← load start
    let rest ← loadRange (start + 1) n
    pure (a :: rest)

/-- Run a loop for at most `n` turns. -/
def loop (step : σ → Reading κ ε (Turn σ β)) : Nat → σ → Reading κ ε (Option β)
  | 0, _ => pure none
  | n + 1, s => do
    match ← step s with
    | .again s' => loop step n s'
    | .done b => pure (some b)

/-- On a span, the computation answers as told and loads only from within. -/
def Gives (p : Reading κ ε α) (m : Span κ) (r : Except ε α) : Prop :=
  (p m).1 = r ∧ ∀ i ∈ (p m).2, i < m.size

variable {m : Span κ}

theorem gives_pure (a : α) : Gives (pure a : Reading κ ε α) m (.ok a) :=
  ⟨rfl, fun i hi => by cases hi⟩

theorem gives_throw (e : ε) : Gives (throw e : Reading κ ε α) m (.error e) :=
  ⟨rfl, fun i hi => by cases hi⟩

theorem gives_size : Gives (size : Reading κ ε Nat) m (.ok m.size) :=
  ⟨rfl, fun i hi => by cases hi⟩

theorem gives_load {i : Nat} (h : i < m.size) : Gives (load i : Reading κ ε κ) m (.ok (m.cell i)) :=
  ⟨rfl, fun j hj => by rw [List.mem_singleton.mp hj]; exact h⟩

variable {p : Reading κ ε α}

/-- A computation that goes on after an answer follows a reference that does. -/
theorem Gives.bind {f : α → Reading κ ε β} {r : Except ε α} {g : α → Except ε β} (hp : Gives p m r)
    (hf : ∀ a, r = .ok a → Gives (f a) m (g a)) :
    Gives (p >>= f) m (r >>= g) := by
  obtain ⟨hresult, hloads⟩ := hp
  rcases hpm : p m with ⟨answer, loads⟩
  rw [hpm] at hresult hloads
  subst hresult
  cases answer with
  | error e =>
    have hbind : (p >>= f) m = (.error e, loads) := by
      change (match p m with | (.ok a, l) => _ | (.error e, l) => _) = _
      rw [hpm]
    rw [Gives, hbind]
    exact ⟨rfl, hloads⟩
  | ok a =>
    have hbind : (p >>= f) m = ((f a m).1, loads ++ (f a m).2) := by
      change (match p m with | (.ok a, l) => _ | (.error e, l) => _) = _
      rw [hpm]
    obtain ⟨hanswer, hrest⟩ := hf a rfl
    rw [Gives, hbind]
    exact ⟨hanswer, List.forall_mem_append.mpr ⟨hloads, hrest⟩⟩

/-- The same where the answer is known. -/
theorem Gives.bind_ok {f : α → Reading κ ε β} {a : α} {r : Except ε β} (hp : Gives p m (.ok a))
    (hf : Gives (f a) m r) : Gives (p >>= f) m r := by
  refine Gives.bind (g := fun _ => r) hp fun a' ha' => ?_
  cases ha'
  exact hf

theorem gives_loadRange {start n : Nat} (h : start + n ≤ m.size) :
    Gives (loadRange start n : Reading κ ε (List κ)) m (.ok ((m.toList.drop start).take n)) := by
  induction n generalizing start with
  | zero => exact gives_pure []
  | succ n ih =>
    have hlt : start < m.toList.length := by
      rw [Span.length_toList]
      omega
    have hcell : m.toList.drop start = m.cell start :: m.toList.drop (start + 1) := by
      rw [List.drop_eq_getElem_cons hlt]
      congr 1
      exact Option.some.inj
        ((List.getElem?_eq_getElem hlt).symm.trans (m.getElem?_toList_of_lt (by omega)))
    rw [hcell, List.take_succ_cons]
    exact (gives_load (by omega)).bind_ok ((ih (by omega)).bind_ok (gives_pure _))

/-- A loop follows a reference loop whose turns it follows. -/
theorem gives_loop {stepM : σ → Reading κ ε (Turn σ β)} {step : σ → Turn σ (Except ε β)}
    (h : ∀ s, Gives (stepM s) m (step s).thrown) (n : Nat) (s : σ) :
    Gives (loop stepM n s) m
      (match Core.loop step n s with
        | none => .ok none
        | some (.ok b) => .ok (some b)
        | some (.error e) => .error e) := by
  induction n generalizing s with
  | zero => exact gives_pure none
  | succ n ih =>
    rw [loop, Core.loop]
    have hturn := h s
    cases hstep : step s with
    | again s' =>
      rw [hstep] at hturn
      exact hturn.bind_ok (ih s')
    | done r =>
      rw [hstep] at hturn
      cases r with
      | ok b => exact hturn.bind_ok (gives_pure _)
      | error e =>
        exact Gives.bind (g := fun _ => .error e) hturn fun a ha => by cases ha

end Reading

end Conflux.Core
