import Mathlib.Data.List.Basic

/-!
# Following a partial reference

A fallible computation follows a partial reference when it succeeds exactly on the
acceptable results of the reference, with a related result. Both directions are kept
together, so that one induction proves soundness and completeness.
-/

namespace Conflux.Core

variable {ε α α' β β' : Type*}

/-- The computation `r` follows the reference `ref`: a success is related to an acceptable result,
and a failure means that there is none. -/
def Follows (r : Except ε α) (ref : Option β) (ok : β → Prop) (R : β → α → Prop) : Prop :=
  match r with
  | .ok a => ∃ b, ref = some b ∧ ok b ∧ R b a
  | .error _ => ∀ b, ref = some b → ¬ ok b

theorem toOption_eq_some {x : Except ε α} {a : α} : x.toOption = some a ↔ x = .ok a := by
  cases x <;> simp [Except.toOption]

theorem exists_of_isOk {x : Except ε α} (h : x.isOk) : ∃ a, x = .ok a := by
  cases x with
  | error e => cases h
  | ok a => exact ⟨a, rfl⟩

/-- A sequence that succeeds is made of two that do. -/
theorem exists_of_bind_eq_ok {ε α β : Type} {x : Except ε α} {f : α → Except ε β} {b : β}
    (h : x >>= f = .ok b) : ∃ a, x = .ok a ∧ f a = .ok b := by
  cases x with
  | error e => cases h
  | ok a => exact ⟨a, rfl, h⟩

variable {ok : β → Prop} {R : β → α → Prop} {ref : Option β}

theorem follows_ok {a : α} {b : β} (href : ref = some b) (hok : ok b) (hR : R b a) :
    Follows (.ok a : Except ε α) ref ok R :=
  ⟨b, href, hok, hR⟩

/-- Where the reference has no result, failing is right. -/
theorem follows_none (e : ε) : Follows (.error e : Except ε α) none ok R := by
  intro b h
  cases h

theorem follows_error {e : ε} {b : β} (href : ref = some b) (h : ¬ ok b) :
    Follows (.error e : Except ε α) ref ok R := by
  rintro b' hb'
  rw [href] at hb'
  cases hb'
  exact h

/-- The two cases of a reference that is followed. -/
theorem Follows.cases {r : Except ε α} (h : Follows r ref ok R) :
    (∃ a b, r = .ok a ∧ ref = some b ∧ ok b ∧ R b a) ∨
      ∃ e, r = .error e ∧ ∀ b, ref = some b → ¬ ok b := by
  cases r with
  | ok a =>
    obtain ⟨b, hb⟩ := h
    exact .inl ⟨a, b, rfl, hb⟩
  | error e => exact .inr ⟨e, rfl, h⟩

variable {ok' : β' → Prop} {R' : β' → α' → Prop} {r : Except ε α}

/-- A failure that follows a reference follows it with its results dressed up. -/
theorem follows_map_error {g : β → β'} (e : ε) (hno : ∀ b, ref = some b → ¬ ok b)
    (hok : ∀ b, ok' (g b) → ok b) : Follows (.error e) (ref.map g) ok' R' := by
  intro b hb hb'
  obtain ⟨b', href, rfl⟩ := Option.map_eq_some_iff.mp hb
  exact hno b' href (hok b' hb')

/-- The same computation follows a reference whose results are dressed up. -/
theorem Follows.mapRef {g : β → β'} {R' : β' → α → Prop} (h : Follows r ref ok R)
    (hok : ∀ b, ok' (g b) ↔ ok b) (hR : ∀ b a, R b a → R' (g b) a) :
    Follows r (ref.map g) ok' R' := by
  obtain ⟨a, b, rfl, rfl, hb, hab⟩ | ⟨e, rfl, hno⟩ := h.cases
  · exact follows_ok rfl ((hok b).mpr hb) (hR b a hab)
  exact follows_map_error e hno fun b => (hok b).mp

end Conflux.Core
