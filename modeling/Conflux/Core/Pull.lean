import Mathlib.Data.List.Basic

/-!
# Pull machines

A pull machine answers each request with an item, the end or an error, and a new state. A
drain requests until there is no further item. Runs are put together from pieces: what a
state yields up to some later state, and that a state breaks before an end is reached.
-/

namespace Conflux.Core

variable {σ ε α : Type*}

/-- How a drain comes to its end. -/
inductive Outcome (ε : Type*) where
  | finished
  | failed (e : ε)
  | outOfFuel
  deriving DecidableEq, Repr

/-- Request items until there is none, with at most `n` requests. -/
def drain (step : σ → Except ε (Option α) × σ) : Nat → σ → List α × Outcome ε × σ
  | 0, s => ([], .outOfFuel, s)
  | n + 1, s =>
    match step s with
    | (.error e, s) => ([], .failed e, s)
    | (.ok none, s) => ([], .finished, s)
    | (.ok (some a), s) =>
      let (as, o, s) := drain step n s
      (a :: as, o, s)

/-- What a drain comes to, however long it takes. -/
inductive Drains (step : σ → Except ε (Option α) × σ) : σ → List α → Outcome ε → σ → Prop
  | finished {s s' : σ} (h : step s = (.ok none, s')) : Drains step s [] .finished s'
  | failed {s s' : σ} {e : ε} (h : step s = (.error e, s')) : Drains step s [] (.failed e) s'
  | item {s s' s'' : σ} {a : α} {as : List α} {o : Outcome ε} (h : step s = (.ok (some a), s'))
      (tail : Drains step s' as o s'') : Drains step s (a :: as) o s''

section

variable {step : σ → Except ε (Option α) × σ} {s s' s'' : σ} {as bs : List α} {o : Outcome ε}

/-- A drain with enough requests reaches its end. -/
theorem Drains.drain_eq (h : Drains step s as o s') {n : Nat} (hn : as.length < n) :
    drain step n s = (as, o, s') := by
  induction h generalizing n with
  | finished h | failed h =>
    obtain ⟨n, rfl⟩ := Nat.exists_eq_succ_of_ne_zero (Nat.ne_of_gt hn)
    simp [drain, h]
  | item h tail ih =>
    obtain ⟨n, rfl⟩ := Nat.exists_eq_succ_of_ne_zero (by omega : n ≠ 0)
    have htail := ih (n := n) (by simpa using hn)
    simp [drain, h, htail]

/-- Where each item makes a measure smaller, every drain comes to an end. -/
theorem exists_drains (μ : σ → Nat)
    (hμ : ∀ s s' a, step s = (.ok (some a), s') → μ s' < μ s) (s : σ) :
    ∃ as o s', Drains step s as o s' ∧ as.length ≤ μ s := by
  induction hk : μ s using Nat.strongRecOn generalizing s with
  | ind k ih =>
    cases hs : step s with
    | mk r s' =>
      cases r with
      | error e => exact ⟨[], _, s', .failed hs, Nat.zero_le _⟩
      | ok r =>
        cases r with
        | none => exact ⟨[], _, s', .finished hs, Nat.zero_le _⟩
        | some a =>
          have hlt := hμ s s' a hs
          obtain ⟨as, o, s'', htail, hlen⟩ := ih (μ s') (by omega) s' rfl
          refine ⟨a :: as, o, s'', .item hs htail, ?_⟩
          rw [List.length_cons]
          omega

/-- A drain comes to one end only. -/
theorem Drains.unique {o' : Outcome ε} (h : Drains step s as o s') (h' : Drains step s bs o' s'') :
    as = bs ∧ o = o' ∧ s' = s'' := by
  induction h generalizing bs with
  | finished h | failed h => cases h' <;> simp_all
  | item h _ ih =>
    cases h' with
    | finished h' | failed h' => simp_all
    | item h' tail' =>
      rw [h] at h'
      cases h'
      obtain ⟨rfl, ho, hs⟩ := ih tail'
      exact ⟨rfl, ho, hs⟩

end

/-! ## Pieces of runs -/

/-- An answer, and those after it, yield some items and reach a state. -/
inductive Yields (step : σ → Except ε (Option α) × σ) :
    Except ε (Option α) × σ → List α → σ → Prop
  | one {a : α} {s : σ} : Yields step (.ok (some a), s) [a] s
  | more {a : α} {s s' : σ} {as : List α} (tail : Yields step (step s) as s') :
      Yields step (.ok (some a), s) (a :: as) s'

/-- An answer, or one after it, is an error. -/
inductive Breaks (step : σ → Except ε (Option α) × σ) : Except ε (Option α) × σ → Prop
  | now {e : ε} {s : σ} : Breaks step (.error e, s)
  | later {a : α} {s : σ} (tail : Breaks step (step s)) : Breaks step (.ok (some a), s)

section

variable {step : σ → Except ε (Option α) × σ} {r : Except ε (Option α) × σ} {s s' : σ}
  {as bs : List α}

theorem Yields.trans (h : Yields step r as s) (h' : Yields step (step s) bs s') :
    Yields step r (as ++ bs) s' := by
  induction h with
  | one => exact .more h'
  | more _ ih => exact .more (ih h')

theorem Yields.breaks (h : Yields step r as s) (h' : Breaks step (step s)) : Breaks step r := by
  induction h with
  | one => exact .later h'
  | more _ ih => exact .later (ih h')

theorem Yields.drains {t : σ} (hr : step t = r) (h : Yields step r as s) {o : Outcome ε}
    (h' : Drains step s bs o s') : Drains step t (as ++ bs) o s' := by
  induction h generalizing t with
  | one => exact .item hr h'
  | more _ ih => exact .item hr (ih rfl h')

theorem Breaks.drains {t : σ} (hr : step t = r) (h : Breaks step r) :
    ∃ as e s', Drains step t as (.failed e) s' := by
  induction h generalizing t with
  | now => exact ⟨[], _, _, .failed hr⟩
  | later _ ih =>
    obtain ⟨as, e, s', h⟩ := ih rfl
    exact ⟨_, e, s', .item hr h⟩

end

/-! ## Following a partial reference -/

/-- The answers from `r` on follow the reference: they yield the items of an acceptable result and
end in a right state, or they break and there is none. -/
def Tracks {β : Type*} (step : σ → Except ε (Option α) × σ) (r : Except ε (Option α) × σ)
    (ref : Option β) (ok : β → Prop) (items : β → List α) (done : β → σ → Prop) : Prop :=
  (∃ b s, ref = some b ∧ ok b ∧ Yields step r (items b) s ∧ done b s) ∨
    (Breaks step r ∧ ∀ b, ref = some b → ¬ ok b)

section

variable {β : Type*} {step : σ → Except ε (Option α) × σ} {r : Except ε (Option α) × σ}
  {ref : Option β} {ok : β → Prop} {items : β → List α} {done : β → σ → Prop}

theorem tracks_ok {b : β} {s : σ} (href : ref = some b) (hok : ok b)
    (h : Yields step r (items b) s) (hdone : done b s) : Tracks step r ref ok items done :=
  .inl ⟨b, s, href, hok, h, hdone⟩

theorem tracks_one {a : α} {b : β} {s : σ} (href : ref = some b) (hok : ok b)
    (hitems : items b = [a]) (hdone : done b s) :
    Tracks step (.ok (some a), s) ref ok items done :=
  tracks_ok href hok (hitems ▸ .one) hdone

/-- Where the reference has no result, breaking is right. -/
theorem tracks_none (h : Breaks step r) (href : ref = none) : Tracks step r ref ok items done := by
  refine .inr ⟨h, fun b hb => ?_⟩
  rw [href] at hb
  cases hb

variable {γ : Type*} {g : β → γ} {ok' : γ → Prop} {items' : γ → List α} {done' : γ → σ → Prop}

/-- The same answers track a reference whose results are dressed up. -/
theorem Tracks.map (h : Tracks step r ref ok items done) (hok : ∀ b, ok' (g b) ↔ ok b)
    (hitems : ∀ b, items' (g b) = items b) (hdone : ∀ b s, done b s → done' (g b) s) :
    Tracks step r (ref.map g) ok' items' done' := by
  obtain ⟨b, s, rfl, hb, hy, hs⟩ | ⟨hbreak, hno⟩ := h
  · exact tracks_ok rfl ((hok b).mpr hb) (hitems b ▸ hy) (hdone b s hs)
  refine .inr ⟨hbreak, fun b' hb' hok' => ?_⟩
  obtain ⟨b, hb, rfl⟩ := Option.map_eq_some_iff.mp hb'
  exact hno b hb ((hok b).mp hok')

/-- One more item in front, of a reference whose results are dressed up. -/
theorem Tracks.cons {a : α} {s : σ} (h : Tracks step (step s) ref ok items done)
    (hok : ∀ b, ok' (g b) ↔ ok b) (hitems : ∀ b, items' (g b) = a :: items b)
    (hdone : ∀ b s, done b s → done' (g b) s) :
    Tracks step (.ok (some a), s) (ref.map g) ok' items' done' := by
  obtain ⟨b, s', rfl, hb, hy, hs'⟩ | ⟨hbreak, hno⟩ := h
  · refine tracks_ok rfl ((hok b).mpr hb) ?_ (hdone b s' hs')
    rw [hitems]
    exact .more hy
  refine .inr ⟨.later hbreak, fun b' hb' hok' => ?_⟩
  obtain ⟨b, hb, rfl⟩ := Option.map_eq_some_iff.mp hb'
  exact hno b hb ((hok b).mp hok')

/-- Sequencing: what follows a result tracks its own reference; the whole is acceptable when both
parts are. -/
theorem Tracks.bind {kref : β → Option γ} {okTail : γ → Prop} {tail : γ → List α}
    (h : Tracks step r ref ok items done)
    (hk : ∀ b s, ref = some b → done b s → Tracks step (step s) (kref b) okTail tail done')
    (hitems : ∀ b g, kref b = some g → items' g = items b ++ tail g)
    (hok : ∀ b g, kref b = some g → (ok' g ↔ ok b ∧ okTail g)) :
    Tracks step r (ref.bind kref) ok' items' done' := by
  obtain ⟨b, s, rfl, hb, hy, hs⟩ | ⟨hbreak, hno⟩ := h
  · obtain ⟨g, s', hg, hgok, hy', hs'⟩ | ⟨hbreak, hno⟩ := hk b s rfl hs
    · refine tracks_ok hg ((hok b g hg).mpr ⟨hb, hgok⟩) ?_ hs'
      rw [hitems b g hg]
      exact hy.trans hy'
    · exact .inr ⟨hy.breaks hbreak, fun g hg hgok => hno g hg ((hok b g hg).mp hgok).2⟩
  · refine .inr ⟨hbreak, fun g hg hgok => ?_⟩
    obtain ⟨b, hb, hbg⟩ := Option.bind_eq_some_iff.mp hg
    exact hno b hb ((hok b g hbg).mp hgok).1

theorem tracks_refused (h : Breaks step r) (hno : ∀ b, ref = some b → ¬ ok b) :
    Tracks step r ref ok items done :=
  .inr ⟨h, hno⟩

end

end Conflux.Core
