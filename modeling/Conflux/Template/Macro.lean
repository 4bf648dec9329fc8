import Conflux.Core.Assoc
import Mathlib.Data.List.Induction

/-!
# Macro calls of templates

A call binds the parameters of a macro one after another in the scope of the caller, renders the
body with a copy of it, and puts the old values back. Expressions, values and bodies are of any
type; the evaluator and the renderer of bodies are functions of the scope.
-/

namespace Conflux.Template

open Conflux.Core List

variable {E B V : Type}

/-- An object that is a scope: its fields in their order. -/
abbrev Scope (V : Type) := List (String × V)

/-- `TmplValue::set`. -/
def Scope.set (ctx : Scope V) (key : String) (val : V) : Scope V :=
  assocUpdate key val (fun _ => val) ctx

/-- `TmplValue::erase`. -/
def Scope.erase (ctx : Scope V) (key : String) : Scope V := ctx.filter (·.1 ≠ key)

/-- `save_scope`. -/
def saveScope (ctx : Scope V) (names : List String) : List (String × Option V) :=
  names.map fun n => (n, assocFind n ctx)

/-- A name gets its saved value back, or goes. -/
def Scope.put (ctx : Scope V) (key : String) : Option V → Scope V
  | some val => ctx.set key val
  | none => ctx.erase key

/-- `restore_scope`. -/
def restoreScope (ctx : Scope V) (saved : List (String × Option V)) : Scope V :=
  saved.foldl (fun ctx s => ctx.put s.1 s.2) ctx

/-- A macro with distinct parameters. A default expression with an empty base is none. -/
structure MacroBinding (E B : Type) where
  params : List String
  defaults : List (Option E)
  body : B
  nodup : params.Nodup

/-- An argument of a call: its name if it is a keyword argument, and its expression. -/
structure CallArg (E : Type) where
  keyword : Option String
  compiled : Option E

/-- The expression of a parameter: positional, by keyword, or the default. Of keyword arguments
with one name the last counts. -/
def argument (args : List (CallArg E)) (defaults : List (Option E)) (i : Nat) (param : String) :
    Option E :=
  let pos := (args.filter (·.keyword.isNone)).map (·.compiled)
  let kw := (args.filter (·.keyword = some param)).getLast?
  (pos[i]?.join.or (kw.bind (·.compiled))).or defaults[i]?.join

/-- Each parameter with its expression. -/
def MacroBinding.bindings (m : MacroBinding E B) (args : List (CallArg E)) :
    List (String × Option E) :=
  m.params.zipIdx.map fun (p, i) => (p, argument args m.defaults i p)

/-- The value of a parameter with an expression, or without one. -/
def valueIn (eval : E → Scope V → V) (null : V) (ctx : Scope V) (e : Option E) : V :=
  e.elim null (eval · ctx)

/-- The loop that binds the parameters, each evaluated where the ones before it are bound. -/
def bindParams (value : Scope V → Option E → V) (ctx : Scope V) (bs : List (String × Option E)) :
    Scope V :=
  bs.foldl (fun ctx b => ctx.set b.1 (value ctx b.2)) ctx

/-- The call of a macro in `render_expr_node`: its text, and the scope of the caller after it. -/
def callMacro (eval : E → Scope V → V) (null : V) (render : B → Scope V → String)
    (m : MacroBinding E B) (args : List (CallArg E)) (ctx : Scope V) : String × Scope V :=
  let bound := bindParams (valueIn eval null) ctx (m.bindings args)
  (render m.body bound, restoreScope bound (saveScope ctx m.params))

/-- Parameters bound to the values that their expressions have in the scope of the caller. -/
def bindInCaller (value : Scope V → Option E → V) (ctx : Scope V)
    (bs : List (String × Option E)) : Scope V :=
  bs.foldl (fun bound b => bound.set b.1 (value ctx b.2)) ctx

theorem find_set (k k' : String) (v : V) (ctx : Scope V) :
    assocFind k (ctx.set k' v) = if k' = k then some v else assocFind k ctx :=
  assocFind_assocUpdate k k' v _ ctx

theorem find_erase (k k' : String) (ctx : Scope V) :
    assocFind k (ctx.erase k') = if k' = k then none else assocFind k ctx := by
  induction ctx with
  | nil => exact (ite_self _).symm
  | cons m ctx ih =>
    unfold Scope.erase at ih ⊢
    rw [filter_cons]
    split
    · rw [assocFind, ih, assocFind]
      grind
    · rw [ih, assocFind]
      grind

theorem find_put (k k' : String) (v : Option V) (ctx : Scope V) :
    assocFind k (ctx.put k' v) = if k' = k then v else assocFind k ctx := by
  cases v with
  | none => exact find_erase k k' ctx
  | some v => exact find_set k k' v ctx

/-- The names that were saved have their old values again, and the others are as they were. -/
theorem find_restoreScope (k : String) (ctx : Scope V) (names : List String) (bound : Scope V) :
    assocFind k (restoreScope bound (saveScope ctx names)) =
      if k ∈ names then assocFind k ctx else assocFind k bound := by
  induction names generalizing bound with
  | nil => rfl
  | cons n names ih =>
    refine (ih _).trans ?_
    rw [find_put]
    by_cases hk : n = k
    · rw [hk, if_pos rfl, ite_self, if_pos mem_cons_self]
    · simp only [if_neg hk, mem_cons, Ne.symm hk, false_or]

theorem map_fst_bindings (m : MacroBinding E B) (args : List (CallArg E)) :
    (m.bindings args).map Prod.fst = m.params := by
  simp [MacroBinding.bindings, Function.comp_def]

variable {value : Scope V → Option E → V} {ctx : Scope V} {p : String} {e : Option E}
  {bs before after : List (String × Option E)}

theorem find_bindParams_of_notMem (h : p ∉ bs.map Prod.fst) :
    assocFind p (bindParams value ctx bs) = assocFind p ctx := by
  induction bs generalizing ctx with
  | nil => rfl
  | cons b bs ih =>
    rw [map_cons, mem_cons, not_or] at h
    exact (ih h.2).trans ((find_set ..).trans (if_neg (Ne.symm h.1)))

/-- A parameter has the value that its expression had when its turn came. -/
theorem find_bindParams (h : p ∉ after.map Prod.fst) :
    assocFind p (bindParams value ctx (before ++ (p, e) :: after)) =
      some (value (bindParams value ctx before) e) := by
  rw [bindParams, foldl_append, foldl_cons, ← bindParams]
  exact (find_bindParams_of_notMem h).trans ((find_set ..).trans (if_pos rfl))

/-- Where every expression keeps its value, the loop binds as in the scope of the caller. -/
theorem bindParams_eq (h : ∀ before p e after, bs = before ++ (p, e) :: after →
      value (bindParams value ctx before) e = value ctx e ∨
        value (bindInCaller value ctx before) e = value ctx e) :
    bindParams value ctx bs = bindInCaller value ctx bs := by
  induction bs using List.reverseRecOn with
  | nil => rfl
  | append_singleton bs b ih =>
    have hbefore : bindParams value ctx bs = bindInCaller value ctx bs :=
      ih fun before p e after heq => h before p e (after ++ [b]) (by simp [heq])
    have hlast := h bs b.1 b.2 [] rfl
    rw [hbefore, or_self] at hlast
    rw [bindParams, bindInCaller, foldl_concat, foldl_concat, ← bindParams, ← bindInCaller, hbefore,
      hlast]

/-- After a call the caller's scope is as before. In the body every parameter has the value of its
expression for the caller exactly if no value changes when the parameters before it are bound. -/
theorem callMacro_scope_and_values (eval : E → Scope V → V) (null : V)
    (render : B → Scope V → String) (m : MacroBinding E B) (args : List (CallArg E))
    (ctx : Scope V) :
    let value := valueIn eval null
    (∀ k, assocFind k (callMacro eval null render m args ctx).2 = assocFind k ctx) ∧
    ((∀ b ∈ m.bindings args,
        assocFind b.1 (bindParams value ctx (m.bindings args)) = some (value ctx b.2)) ↔
      ∀ before p e after, m.bindings args = before ++ (p, e) :: after →
        value (bindInCaller value ctx before) e = value ctx e) := by
  intro value
  have hnames := map_fst_bindings m args
  have hturn {before p e after} (heq : m.bindings args = before ++ (p, e) :: after) :
      assocFind p (bindParams value ctx (m.bindings args)) =
        some (value (bindParams value ctx before) e) := by
    have hnodup := m.nodup
    rw [← hnames, heq, map_append, map_cons] at hnodup
    rw [heq]
    exact find_bindParams (nodup_cons.mp (nodup_append.mp hnodup).2.1).1
  refine ⟨fun k => ?_, fun h => ?_, fun h b hb => ?_⟩
  · rw [callMacro, find_restoreScope]
    split
    · rfl
    · exact find_bindParams_of_notMem (hnames ▸ by assumption)
  · have hcode before p e after (heq : m.bindings args = before ++ (p, e) :: after) :
        value (bindParams value ctx before) e = value ctx e :=
      Option.some.inj ((hturn heq).symm.trans (h (p, e) (by simp [heq])))
    intro before p e after heq
    have hbefore : bindParams value ctx before = bindInCaller value ctx before := by
      refine bindParams_eq fun pre q e' post hpre => .inl ?_
      exact hcode pre q e' (post ++ (p, e) :: after) (by simp [heq, hpre])
    rw [← hbefore, hcode before p e after heq]
  obtain ⟨before, after, heq⟩ := append_of_mem hb
  have hbefore : bindParams value ctx before = bindInCaller value ctx before := by
    refine bindParams_eq fun pre q e post hpre => .inr ?_
    exact h pre q e (post ++ b :: after) (by simp [heq, hpre])
  rw [hturn heq, hbefore, h before b.1 b.2 after heq]

/-- `m(b, a)` where the caller has `a` and `b`: both parameters get the value of `b`. -/
theorem bindParams_swapped :
    let m : MacroBinding String Unit := ⟨["a", "b"], [], (), by decide⟩
    let args : List (CallArg String) := [⟨none, some "b"⟩, ⟨none, some "a"⟩]
    let value := valueIn (fun e ctx => (assocFind e ctx).getD 0) 0
    let bound := bindParams value [("a", 1), ("b", 2)] (m.bindings args)
    assocFind "a" bound = some 2 ∧ assocFind "b" bound = some 2 := by
  decide

end Conflux.Template
