import L2.Bootstrap.LinkSymbols
import L2.Scope.Occurrences

/-!
# What linking binds

`link_symbols` binds every symbol to the innermost binding that is visible where it stands:
its environment lists are those of the constructs around the symbol.
-/

namespace L2.Bootstrap

open Scope (Name Binding BinderType Expr Construct Path bindSymbols bindArguments)

/-- The environment that the calls for an expression are passed. -/
def environmentOf (globals : List Binding) (path : Path) : Environment where
  staticBindings := path.staticBindings globals
  dynamicBindings := path.dynamicBindings

theorem prependBindings_eq (bndgs bindings : List Binding) :
    prependBindings bndgs bindings = bndgs.reverse ++ bindings := by
  unfold prependBindings
  rw [List.foldl_flip_cons_eq_append']

/-- Entering a construct that is no function. -/
theorem environmentOf_extend {globals : List Binding} {c : Construct} {path : Path}
    (hc : c.type ≠ .function) :
    (environmentOf globals path).extend path.frame.isNone c.bindings =
      environmentOf globals (c :: path) := by
  unfold environmentOf
  rw [Path.staticBindings_cons, Path.dynamicBindings_cons, if_neg hc, if_neg hc]
  cases hframe : path.frame with
  | none =>
    rw [Option.isNone_none, Environment.extend_true, if_pos rfl, if_pos rfl,
      Path.dynamicBindings_eq_nil hframe, prependBindings_eq]
  | some f =>
    rw [Option.isNone_some, Environment.extend_false, if_neg (Option.some_ne_none f),
      if_neg (Option.some_ne_none f), prependBindings_eq]

/-- Entering a function. -/
theorem environmentOf_enter {globals : List Binding} {c : Construct} {path : Path}
    (hc : c.type = .function) :
    (environmentOf globals path).enter c.referenceBinding c.parameterBindings =
      environmentOf globals (c :: path) := by
  unfold environmentOf Environment.enter
  rw [Path.staticBindings_cons, Path.dynamicBindings_cons, if_pos hc, if_pos hc,
    prependBindings_eq, List.append_nil]

/-- The undefined bindings that have been found: those of unknown names. -/
def Undefined (bindings : List Binding) : Prop :=
  ∀ bndg ∈ bindings, ∃ name, bndg = .undefined name

/-- A symbol gets what is visible where it stands. -/
theorem linkSymbol_eq {globals undefinedBindings : List Binding} {path : Path} (name : Name)
    (h : Undefined undefinedBindings) :
    (linkSymbol name undefinedBindings (environmentOf globals path)).1 =
        path.resolve globals name ∧
      Undefined (linkSymbol name undefinedBindings (environmentOf globals path)).2 := by
  unfold linkSymbol Path.resolve assignBinding environmentOf
  rw [List.find?_append]
  cases path.dynamicBindings.find? (fun bndg => bndg.name = some name) with
  | some bndg => exact ⟨rfl, h⟩
  | none => cases (path.staticBindings globals).find? (fun bndg => bndg.name = some name) with
    | some bndg => exact ⟨rfl, h⟩
    | none => cases hfind : undefinedBindings.find? (fun bndg => bndg.name = some name) with
      | some bndg =>
        obtain ⟨other, hother⟩ := h bndg (List.mem_of_find?_eq_some hfind)
        have hname : bndg.name = some name := by
          simpa using List.find?_some hfind
        rw [hother] at hname
        have heq : other = name := Option.some.inj hname
        rw [hother, heq]
        exact ⟨rfl, h⟩
      | none =>
        refine ⟨rfl, ?_⟩
        intro bndg hbndg
        rcases List.mem_cons.mp hbndg with rfl | hmem
        · exact ⟨name, rfl⟩
        · exact h bndg hmem

/-- A construct around an answer. -/
theorem answer_map {α β : Type} {answer : α × List Binding} {a : α} (f : α → β)
    (h : answer.1 = a ∧ Undefined answer.2) :
    (f answer.1, answer.2).1 = f a ∧ Undefined (f answer.1, answer.2).2 :=
  ⟨congrArg f h.1, h.2⟩

mutual

theorem linkSymbols_eq (globals : List Binding) (path : Path) {undefinedBindings : List Binding}
    (h : Undefined undefinedBindings) : ∀ e : Expr,
    (linkSymbols path.frame.isNone undefinedBindings (environmentOf globals path) e).1 =
        bindSymbols globals path e ∧
      Undefined
        (linkSymbols path.frame.isNone undefinedBindings (environmentOf globals path) e).2
  | .literal _ => ⟨rfl, h⟩
  | .linked _ => ⟨rfl, h⟩
  | .symbol name => answer_map Expr.linked (linkSymbol_eq name h)
  | .function id reference parameters expression => by
    let c : Construct := ⟨.function, id, reference, parameters⟩
    have hbody := linkSymbols_eq globals (c :: path) h expression
    rw [← environmentOf_enter rfl] at hbody
    exact answer_map (Expr.function id reference parameters) hbody
  | .continuation id reference parameters expression => by
    let c : Construct := ⟨.continuation, id, reference, parameters⟩
    have hc : c.type ≠ .function := BinderType.noConfusion
    have hbody := linkSymbols_eq globals (c :: path) h expression
    rw [← environmentOf_extend hc, Path.frame_cons hc] at hbody
    exact answer_map (Expr.continuation id reference parameters) hbody
  | .withExpr id reference expression => by
    let c : Construct := ⟨.withExpr, id, reference, [none]⟩
    have hc : c.type ≠ .function := BinderType.noConfusion
    have hbody := linkSymbols_eq globals (c :: path) h expression
    rw [← environmentOf_extend hc, Path.frame_cons hc] at hbody
    exact answer_map (Expr.withExpr id reference) hbody
  | .storage id reference arguments => by
    let c : Construct := ⟨.storage, id, reference, []⟩
    have hc : c.type ≠ .function := BinderType.noConfusion
    have hbody := linkArguments_eq globals (c :: path) h arguments
    rw [← environmentOf_extend hc, Path.frame_cons hc] at hbody
    exact answer_map (Expr.storage id reference) hbody
  | .ifExpr condition consequent alternate => by
    obtain ⟨hcondition, h₁⟩ := linkSymbols_eq globals path h condition
    obtain ⟨hconsequent, h₂⟩ := linkSymbols_eq globals path h₁ consequent
    obtain ⟨halternate, h₃⟩ := linkSymbols_eq globals path h₂ alternate
    refine ⟨?_, h₃⟩
    show Expr.ifExpr _ _ _ = Expr.ifExpr _ _ _
    rw [hcondition, hconsequent, halternate]
  | .invoke reference arguments => by
    obtain ⟨hreference, h₁⟩ := linkSymbols_eq globals path h reference
    obtain ⟨harguments, h₂⟩ := linkArguments_eq globals path h₁ arguments
    refine ⟨?_, h₂⟩
    show Expr.invoke _ _ = Expr.invoke _ _
    rw [hreference, harguments]
  | .jump id reference arguments => by
    obtain ⟨hreference, h₁⟩ := linkSymbols_eq globals path h reference
    obtain ⟨harguments, h₂⟩ := linkArguments_eq globals path h₁ arguments
    refine ⟨?_, h₂⟩
    show Expr.jump _ _ _ = Expr.jump _ _ _
    rw [hreference, harguments]
  | .constrain expression => answer_map Expr.constrain (linkSymbols_eq globals path h expression)

theorem linkArguments_eq (globals : List Binding) (path : Path)
    {undefinedBindings : List Binding} (h : Undefined undefinedBindings) : ∀ arguments : List Expr,
    (linkArguments path.frame.isNone undefinedBindings (environmentOf globals path)
        arguments).1 = bindArguments globals path arguments ∧
      Undefined (linkArguments path.frame.isNone undefinedBindings
        (environmentOf globals path) arguments).2
  | [] => ⟨rfl, h⟩
  | u :: arguments => by
    obtain ⟨hu, h₁⟩ := linkSymbols_eq globals path h u
    obtain ⟨harguments, h₂⟩ := linkArguments_eq globals path h₁ arguments
    refine ⟨?_, h₂⟩
    show _ :: _ = _ :: _
    rw [hu, harguments]

end

/-- Linking a program is binding its symbols. -/
theorem linkProgram_eq (exprs : List Expr) :
    (linkProgram exprs).1 = bindArguments (globalBindingAugsOf exprs) [] exprs := by
  have hnil : Undefined [] := fun bndg hbndg => absurd hbndg List.not_mem_nil
  exact (linkArguments_eq (globalBindingAugsOf exprs) [] hnil exprs).1

end L2.Bootstrap
