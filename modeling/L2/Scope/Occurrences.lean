import L2.Scope.Expression

/-!
# Scopes

Where an expression stands: the constructs around it, and which of their bindings it can
see.  A function sees nothing of what surrounds it but the references of the functions
around it and, outside all of these, the top-level expression it is nested in: what is
bound there has static storage.
-/

namespace L2.Scope

/-- An expression that introduces bindings, without its subexpressions. -/
structure Construct where
  type : BinderType
  id : ExprId
  reference : Option Name
  parameters : List (Option Name)

namespace Construct

def referenceBinding (c : Construct) : Binding := .reference c.reference c.type c.id

def parameterBindings (c : Construct) : List Binding :=
  Scope.parameterBindings c.type c.id c.parameters

/-- The bindings in the order in which they come into scope. -/
def bindings (c : Construct) : List Binding := c.referenceBinding :: c.parameterBindings

end Construct

/-- The constructs around an expression, the innermost first. -/
abbrev Path := List Construct

namespace Path

/-- The function whose body an expression is in; none outside every function. -/
def frame : Path → Option ExprId
  | [] => none
  | c :: path => if c.type = .function then some c.id else frame path

/-- What is bound between an expression and the function around it. -/
def dynamicBindings : Path → List Binding
  | [] => []
  | c :: path =>
    if c.type = .function then c.parameterBindings.reverse
    else if frame path = none then []
    else c.bindings.reverse ++ dynamicBindings path

/-- The references of the functions around an expression, and what is bound outside all of
these. -/
def staticBindings (globals : List Binding) : Path → List Binding
  | [] => globals
  | c :: path =>
    if c.type = .function then c.referenceBinding :: staticBindings globals path
    else if frame path = none then c.bindings.reverse ++ staticBindings globals path
    else staticBindings globals path

/-- The innermost visible binding of a name. -/
def resolve (globals : List Binding) (path : Path) (name : Name) : Binding :=
  ((dynamicBindings path ++ staticBindings globals path).find?
    (fun bndg => bndg.name = some name)).getD (.undefined name)

@[simp] theorem frame_nil : frame [] = none := rfl

theorem frame_function {c : Construct} (h : c.type = .function) (path : Path) :
    frame (c :: path) = some c.id := if_pos h

theorem frame_cons {c : Construct} (h : c.type ≠ .function) (path : Path) :
    frame (c :: path) = frame path := if_neg h

theorem dynamicBindings_cons (c : Construct) (path : Path) :
    dynamicBindings (c :: path) =
      if c.type = .function then c.parameterBindings.reverse
      else if frame path = none then []
      else c.bindings.reverse ++ dynamicBindings path := rfl

theorem staticBindings_cons (globals : List Binding) (c : Construct) (path : Path) :
    staticBindings globals (c :: path) =
      if c.type = .function then c.referenceBinding :: staticBindings globals path
      else if frame path = none then c.bindings.reverse ++ staticBindings globals path
      else staticBindings globals path := rfl

/-- Outside every function nothing is dynamic. -/
theorem dynamicBindings_eq_nil {path : Path} (h : frame path = none) :
    dynamicBindings path = [] := by
  cases path with
  | nil => rfl
  | cons c path =>
    by_cases hc : c.type = .function
    · rw [frame_function hc] at h
      exact absurd h (by simp)
    · rw [frame_cons hc] at h
      rw [dynamicBindings_cons, if_neg hc, if_pos h]

/-- A dynamic binding is that of a construct in the same function body, or a parameter of
the function. -/
theorem exists_of_mem_dynamicBindings {path : Path} {type : BinderType} {name : Option Name}
    {id : ExprId} (h : .reference name type id ∈ dynamicBindings path) :
    ∃ inner c outer, path = inner ++ c :: outer ∧ c.type = type ∧ c.id = id ∧
      c.type ≠ .function ∧ frame outer = frame path := by
  induction path with
  | nil => exact absurd h List.not_mem_nil
  | cons c path ih =>
    rw [dynamicBindings_cons] at h
    by_cases hc : c.type = .function
    · rw [if_pos hc, List.mem_reverse] at h
      unfold Construct.parameterBindings Scope.parameterBindings at h
      simp at h
    · rw [if_neg hc] at h
      by_cases hframe : frame path = none
      · rw [if_pos hframe] at h
        exact absurd h List.not_mem_nil
      · rw [if_neg hframe] at h
        rcases List.mem_append.mp h with hmem | hmem
        · rw [List.mem_reverse] at hmem
          unfold Construct.bindings Construct.parameterBindings Scope.parameterBindings
            Construct.referenceBinding at hmem
          simp at hmem
          exact ⟨[], c, path, rfl, hmem.2.1.symm, hmem.2.2.symm, hc, (frame_cons hc path).symm⟩
        · obtain ⟨inner, d, outer, rfl, htype, hid, hd, houter⟩ := ih hmem
          exact ⟨c :: inner, d, outer, rfl, htype, hid, hd, houter.trans (frame_cons hc _).symm⟩

/-- A static binding that is no function's reference and not global belongs to a construct
outside every function. -/
theorem exists_of_mem_staticBindings {globals : List Binding} {path : Path} {type : BinderType}
    {name : Option Name} {id : ExprId} (htype : type ≠ .function)
    (h : .reference name type id ∈ staticBindings globals path) :
    .reference name type id ∈ globals ∨
      ∃ inner c outer, path = inner ++ c :: outer ∧ c.type = type ∧ c.id = id ∧
        frame outer = none := by
  induction path with
  | nil => exact Or.inl h
  | cons c path ih =>
    have hrest : .reference name type id ∈ staticBindings globals path →
        .reference name type id ∈ globals ∨
          ∃ inner d outer, c :: path = inner ++ d :: outer ∧ d.type = type ∧ d.id = id ∧
            frame outer = none := by
      intro hmem
      rcases ih hmem with hglobal | ⟨inner, d, outer, rfl, hd, hid, houter⟩
      · exact Or.inl hglobal
      · exact Or.inr ⟨c :: inner, d, outer, rfl, hd, hid, houter⟩
    rw [staticBindings_cons] at h
    by_cases hc : c.type = .function
    · rw [if_pos hc] at h
      rcases List.mem_cons.mp h with heq | hmem
      · unfold Construct.referenceBinding at heq
        simp only [Binding.reference.injEq] at heq
        exact absurd (heq.2.1.trans hc) htype
      · exact hrest hmem
    · rw [if_neg hc] at h
      by_cases hframe : frame path = none
      · rw [if_pos hframe] at h
        rcases List.mem_append.mp h with hmem | hmem
        · rw [List.mem_reverse] at hmem
          unfold Construct.bindings Construct.parameterBindings Scope.parameterBindings
            Construct.referenceBinding at hmem
          simp at hmem
          exact Or.inr ⟨[], c, path, rfl, hmem.2.1.symm, hmem.2.2.symm, hframe⟩
        · exact hrest hmem
      · rw [if_neg hframe] at h
        exact hrest h

end Path

/-! ## Occurrences -/

/-- An expression at its place.  `jumpedBy` is the jump that it is the reference of. -/
structure Occurrence where
  path : Path
  jumpedBy : Option ExprId
  expr : Expr

/-- An expression that is evaluated for its value. -/
def Occurrence.value (path : Path) (e : Expr) : Occurrence := ⟨path, none, e⟩

mutual

/-- The expression and what is in it. -/
def occurrences (path : Path) (jumpedBy : Option ExprId) : Expr → List Occurrence
  | .literal value => [⟨path, jumpedBy, .literal value⟩]
  | .symbol name => [⟨path, jumpedBy, .symbol name⟩]
  | .linked bndg => [⟨path, jumpedBy, .linked bndg⟩]
  | .storage id reference arguments =>
    ⟨path, jumpedBy, .storage id reference arguments⟩ ::
      argumentOccurrences (⟨.storage, id, reference, []⟩ :: path) arguments
  | .function id reference parameters expression =>
    ⟨path, jumpedBy, .function id reference parameters expression⟩ ::
      occurrences (⟨.function, id, reference, parameters⟩ :: path) none expression
  | .continuation id reference parameters expression =>
    ⟨path, jumpedBy, .continuation id reference parameters expression⟩ ::
      occurrences (⟨.continuation, id, reference, parameters⟩ :: path) none expression
  | .withExpr id reference expression =>
    ⟨path, jumpedBy, .withExpr id reference expression⟩ ::
      occurrences (⟨.withExpr, id, reference, [none]⟩ :: path) none expression
  | .invoke reference arguments =>
    ⟨path, jumpedBy, .invoke reference arguments⟩ ::
      (occurrences path none reference ++ argumentOccurrences path arguments)
  | .jump id reference arguments =>
    ⟨path, jumpedBy, .jump id reference arguments⟩ ::
      (occurrences path (some id) reference ++ argumentOccurrences path arguments)
  | .ifExpr condition consequent alternate =>
    ⟨path, jumpedBy, .ifExpr condition consequent alternate⟩ ::
      (occurrences path none condition ++ occurrences path none consequent ++
        occurrences path none alternate)
  | .constrain expression =>
    ⟨path, jumpedBy, .constrain expression⟩ :: occurrences path none expression

def argumentOccurrences (path : Path) : List Expr → List Occurrence
  | [] => []
  | u :: arguments => occurrences path none u ++ argumentOccurrences path arguments

end

/-- The expressions of a program. -/
def programOccurrences (exprs : List Expr) : List Occurrence := argumentOccurrences [] exprs

namespace Expr

/-- What an expression introduces. -/
def construct? : Expr → Option Construct
  | .storage id reference _ => some ⟨.storage, id, reference, []⟩
  | .function id reference parameters _ => some ⟨.function, id, reference, parameters⟩
  | .continuation id reference parameters _ => some ⟨.continuation, id, reference, parameters⟩
  | .withExpr id reference _ => some ⟨.withExpr, id, reference, [none]⟩
  | _ => none

/-- The address of an expression that is pointed to. -/
def id? : Expr → Option ExprId
  | .jump id _ _ => some id
  | e => e.construct?.map Construct.id

theorem id?_of_construct? {e : Expr} {c : Construct} (h : e.construct? = some c) :
    e.id? = some c.id := by
  cases e with
  | jump id reference arguments => exact absurd h (by simp [construct?])
  | _ => simp only [id?, h, Option.map_some]

/-- The direct subexpressions of an expression at their places. -/
def children (path : Path) : Expr → List Occurrence
  | .storage id reference arguments =>
    arguments.map (Occurrence.value (⟨.storage, id, reference, []⟩ :: path))
  | .function id reference parameters expression =>
    [.value (⟨.function, id, reference, parameters⟩ :: path) expression]
  | .continuation id reference parameters expression =>
    [.value (⟨.continuation, id, reference, parameters⟩ :: path) expression]
  | .withExpr id reference expression =>
    [.value (⟨.withExpr, id, reference, [none]⟩ :: path) expression]
  | .invoke reference arguments =>
    .value path reference :: arguments.map (Occurrence.value path)
  | .jump id reference arguments =>
    ⟨path, some id, reference⟩ :: arguments.map (Occurrence.value path)
  | .ifExpr condition consequent alternate =>
    [.value path condition, .value path consequent, .value path alternate]
  | .constrain expression => [.value path expression]
  | _ => []

/-- A subexpression sees one construct more than the expression, if that is one. -/
theorem path_of_mem_children {path : Path} {e : Expr} {o : Occurrence}
    (h : o ∈ e.children path) : o.path = e.construct?.toList ++ path := by
  have harguments : ∀ {path : Path} {arguments : List Expr},
      o ∈ arguments.map (Occurrence.value path) → o.path = path := by
    intro path arguments hmem
    obtain ⟨u, -, rfl⟩ := List.mem_map.mp hmem
    rfl
  cases e with
  | storage id reference arguments => exact harguments h
  | invoke reference arguments | jump id reference arguments =>
    rcases List.mem_cons.mp h with rfl | h
    · rfl
    · exact harguments h
  | ifExpr condition consequent alternate =>
    simp only [children, List.mem_cons, List.not_mem_nil, or_false] at h
    rcases h with rfl | rfl | rfl <;> rfl
  | literal _ | symbol _ | linked _ => exact absurd h List.not_mem_nil
  | _ =>
    rw [List.mem_singleton.mp h]
    rfl

end Expr

theorem argumentOccurrences_eq_flatMap (path : Path) (arguments : List Expr) :
    argumentOccurrences path arguments =
      (arguments.map (Occurrence.value path)).flatMap
        (fun o => occurrences o.path o.jumpedBy o.expr) := by
  induction arguments with
  | nil => rfl
  | cons u arguments ih =>
    unfold argumentOccurrences
    rw [ih]
    rfl

/-- An expression occurs itself; everything else occurs below a direct subexpression. -/
theorem occurrences_eq (path : Path) (jumpedBy : Option ExprId) (e : Expr) :
    occurrences path jumpedBy e =
      ⟨path, jumpedBy, e⟩ ::
        (e.children path).flatMap (fun o => occurrences o.path o.jumpedBy o.expr) := by
  cases e <;> simp [occurrences, Expr.children, argumentOccurrences_eq_flatMap,
    Occurrence.value]

theorem mem_occurrences_self (path : Path) (jumpedBy : Option ExprId) (e : Expr) :
    ⟨path, jumpedBy, e⟩ ∈ occurrences path jumpedBy e := by
  rw [occurrences_eq]
  exact List.mem_cons_self

theorem mem_occurrences_of_mem_children {path : Path} {jumpedBy : Option ExprId} {e : Expr}
    {o x : Occurrence} (ho : o ∈ e.children path)
    (hx : x ∈ occurrences o.path o.jumpedBy o.expr) : x ∈ occurrences path jumpedBy e := by
  rw [occurrences_eq]
  exact List.mem_cons_of_mem _ (List.mem_flatMap.mpr ⟨o, ho, hx⟩)

theorem sizeOf_lt_of_mem_children {path : Path} {e : Expr} {o : Occurrence}
    (h : o ∈ e.children path) : sizeOf o.expr < sizeOf e := by
  have harguments : ∀ {path : Path} {arguments : List Expr},
      o ∈ arguments.map (Occurrence.value path) → sizeOf o.expr < sizeOf arguments := by
    intro path arguments hmem
    obtain ⟨u, hu, rfl⟩ := List.mem_map.mp hmem
    exact List.sizeOf_lt_of_mem hu
  cases e <;> simp only [Expr.children, List.mem_cons, List.not_mem_nil, or_false] at h
  case storage =>
    have := harguments h
    simp only [Expr.storage.sizeOf_spec]
    omega
  case invoke | jump =>
    simp only [Expr.invoke.sizeOf_spec, Expr.jump.sizeOf_spec]
    rcases h with rfl | h
    · dsimp only [Occurrence.value]
      omega
    · have := harguments h
      omega
  case ifExpr =>
    simp only [Expr.ifExpr.sizeOf_spec]
    rcases h with rfl | rfl | rfl <;> dsimp only [Occurrence.value] <;> omega
  all_goals
    rw [h]
    simp only [Occurrence.value, Expr.function.sizeOf_spec, Expr.continuation.sizeOf_spec,
      Expr.withExpr.sizeOf_spec, Expr.constrain.sizeOf_spec]
    omega

/-- What holds of an expression and, with it, of one of which it is a direct subexpression,
holds of all that occurs in it. -/
theorem occurrences_induction {P : Occurrence → Occurrence → Prop} (hself : ∀ o, P o o)
    (hchild : ∀ path jumpedBy e o x, o ∈ e.children path →
      x ∈ occurrences o.path o.jumpedBy o.expr → P o x → P ⟨path, jumpedBy, e⟩ x)
    (path : Path) (jumpedBy : Option ExprId) (e : Expr) {x : Occurrence}
    (hx : x ∈ occurrences path jumpedBy e) : P ⟨path, jumpedBy, e⟩ x := by
  rw [occurrences_eq] at hx
  rcases List.mem_cons.mp hx with rfl | hmem
  · exact hself _
  · obtain ⟨o, ho, hox⟩ := List.mem_flatMap.mp hmem
    exact hchild path jumpedBy e o x ho hox
      (occurrences_induction hself hchild o.path o.jumpedBy o.expr hox)
termination_by sizeOf e
decreasing_by exact sizeOf_lt_of_mem_children ho

/-- The constructs around what occurs in an expression occur themselves, each with the
constructs around it. -/
theorem exists_construct_of_mem_occurrences (path : Path) (jumpedBy : Option ExprId) (e : Expr)
    {x : Occurrence} (hx : x ∈ occurrences path jumpedBy e) :
    ∃ inner, x.path = inner ++ path ∧ ∀ l c outer, inner = l ++ c :: outer →
      ∃ y ∈ occurrences path jumpedBy e, y.path = outer ++ path ∧ y.expr.construct? = some c := by
  refine occurrences_induction (P := fun o x => ∃ inner, x.path = inner ++ o.path ∧
    ∀ l c outer, inner = l ++ c :: outer → ∃ y ∈ occurrences o.path o.jumpedBy o.expr,
      y.path = outer ++ o.path ∧ y.expr.construct? = some c) ?_ ?_ path jumpedBy e hx
  · intro o
    refine ⟨[], rfl, ?_⟩
    intro l c outer h
    exact absurd h (by simp)
  · rintro path jumpedBy e o x ho - ⟨inner, hpath, hinner⟩
    have hopath := Expr.path_of_mem_children ho
    refine ⟨inner ++ e.construct?.toList, by rw [hpath, hopath, List.append_assoc], ?_⟩
    intro l c outer hl
    cases hconstruct : e.construct? with
    | none =>
      rw [hconstruct, Option.toList_none, List.append_nil] at hl
      obtain ⟨y, hy, hypath, hyc⟩ := hinner l c outer hl
      rw [hconstruct] at hopath
      exact ⟨y, mem_occurrences_of_mem_children ho hy, by rw [hypath, hopath]; rfl, hyc⟩
    | some d =>
      rw [hconstruct, Option.toList_some] at hl hopath
      rcases List.eq_nil_or_concat outer with rfl | ⟨outer, z, rfl⟩
      · -- the construct is the expression itself
        have hd : d = c := by
          have hlast := congrArg List.getLast? hl
          simpa using hlast
        subst hd
        exact ⟨⟨path, jumpedBy, e⟩, mem_occurrences_self path jumpedBy e, rfl, hconstruct⟩
      · rw [List.concat_eq_append] at hl ⊢
        rw [← List.cons_append, ← List.append_assoc] at hl
        obtain ⟨hl, hz⟩ := List.append_inj' hl rfl
        obtain ⟨y, hy, hypath, hyc⟩ := hinner l c outer hl
        refine ⟨y, mem_occurrences_of_mem_children ho hy, ?_, hyc⟩
        rw [hypath, hopath, ← hz, List.append_assoc]

/-- The same for a whole program. -/
theorem exists_construct_of_mem_programOccurrences {exprs : List Expr} {x : Occurrence}
    (hx : x ∈ programOccurrences exprs) {inner outer : Path} {c : Construct}
    (hpath : x.path = inner ++ c :: outer) :
    ∃ y ∈ programOccurrences exprs, y.path = outer ∧ y.expr.construct? = some c := by
  unfold programOccurrences at hx ⊢
  rw [argumentOccurrences_eq_flatMap] at hx ⊢
  obtain ⟨o, ho, hox⟩ := List.mem_flatMap.mp hx
  have hnil : o.path = [] := by
    obtain ⟨u, -, rfl⟩ := List.mem_map.mp ho
    rfl
  obtain ⟨all, hall, hconstruct⟩ :=
    exists_construct_of_mem_occurrences o.path o.jumpedBy o.expr hox
  rw [hnil, List.append_nil] at hall
  obtain ⟨y, hy, hypath, hyc⟩ := hconstruct inner c outer (hall.symm.trans hpath)
  rw [hnil, List.append_nil] at hypath
  exact ⟨y, List.mem_flatMap.mpr ⟨o, ho, hy⟩, hypath, hyc⟩

/-! ## Binding every symbol -/

mutual
/-- The expression with every symbol bound to the innermost binding that it can see. -/
def bindSymbols (globals : List Binding) (path : Path) : Expr → Expr
  | .literal value => .literal value
  | .symbol name => .linked (path.resolve globals name)
  | .linked bndg => .linked bndg
  | .storage id reference arguments =>
    .storage id reference
      (bindArguments globals (⟨.storage, id, reference, []⟩ :: path) arguments)
  | .function id reference parameters expression =>
    .function id reference parameters
      (bindSymbols globals (⟨.function, id, reference, parameters⟩ :: path) expression)
  | .continuation id reference parameters expression =>
    .continuation id reference parameters
      (bindSymbols globals (⟨.continuation, id, reference, parameters⟩ :: path) expression)
  | .withExpr id reference expression =>
    .withExpr id reference
      (bindSymbols globals (⟨.withExpr, id, reference, [none]⟩ :: path) expression)
  | .invoke reference arguments =>
    .invoke (bindSymbols globals path reference) (bindArguments globals path arguments)
  | .jump id reference arguments =>
    .jump id (bindSymbols globals path reference) (bindArguments globals path arguments)
  | .ifExpr condition consequent alternate =>
    .ifExpr (bindSymbols globals path condition) (bindSymbols globals path consequent)
      (bindSymbols globals path alternate)
  | .constrain expression => .constrain (bindSymbols globals path expression)

def bindArguments (globals : List Binding) (path : Path) : List Expr → List Expr
  | [] => []
  | u :: arguments => bindSymbols globals path u :: bindArguments globals path arguments

end

/-- An occurrence after binding. -/
def Occurrence.bind (globals : List Binding) (o : Occurrence) : Occurrence :=
  { o with expr := bindSymbols globals o.path o.expr }

mutual

/-- Binding changes the symbols and moves nothing. -/
theorem occurrences_bindSymbols (globals : List Binding) (path : Path)
    (jumpedBy : Option ExprId) : ∀ e : Expr,
    occurrences path jumpedBy (bindSymbols globals path e) =
      (occurrences path jumpedBy e).map (Occurrence.bind globals)
  | .literal _ => rfl
  | .symbol _ => rfl
  | .linked _ => rfl
  | .storage _ _ arguments =>
    congrArg (_ :: ·) (argumentOccurrences_bindArguments globals _ arguments)
  | .function _ _ _ expression =>
    congrArg (_ :: ·) (occurrences_bindSymbols globals _ none expression)
  | .continuation _ _ _ expression =>
    congrArg (_ :: ·) (occurrences_bindSymbols globals _ none expression)
  | .withExpr _ _ expression =>
    congrArg (_ :: ·) (occurrences_bindSymbols globals _ none expression)
  | .invoke reference arguments => by
    simp only [bindSymbols, occurrences, List.map_cons, List.map_append,
      occurrences_bindSymbols globals path none reference,
      argumentOccurrences_bindArguments globals path arguments]
    rfl
  | .jump id reference arguments => by
    simp only [bindSymbols, occurrences, List.map_cons, List.map_append,
      occurrences_bindSymbols globals path (some id) reference,
      argumentOccurrences_bindArguments globals path arguments]
    rfl
  | .ifExpr condition consequent alternate => by
    simp only [bindSymbols, occurrences, List.map_cons, List.map_append,
      occurrences_bindSymbols globals path none condition,
      occurrences_bindSymbols globals path none consequent,
      occurrences_bindSymbols globals path none alternate]
    rfl
  | .constrain expression =>
    congrArg (_ :: ·) (occurrences_bindSymbols globals _ none expression)

theorem argumentOccurrences_bindArguments (globals : List Binding) (path : Path) :
    ∀ arguments : List Expr, argumentOccurrences path (bindArguments globals path arguments) =
      (argumentOccurrences path arguments).map (Occurrence.bind globals)
  | [] => rfl
  | u :: arguments => by
    simp only [bindArguments, argumentOccurrences, List.map_append,
      occurrences_bindSymbols globals path none u,
      argumentOccurrences_bindArguments globals path arguments]

end

end L2.Scope
