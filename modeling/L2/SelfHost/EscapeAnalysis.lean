import L2.Bootstrap.EscapeAnalysis

/-!
# Escape analysis in the self-hosted compiler

`escape-analysis` also lists the jumps to each continuation.  It marks what that of the
bootstrap compiler marks, and its lists hold all jumps whose targets are known.
-/

namespace L2.SelfHost

open Scope
open Bootstrap (targetOf directTarget)

/-- The fields that `escape-analysis` sets: what escapes, the jumps to each target with
their arguments, and the jumps that are short-circuited, with their targets. -/
structure Marks where
  escapes : List ExprId
  jumps : List (ExprId × ExprId × List Expr)
  shortCircuit : List (ExprId × ExprId)

/-- The list `expr-jumps` of a target. -/
def Marks.jumpsOf (target : ExprId) (m : Marks) : List (ExprId × List Expr) :=
  (m.jumps.filter (fun entry => entry.1 = target)).map Prod.snd

def Marks.escape (escaping : Bool) (target : Option ExprId) (m : Marks) : Marks :=
  if escaping then { m with escapes := target.toList ++ m.escapes } else m

def Marks.recordJump (jump : ExprId) (arguments : List Expr) (target : Option ExprId) (m : Marks) :
    Marks :=
  match target with
  | none => m
  | some target =>
    { m with
      jumps := (target, jump, arguments) :: m.jumps
      shortCircuit := (jump, target) :: m.shortCircuit }

mutual

/-- `escape-analysis` -/
def escapeAnalysis (escaping : Bool) (m : Marks) : Expr → Marks
  | .literal _ => m
  | .symbol _ => m
  | .linked bndg => m.escape escaping (targetOf bndg)
  | .ifExpr condition consequent alternate =>
    escapeAnalysis true (escapeAnalysis true (escapeAnalysis true m condition) consequent) alternate
  | .function _ _ _ expression => escapeAnalysis true m expression
  | .continuation id _ _ expression => escapeAnalysis true (m.escape escaping (some id)) expression
  | .withExpr _ _ expression => escapeAnalysis true m expression
  | .storage _ _ arguments => escapeArguments m arguments
  | .jump id reference arguments =>
    escapeArguments
      (escapeAnalysis false (m.recordJump id arguments (directTarget reference)) reference)
      arguments
  | .invoke reference arguments => escapeArguments (escapeAnalysis true m reference) arguments
  | .constrain expression => escapeAnalysis true m expression

/-- The loops over the arguments. -/
def escapeArguments (m : Marks) : List Expr → Marks
  | [] => m
  | t :: arguments => escapeArguments (escapeAnalysis true m t) arguments

end

/-- The escape analysis of a program. -/
def escapeProgram (exprs : List Expr) : Marks := escapeArguments ⟨[], [], []⟩ exprs

/-! ## What is marked -/

/-- The marks are those of the bootstrap compiler.  They are prepended here, and appended there. -/
structure Marks.Agrees (m : Marks) (m' : Bootstrap.Marks) : Prop where
  escapes : m.escapes = m'.escapes.reverse
  shortCircuit : m.shortCircuit = m'.shortCircuit.reverse

namespace Marks.Agrees

variable {m : Marks} {m' : Bootstrap.Marks}

theorem escape (h : m.Agrees m') (escaping : Bool) (target : Option ExprId) :
    (m.escape escaping target).Agrees (m'.escape escaping target) := by
  unfold Marks.escape Bootstrap.Marks.escape
  cases escaping with
  | false => exact h
  | true =>
    refine ⟨?_, h.shortCircuit⟩
    show target.toList ++ m.escapes = (m'.escapes ++ target.toList).reverse
    rw [List.reverse_append, ← h.escapes]
    cases target <;> rfl

theorem recordJump (h : m.Agrees m') (jump : ExprId) (arguments : List Expr)
    (target : Option ExprId) :
    (m.recordJump jump arguments target).Agrees (m'.setShortCircuit jump target) := by
  unfold Marks.recordJump Bootstrap.Marks.setShortCircuit
  cases target with
  | none =>
    refine ⟨h.escapes, ?_⟩
    show m.shortCircuit = (m'.shortCircuit ++ []).reverse
    rw [List.append_nil, h.shortCircuit]
  | some target =>
    refine ⟨h.escapes, ?_⟩
    show (jump, target) :: m.shortCircuit = (m'.shortCircuit ++ [(jump, target)]).reverse
    rw [List.reverse_append, ← h.shortCircuit]
    rfl

mutual

theorem escapeAnalysis {m : Marks} {m' : Bootstrap.Marks} (h : m.Agrees m') (escaping : Bool) :
    ∀ e : Expr,
      (escapeAnalysis escaping m e).Agrees (Bootstrap.escapeAnalysis escaping m' e)
  | .literal _ => h
  | .symbol _ => h
  | .linked bndg => h.escape escaping (targetOf bndg)
  | .ifExpr condition consequent alternate =>
    ((escapeAnalysis h true condition).escapeAnalysis true consequent).escapeAnalysis true alternate
  | .function _ _ _ expression => escapeAnalysis h true expression
  | .continuation id _ _ expression => (h.escape escaping (some id)).escapeAnalysis true expression
  | .withExpr _ _ expression => escapeAnalysis h true expression
  | .storage _ _ arguments => escapeArguments h arguments
  | .invoke reference arguments => (escapeAnalysis h true reference).escapeArguments arguments
  | .jump id reference arguments =>
    ((h.recordJump id arguments (directTarget reference)).escapeAnalysis false
      reference).escapeArguments arguments
  | .constrain expression => escapeAnalysis h true expression

theorem escapeArguments {m : Marks} {m' : Bootstrap.Marks} (h : m.Agrees m') :
    ∀ arguments : List Expr,
      (escapeArguments m arguments).Agrees (Bootstrap.escapeArguments m' arguments)
  | [] => h
  | t :: arguments => (escapeAnalysis h true t).escapeArguments arguments

end

end Marks.Agrees

/-- The entry for a jump whose target is known. -/
def jumpOf (o : Occurrence) : Option (ExprId × ExprId × List Expr) :=
  match o.expr with
  | .jump id reference arguments =>
      (directTarget reference).map fun target => (target, id, arguments)
  | _ => none

theorem jumps_escape (m : Marks) (escaping : Bool) (target : Option ExprId) :
    (m.escape escaping target).jumps = m.jumps := by
  unfold Marks.escape
  split <;> rfl

theorem jumps_recordJump (m : Marks) (jump : ExprId) (arguments : List Expr)
    (target : Option ExprId) : (m.recordJump jump arguments target).jumps =
      (target.map fun target => (target, jump, arguments)).toList ++ m.jumps := by
  unfold Marks.recordJump
  cases target <;> rfl

/-- What else occurs goes to the front of the list of jumps. -/
def addJumps (l : List Occurrence) (jumps : List (ExprId × ExprId × List Expr)) :
    List (ExprId × ExprId × List Expr) := (l.filterMap jumpOf).reverse ++ jumps

theorem addJumps_append (l l' : List Occurrence) (jumps : List (ExprId × ExprId × List Expr)) :
    addJumps (l ++ l') jumps = addJumps l' (addJumps l jumps) := by
  unfold addJumps
  rw [List.filterMap_append, List.reverse_append, List.append_assoc]

theorem addJumps_cons {o : Occurrence} (h : jumpOf o = none) (l : List Occurrence)
    (jumps : List (ExprId × ExprId × List Expr)) : addJumps (o :: l) jumps = addJumps l jumps := by
  unfold addJumps
  rw [List.filterMap_cons_none h]

theorem addJumps_jump (path : Path) (jumpedBy : Option ExprId) (id : ExprId) (reference : Expr)
    (arguments : List Expr) (l : List Occurrence) (m : Marks) :
    addJumps (⟨path, jumpedBy, .jump id reference arguments⟩ :: l) m.jumps =
      addJumps l (m.recordJump id arguments (directTarget reference)).jumps := by
  rw [jumps_recordJump]
  unfold addJumps
  cases h : directTarget reference with
  | none =>
    rw [List.filterMap_cons_none (by simp [jumpOf, h])]
    rfl
  | some target =>
    rw [List.filterMap_cons_some (b := (target, id, arguments)) (by simp [jumpOf, h]),
      List.reverse_cons, List.append_assoc]
    rfl

mutual

theorem jumps_escapeAnalysis (m : Marks) (path : Path) (jumpedBy : Option ExprId)
    (escaping : Bool) : ∀ e : Expr,
    (escapeAnalysis escaping m e).jumps = addJumps (occurrences path jumpedBy e) m.jumps
  | .literal _ => rfl
  | .symbol _ => rfl
  | .linked bndg => jumps_escape m escaping (targetOf bndg)
  | .ifExpr condition consequent alternate => by
    show (escapeAnalysis true (escapeAnalysis true (escapeAnalysis true m condition) consequent)
      alternate).jumps = addJumps (_ :: (_ ++ _ ++ _)) _
    rw [addJumps_cons rfl, addJumps_append, addJumps_append,
      jumps_escapeAnalysis _ path none true alternate,
      jumps_escapeAnalysis _ path none true consequent,
      jumps_escapeAnalysis m path none true condition]
  | .function id reference parameters expression => by
    show (escapeAnalysis true m expression).jumps = addJumps (_ :: _) _
    rw [addJumps_cons rfl]
    exact jumps_escapeAnalysis m (⟨.function, id, reference, parameters⟩ :: path) none true
      expression
  | .continuation id reference parameters expression => by
    show (escapeAnalysis true (m.escape escaping (some id)) expression).jumps =
      addJumps (_ :: _) _
    rw [addJumps_cons rfl, ← jumps_escape m escaping (some id)]
    exact jumps_escapeAnalysis _ (⟨.continuation, id, reference, parameters⟩ :: path) none true
      expression
  | .withExpr id reference expression => by
    show (escapeAnalysis true m expression).jumps = addJumps (_ :: _) _
    rw [addJumps_cons rfl]
    exact jumps_escapeAnalysis m (⟨.withExpr, id, reference, [none]⟩ :: path) none true expression
  | .storage id reference arguments => by
    show (escapeArguments m arguments).jumps = addJumps (_ :: _) _
    rw [addJumps_cons rfl]
    exact jumps_escapeArguments m (⟨.storage, id, reference, []⟩ :: path) arguments
  | .invoke reference arguments => by
    show (escapeArguments (escapeAnalysis true m reference) arguments).jumps =
      addJumps (_ :: (_ ++ _)) _
    rw [addJumps_cons rfl, addJumps_append, jumps_escapeArguments _ path,
      jumps_escapeAnalysis m path none true reference]
  | .jump id reference arguments => by
    show (escapeArguments (escapeAnalysis false
      (m.recordJump id arguments (directTarget reference)) reference) arguments).jumps =
        addJumps (_ :: (_ ++ _)) _
    rw [addJumps_jump, addJumps_append, jumps_escapeArguments _ path,
      jumps_escapeAnalysis _ path (some id) false reference]
  | .constrain expression => by
    show (escapeAnalysis true m expression).jumps = addJumps (_ :: _) _
    rw [addJumps_cons rfl]
    exact jumps_escapeAnalysis m path none true expression

theorem jumps_escapeArguments (m : Marks) (path : Path) : ∀ arguments : List Expr,
    (escapeArguments m arguments).jumps = addJumps (argumentOccurrences path arguments) m.jumps
  | [] => rfl
  | t :: arguments => by
    show (escapeArguments (escapeAnalysis true m t) arguments).jumps = addJumps (_ ++ _) _
    rw [addJumps_append, jumps_escapeArguments _ path, jumps_escapeAnalysis m path none true t]

end

theorem mem_jumpsOf {m : Marks} {target jump : ExprId} {arguments : List Expr} :
    (jump, arguments) ∈ m.jumpsOf target ↔ (target, jump, arguments) ∈ m.jumps := by
  unfold Marks.jumpsOf
  simp

theorem jumpOf_eq_some {o : Occurrence} {target jump : ExprId} {arguments : List Expr} :
    jumpOf o = some (target, jump, arguments) ↔
      ∃ reference, o.expr = .jump jump reference arguments ∧ directTarget reference =
        some target := by
  unfold jumpOf
  constructor
  · intro h
    split at h
    · next id reference arguments' hexpr =>
      obtain ⟨t, ht, heq⟩ := Option.map_eq_some_iff.mp h
      cases heq
      exact ⟨reference, hexpr, ht⟩
    · cases h
  · rintro ⟨reference, hexpr, ht⟩
    rw [hexpr]
    exact Option.map_eq_some_iff.mpr ⟨target, ht, rfl⟩

theorem mem_jumps_escapeProgram {exprs : List Expr} {target jump : ExprId}
    {arguments : List Expr} : (target, jump, arguments) ∈ (escapeProgram exprs).jumps ↔
      ∃ o ∈ programOccurrences exprs, ∃ reference,
        o.expr = .jump jump reference arguments ∧ directTarget reference = some target := by
  have hjumps : (escapeProgram exprs).jumps = addJumps (programOccurrences exprs) [] :=
    jumps_escapeArguments ⟨[], [], []⟩ [] exprs
  rw [hjumps]
  unfold addJumps
  rw [List.append_nil, List.mem_reverse, List.mem_filterMap]
  simp only [jumpOf_eq_some]

/-! ## The lists of jumps and what is short-circuited -/

/-- The jumps that are short-circuited are those in the lists. -/
def Marks.Paired (m : Marks) : Prop :=
  m.shortCircuit = m.jumps.map fun entry => (entry.2.1, entry.1)

namespace Marks.Paired

variable {m : Marks}

theorem escape (h : m.Paired) (escaping : Bool) (target : Option ExprId) :
    (m.escape escaping target).Paired := by
  unfold Marks.escape
  split
  · exact h
  · exact h

theorem recordJump (h : m.Paired) (jump : ExprId) (arguments : List Expr)
    (target : Option ExprId) : (m.recordJump jump arguments target).Paired := by
  cases target with
  | none => exact h
  | some target => exact congrArg (List.cons (jump, target)) h

mutual

theorem escapeAnalysis {m : Marks} (h : m.Paired) (escaping : Bool) :
    ∀ e : Expr, (escapeAnalysis escaping m e).Paired
  | .literal _ => h
  | .symbol _ => h
  | .linked bndg => h.escape escaping (targetOf bndg)
  | .ifExpr condition consequent alternate =>
    ((escapeAnalysis h true condition).escapeAnalysis true consequent).escapeAnalysis true alternate
  | .function _ _ _ expression => escapeAnalysis h true expression
  | .continuation id _ _ expression => (h.escape escaping (some id)).escapeAnalysis true expression
  | .withExpr _ _ expression => escapeAnalysis h true expression
  | .storage _ _ arguments => escapeArguments h arguments
  | .invoke reference arguments => (escapeAnalysis h true reference).escapeArguments arguments
  | .jump id reference arguments =>
    ((h.recordJump id arguments (directTarget reference)).escapeAnalysis false
      reference).escapeArguments arguments
  | .constrain expression => escapeAnalysis h true expression

theorem escapeArguments {m : Marks} (h : m.Paired) :
    ∀ arguments : List Expr, (escapeArguments m arguments).Paired
  | [] => h
  | t :: arguments => (escapeAnalysis h true t).escapeArguments arguments

end

end Marks.Paired

theorem paired_escapeProgram (exprs : List Expr) : (escapeProgram exprs).Paired := by
  have hempty : Marks.Paired ⟨[], [], []⟩ := rfl
  exact hempty.escapeArguments exprs

/-- Both compilers let the same continuations escape and short-circuit the same jumps, and the
list of a continuation has exactly the jumps of the program whose target is known to be it. -/
theorem escapeProgram_agrees (exprs : List Expr) :
    (escapeProgram exprs).Agrees (Bootstrap.escapeProgram exprs) ∧
      ∀ target jump arguments, (jump, arguments) ∈ (escapeProgram exprs).jumpsOf target ↔
        ∃ o ∈ programOccurrences exprs, ∃ reference,
          o.expr = .jump jump reference arguments ∧ directTarget reference = some target := by
  refine ⟨Marks.Agrees.escapeArguments ⟨rfl, rfl⟩ exprs, ?_⟩
  intro target jump arguments
  rw [mem_jumpsOf, mem_jumps_escapeProgram]

end L2.SelfHost
