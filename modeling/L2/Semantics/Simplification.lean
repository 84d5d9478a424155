import Mathlib.Data.List.Forall2
import L2.Semantics.Machine

/-!
# Simplifications

The rewritings that the language allows: types can be forgotten, a branch can be taken
without the number that says which, and the operands that are evaluated together with a
jump need not be evaluated at all.
-/

namespace L2.Semantics

open Scope (Name ExprId Binding BinderType Construct Path Expr)
open Transition (Silent Moves Simulation)

/-- Two expressions of one form whose parts are related. -/
inductive Congruent (R : Expr → Expr → Prop) : Expr → Expr → Prop
  | literal {value} : Congruent R (.literal value) (.literal value)
  | symbol {name} : Congruent R (.symbol name) (.symbol name)
  | linked {bndg} : Congruent R (.linked bndg) (.linked bndg)
  | storage {id reference arguments arguments'} : List.Forall₂ R arguments arguments' →
    Congruent R (.storage id reference arguments) (.storage id reference arguments')
  | function {id reference parameters expression expression'} : R expression expression' →
    Congruent R (.function id reference parameters expression)
      (.function id reference parameters expression')
  | continuation {id reference parameters expression expression'} : R expression expression' →
    Congruent R (.continuation id reference parameters expression)
      (.continuation id reference parameters expression')
  | withExpr {id reference expression expression'} : R expression expression' →
    Congruent R (.withExpr id reference expression) (.withExpr id reference expression')
  | invoke {reference reference' arguments arguments'} : R reference reference' →
    List.Forall₂ R arguments arguments' →
    Congruent R (.invoke reference arguments) (.invoke reference' arguments')
  | jump {id reference reference' arguments arguments'} : R reference reference' →
    List.Forall₂ R arguments arguments' →
    Congruent R (.jump id reference arguments) (.jump id reference' arguments')
  | ifExpr {condition condition' consequent consequent' alternate alternate'} :
    R condition condition' → R consequent consequent' → R alternate alternate' →
    Congruent R (.ifExpr condition consequent alternate)
      (.ifExpr condition' consequent' alternate')
  | constrain {expression expression'} : R expression expression' →
    Congruent R (.constrain expression) (.constrain expression')

def IsJump : Expr → Prop
  | .jump _ _ _ => True
  | _ => False

def IsIf : Expr → Prop
  | .ifExpr _ _ _ => True
  | _ => False

inductive Simplifies : Expr → Expr → Prop
  | congruent {e e'} : Congruent Simplifies e e' → Simplifies e e'
  | eliminate {expression e'} : Simplifies expression e' → Simplifies (.constrain expression) e'
  /-- The condition says whether another one holds. -/
  | keep {condition consequent alternate condition' consequent' alternate' v} : v ≠ 0 →
    Simplifies condition (.ifExpr condition' (.literal v) (.literal 0)) →
    Simplifies consequent consequent' → Simplifies alternate alternate' →
    Simplifies (.ifExpr condition consequent alternate)
      (.ifExpr condition' consequent' alternate')
  /-- The condition says whether another one does not hold. -/
  | swap {condition consequent alternate condition' consequent' alternate' v} : v ≠ 0 →
    Simplifies condition (.ifExpr condition' (.literal 0) (.literal v)) →
    Simplifies consequent consequent' → Simplifies alternate alternate' →
    Simplifies (.ifExpr condition consequent alternate)
      (.ifExpr condition' alternate' consequent')
  | invokeOperand {reference arguments e j} : IsJump j → e ∈ reference :: arguments →
    Simplifies e j → Simplifies (.invoke reference arguments) j
  | jumpOperand {id reference arguments e j} : IsJump j → e ∈ reference :: arguments →
    Simplifies e j → Simplifies (.jump id reference arguments) j
  | condition {condition consequent alternate j} : IsJump j → Simplifies condition j →
    Simplifies (.ifExpr condition consequent alternate) j

variable {addresses : Addresses}

/-! ## How a simplified expression is reached -/

/-- Everything but a jump or an `if` is reached through the eliminated expressions around
it. -/
theorem Simplifies.reaches (env : Env) (k : Kont) (heap : Heap) : ∀ {e e' : Expr},
    Simplifies e e' → ¬ IsJump e' → ¬ IsIf e' →
    ∃ d, Silent (Step addresses) ⟨.eval e env, k, heap⟩ ⟨.eval d env, k, heap⟩ ∧
      Congruent Simplifies d e'
  | e, _, .congruent h, _, _ => ⟨e, .refl, h⟩
  | _, _, .eliminate h, hjump, hif => by
    obtain ⟨d, hd, hcongr⟩ := h.reaches env k heap hjump hif
    exact ⟨d, .head .constrain hd, hcongr⟩
  | _, _, .keep .., _, hif => absurd trivial hif
  | _, _, .swap .., _, hif => absurd trivial hif
  | _, _, .invokeOperand h _ _, hjump, _ => absurd h hjump
  | _, _, .jumpOperand h _ _, hjump, _ => absurd h hjump
  | _, _, .condition h _, hjump, _ => absurd h hjump

/-- The frames `l` make of a value the choice between two branches in front of `k`. -/
def Chooses (addresses : Addresses) (l : Kont) (consequent alternate : Expr) (env : Env)
    (k : Kont) : Prop :=
  ∀ v heap, Moves (Step addresses) ⟨.ret v, l, heap⟩ none
    ⟨.eval (if v ≠ 0 then consequent else alternate) env, k, heap⟩

theorem chooses_branch (consequent alternate : Expr) (env : Env) (k : Kont) :
    Chooses addresses (.branch consequent alternate env :: k) consequent alternate env k :=
  fun _ _ => .of_step .branch

theorem Simplifies.reaches_literal {e : Expr} {v : Word} (h : Simplifies e (.literal v))
    (env : Env) (k : Kont) (heap : Heap) :
    Silent (Step addresses) ⟨.eval e env, k, heap⟩ ⟨.ret v, k, heap⟩ := by
  obtain ⟨d, hd, hcongr⟩ := h.reaches env k heap not_false not_false
  cases hcongr
  exact hd.tail (.atom rfl)

/-- A choice of literals in front of a choice is a choice. -/
theorem Chooses.of_literals {l k : Kont} {a b consequent alternate : Expr} {env : Env}
    {v w : Word} (h : Chooses addresses l a b env (.branch consequent alternate env :: k))
    (ha : Simplifies a (.literal v)) (hb : Simplifies b (.literal w)) :
    Chooses addresses l (if v ≠ 0 then consequent else alternate)
      (if w ≠ 0 then consequent else alternate) env k := by
  intro x heap
  by_cases hx : x ≠ 0
  · have hmoves := h x heap
    rw [if_pos hx] at hmoves ⊢
    exact hmoves.trans_silent ((ha.reaches_literal env _ heap).tail .branch)
  · have hmoves := h x heap
    rw [if_neg hx] at hmoves ⊢
    exact hmoves.trans_silent ((hb.reaches_literal env _ heap).tail .branch)

/-- What a simplified `if` decides is decided in front of some frames that choose between
its branches. -/
theorem Simplifies.reaches_if (env : Env) : ∀ {e e' : Expr}, Simplifies e e' →
    ∀ {condition' consequent' alternate'}, e' = .ifExpr condition' consequent' alternate' →
    ∀ k, ∃ condition consequent alternate l, Simplifies condition condition' ∧
      Simplifies consequent consequent' ∧ Simplifies alternate alternate' ∧
      Chooses addresses l consequent alternate env k ∧
      ∀ heap, Moves (Step addresses) ⟨.eval e env, k, heap⟩ none ⟨.eval condition env, l, heap⟩
  | _, _, .congruent h, condition', consequent', alternate', heq, k => by
    subst heq
    cases h with
    | ifExpr hcondition hconsequent halternate =>
      exact ⟨_, _, _, _, hcondition, hconsequent, halternate, chooses_branch _ _ env k,
        fun heap => .of_step .ifExpr⟩
  | _, _, .eliminate h, _, _, _, heq, k => by
    obtain ⟨c, a, b, l, hc, ha, hb, hl, hmoves⟩ := h.reaches_if env heq k
    exact ⟨c, a, b, l, hc, ha, hb, hl, fun heap => .head .constrain (hmoves heap)⟩
  | _, _, @keep _ consequent alternate _ _ _ _ hv h hconsequent halternate, _, _, _, heq, k => by
    cases heq
    obtain ⟨c, a, b, l, hc, ha, hb, hl, hmoves⟩ :=
      h.reaches_if env rfl (.branch consequent alternate env :: k)
    have hchooses := hl.of_literals ha hb
    rw [if_pos hv, if_neg (by simp)] at hchooses
    exact ⟨c, consequent, alternate, l, hc, hconsequent, halternate, hchooses,
      fun heap => .head .ifExpr (hmoves heap)⟩
  | _, _, @swap _ consequent alternate _ _ _ _ hv h hconsequent halternate, _, _, _, heq, k => by
    cases heq
    obtain ⟨c, a, b, l, hc, ha, hb, hl, hmoves⟩ :=
      h.reaches_if env rfl (.branch consequent alternate env :: k)
    have hchooses := hl.of_literals ha hb
    rw [if_neg (by simp), if_pos hv] at hchooses
    exact ⟨c, alternate, consequent, l, hc, halternate, hconsequent, hchooses,
      fun heap => .head .ifExpr (hmoves heap)⟩
  | _, _, .invokeOperand h _ _, _, _, _, heq, _ => by
    subst heq
    exact h.elim
  | _, _, .jumpOperand h _ _, _, _, _, heq, _ => by
    subst heq
    exact h.elim
  | _, _, .condition h _, _, _, _, heq, _ => by
    subst heq
    exact h.elim

/-- One of the operands may come first. -/
theorem choose_first {kind : Kind} {exprs : List Expr} {e : Expr} (h : e ∈ exprs) (env : Env)
    (k : Kont) : ∃ l, ∀ heap, Step addresses ⟨.operands kind (exprs.map .todo) env, k, heap⟩ none
      ⟨.eval e env, l, heap⟩ := by
  obtain ⟨before, after, rfl⟩ := List.mem_iff_append.mp h
  refine ⟨.operand kind (before.map .todo) (after.map .todo) env :: k, fun heap => ?_⟩
  rw [List.map_append, List.map_cons]
  exact .choose

/-- What is left of a simplification to a jump is evaluated in front of some frames. -/
theorem Simplifies.reaches_jump (env : Env) : ∀ {e e' : Expr}, Simplifies e e' →
    ∀ {id' reference' arguments'}, e' = .jump id' reference' arguments' →
    ∀ k, ∃ reference arguments l, Simplifies reference reference' ∧
      List.Forall₂ Simplifies arguments arguments' ∧
      ∀ heap, Moves (Step addresses) ⟨.eval e env, k, heap⟩ none
        ⟨.operands .jump ((reference :: arguments).map .todo) env, l, heap⟩
  | _, _, .congruent h, _, _, _, heq, k => by
    subst heq
    cases h with
    | jump hreference harguments =>
      exact ⟨_, _, k, hreference, harguments, fun heap => .of_step .jump⟩
  | _, _, .eliminate h, _, _, _, heq, k => by
    obtain ⟨f, us, l, hf, hus, hmoves⟩ := h.reaches_jump env heq k
    exact ⟨f, us, l, hf, hus, fun heap => .head .constrain (hmoves heap)⟩
  | _, _, .keep .., _, _, _, heq, _ => by cases heq
  | _, _, .swap .., _, _, _, heq, _ => by cases heq
  | _, _, .invokeOperand _ hmem h, _, _, _, heq, k => by
    obtain ⟨m, hm⟩ := choose_first hmem env k
    obtain ⟨f, us, l, hf, hus, hmoves⟩ := h.reaches_jump env heq m
    exact ⟨f, us, l, hf, hus, fun heap => .head .invoke (.head (hm heap) (hmoves heap))⟩
  | _, _, .jumpOperand _ hmem h, _, _, _, heq, k => by
    obtain ⟨m, hm⟩ := choose_first hmem env k
    obtain ⟨f, us, l, hf, hus, hmoves⟩ := h.reaches_jump env heq m
    exact ⟨f, us, l, hf, hus, fun heap => .head .jump (.head (hm heap) (hmoves heap))⟩
  | _, _, @condition _ consequent alternate _ _ h, _, _, _, heq, k => by
    obtain ⟨f, us, l, hf, hus, hmoves⟩ :=
      h.reaches_jump env heq (.branch consequent alternate env :: k)
    exact ⟨f, us, l, hf, hus, fun heap => .head .ifExpr (hmoves heap)⟩

/-! ## The simulation -/

inductive SimplifiesSlot : Slot → Slot → Prop
  | todo {e e'} : Simplifies e e' → SimplifiesSlot (.todo e) (.todo e')
  | done {v} : SimplifiesSlot (.done v) (.done v)

/-- What is left to do around a simplified expression.  After a jump nothing is. -/
inductive SimplifiesKont (addresses : Addresses) : Kont → Kont → Prop
  | nil : SimplifiesKont addresses [] []
  | branch {l k k' consequent alternate consequent' alternate' env} :
    Chooses addresses l consequent alternate env k → Simplifies consequent consequent' →
    Simplifies alternate alternate' → SimplifiesKont addresses k k' →
    SimplifiesKont addresses l (.branch consequent' alternate' env :: k')
  | operand {kind before before' after after' env k k'} :
    List.Forall₂ SimplifiesSlot before before' → List.Forall₂ SimplifiesSlot after after' →
    SimplifiesKont addresses k k' →
    SimplifiesKont addresses (.operand kind before after env :: k)
      (.operand kind before' after' env :: k')
  | jumpOperand {before before' after after' env k k'} :
    List.Forall₂ SimplifiesSlot before before' → List.Forall₂ SimplifiesSlot after after' →
    SimplifiesKont addresses (.operand .jump before after env :: k)
      (.operand .jump before' after' env :: k')
  | completes {k k'} : SimplifiesKont addresses (.completes :: k) (.completes :: k')
  | foreign {k k'} : SimplifiesKont addresses k k' →
    SimplifiesKont addresses (.foreign :: k) (.foreign :: k')
  | program {exprs exprs' env k k'} : List.Forall₂ Simplifies exprs exprs' →
    SimplifiesKont addresses k k' →
    SimplifiesKont addresses (.program exprs env :: k) (.program exprs' env :: k')

inductive SimplifiesCode : Code → Code → Prop
  | mk {id arity expression expression' globals path} : Simplifies expression expression' →
    SimplifiesCode ⟨id, arity, expression, globals, path⟩ ⟨id, arity, expression', globals, path⟩

inductive SimplifiesTarget (addresses : Addresses) : Target → Target → Prop
  | resume {k k'} : SimplifiesKont addresses k k' →
    SimplifiesTarget addresses (.resume k) (.resume k')
  | body {id arity expression expression' env} : Simplifies expression expression' →
    SimplifiesTarget addresses (.body id arity expression env) (.body id arity expression' env)

/-- Two heaps that differ in what is simplified. -/
structure SimplifiesHeap (addresses : Addresses) (heap heap' : Heap) : Prop where
  functions : ∀ w, Option.Rel SimplifiesCode (heap.functions w) (heap'.functions w)
  continuations : ∀ w,
    Option.Rel (SimplifiesTarget addresses) (heap.continuations w) (heap'.continuations w)
  parameters : heap.parameters = heap'.parameters
  activations : heap.activations = heap'.activations

inductive SimplifiesState (addresses : Addresses) : State → State → Prop
  | eval {e e' env k k' heap heap'} : Simplifies e e' →
    (¬ IsJump e' → SimplifiesKont addresses k k') → SimplifiesHeap addresses heap heap' →
    SimplifiesState addresses ⟨.eval e env, k, heap⟩ ⟨.eval e' env, k', heap'⟩
  | ret {v k k' heap heap'} : SimplifiesKont addresses k k' →
    SimplifiesHeap addresses heap heap' →
    SimplifiesState addresses ⟨.ret v, k, heap⟩ ⟨.ret v, k', heap'⟩
  | operands {kind slots slots' env k k' heap heap'} :
    List.Forall₂ SimplifiesSlot slots slots' →
    (kind ≠ .jump → SimplifiesKont addresses k k') → SimplifiesHeap addresses heap heap' →
    SimplifiesState addresses ⟨.operands kind slots env, k, heap⟩
      ⟨.operands kind slots' env, k', heap'⟩
  | foreign {k k' heap heap'} : SimplifiesKont addresses k k' →
    SimplifiesHeap addresses heap heap' →
    SimplifiesState addresses ⟨.foreign, k, heap⟩ ⟨.foreign, k', heap'⟩
  | reached {continuation arguments k k' heap heap'} :
    SimplifiesState addresses ⟨.reached continuation arguments, k, heap⟩
      ⟨.reached continuation arguments, k', heap'⟩
  | undefined {k k' heap heap'} :
    SimplifiesState addresses ⟨.undefined, k, heap⟩ ⟨.undefined, k', heap'⟩

/-! ### Heaps -/

theorem rel_update {α : Type} {R : α → α → Prop} {f f' : Word → Option α}
    (h : ∀ w, Option.Rel R (f w) (f' w)) {x y : α} (hxy : R x y) (address w : Word) :
    Option.Rel R (Function.update f address (some x) w)
      (Function.update f' address (some y) w) := by
  rw [Function.update_apply, Function.update_apply]
  by_cases hw : w = address
  · rw [if_pos hw, if_pos hw]
    exact .some hxy
  · rw [if_neg hw, if_neg hw]
    exact h w

namespace SimplifiesHeap

variable {heap heap' : Heap}

theorem setFunction (h : SimplifiesHeap addresses heap heap') (address : Word)
    {code code' : Code} (hcode : SimplifiesCode code code') :
    SimplifiesHeap addresses (heap.setFunction address code)
      (heap'.setFunction address code') where
  functions := rel_update h.functions hcode address
  continuations := h.continuations
  parameters := h.parameters
  activations := h.activations

theorem setContinuation (h : SimplifiesHeap addresses heap heap') (address : Word)
    {target target' : Target} (htarget : SimplifiesTarget addresses target target') :
    SimplifiesHeap addresses (heap.setContinuation address target)
      (heap'.setContinuation address target') where
  functions := h.functions
  continuations := rel_update h.continuations htarget address
  parameters := h.parameters
  activations := h.activations

theorem setParameters (h : SimplifiesHeap addresses heap heap') (activation : Nat) (id : ExprId)
    (words : List Word) : SimplifiesHeap addresses (heap.setParameters activation id words)
      (heap'.setParameters activation id words) where
  functions := h.functions
  continuations := h.continuations
  parameters := by
    show Function.update heap.parameters _ _ = Function.update heap'.parameters _ _
    rw [h.parameters]
  activations := h.activations

theorem activate (h : SimplifiesHeap addresses heap heap') (id : ExprId) (words : List Word) :
    SimplifiesHeap addresses (heap.activate id words) (heap'.activate id words) where
  functions := h.functions
  continuations := h.continuations
  parameters := by
    show (heap.setParameters _ _ _).parameters = (heap'.setParameters _ _ _).parameters
    rw [h.activations]
    exact (h.setParameters _ id words).parameters
  activations := congrArg (· + 1) h.activations

theorem bindingValue_eq (h : SimplifiesHeap addresses heap heap') (env : Env) (bndg : Binding) :
    bindingValue addresses heap env bndg = bindingValue addresses heap' env bndg := by
  unfold bindingValue
  rw [h.parameters]

theorem atomValue_eq (h : SimplifiesHeap addresses heap heap') (env : Env) (e : Expr) :
    atomValue addresses heap env e = atomValue addresses heap' env e := by
  unfold atomValue
  cases e <;> simp only [h.bindingValue_eq]

end SimplifiesHeap

theorem jumpTo_simplifies {heap heap' : Heap} (h : SimplifiesHeap addresses heap heap')
    (continuation : Word) (arguments : List Word) :
    SimplifiesState addresses (jumpTo continuation arguments heap)
      (jumpTo continuation arguments heap') := by
  have hrel := h.continuations continuation
  unfold jumpTo
  cases hc : heap.continuations continuation <;> cases hc' : heap'.continuations continuation <;>
    rw [hc, hc'] at hrel <;> cases hrel
  case none.none => exact .reached
  case some.some hrel =>
    cases hrel with
    | resume hk =>
      match arguments with
      | [v] => exact .ret hk h
      | [] => exact .undefined
      | _ :: _ :: _ => exact .undefined
    | @body id arity expression expression' env he =>
      by_cases harity : arguments.length = arity
      · simp only [if_pos harity]
        exact .eval he (fun _ => .completes) (h.setParameters env.activation id arguments)
      · simp only [if_neg harity]
        exact .undefined

theorem call_simplifies {heap heap' : Heap} (h : SimplifiesHeap addresses heap heap')
    {k k' : Kont} (hk : SimplifiesKont addresses k k') (function : Word)
    (arguments : List Word) :
    SimplifiesState addresses (call function arguments k heap)
      (call function arguments k' heap') := by
  have hrel := h.functions function
  unfold call
  cases hc : heap.functions function <;> cases hc' : heap'.functions function <;>
    rw [hc, hc'] at hrel <;> cases hrel
  case none.none => exact .foreign hk h
  case some.some hrel =>
    cases hrel with
    | @mk id arity expression expression' globals path he =>
      by_cases harity : arguments.length = arity
      · simp only [if_pos harity, h.activations]
        exact .eval he (fun _ => hk) (h.activate id arguments)
      · simp only [if_neg harity]
        exact .undefined

/-! ### Slots -/

theorem forall₂_todo {exprs exprs' : List Expr} (h : List.Forall₂ Simplifies exprs exprs') :
    List.Forall₂ SimplifiesSlot (exprs.map .todo) (exprs'.map .todo) := by
  rw [List.forall₂_map_left_iff, List.forall₂_map_right_iff]
  exact h.imp fun _ _ => .todo

/-- Slots that are all done are the same. -/
theorem eq_of_forall₂_done {slots : List Slot} {values : List Word}
    (h : List.Forall₂ SimplifiesSlot slots (values.map .done)) : slots = values.map .done := by
  rw [List.forall₂_map_right_iff] at h
  induction h with
  | nil => rfl
  | cons hslot _ ih =>
    cases hslot
    rw [ih, List.map_cons]

theorem exists_of_forall₂_append_cons {α β : Type} {R : α → β → Prop} {l : List α}
    {before after : List β} {y : β} (h : List.Forall₂ R l (before ++ y :: after)) :
    ∃ before' x after', l = before' ++ x :: after' ∧ List.Forall₂ R before' before ∧ R x y ∧
      List.Forall₂ R after' after := by
  have hbefore := List.forall₂_take_append l before (y :: after) h
  have hrest := List.forall₂_drop_append l before (y :: after) h
  cases hl : l.drop before.length with
  | nil =>
    rw [hl] at hrest
    cases hrest
  | cons x after' =>
    rw [hl] at hrest
    cases hrest with
    | cons hx hafter =>
      refine ⟨l.take before.length, x, after', ?_, hbefore, hx, hafter⟩
      rw [← hl, List.take_append_drop]

theorem forall₂_append_cons {before before' after after' : List Slot} {slot slot' : Slot}
    (hbefore : List.Forall₂ SimplifiesSlot before before') (hslot : SimplifiesSlot slot slot')
    (hafter : List.Forall₂ SimplifiesSlot after after') :
    List.Forall₂ SimplifiesSlot (before ++ slot :: after) (before' ++ slot' :: after') :=
  List.rel_append hbefore (.cons hslot hafter)

/-! ### Steps -/

/-- A state that follows another one has moved to one that is related. -/
def Follows (addresses : Addresses) (s : State) (event : Option Event) (t' : State) : Prop :=
  ∃ t, Moves (Step addresses) s event t ∧ SimplifiesState addresses t t'

/-- The evaluation of an expression that is no jump and no `if` is followed once that of
the congruent ones is. -/
theorem follows_of_congruent {e e' : Expr} {env : Env} {k : Kont} {heap : Heap}
    {event : Option Event} {t' : State} (h : Simplifies e e') (hjump : ¬ IsJump e')
    (hif : ¬ IsIf e')
    (hcongr : ∀ d, Congruent Simplifies d e' → ∃ t,
      Step addresses ⟨.eval d env, k, heap⟩ event t ∧ SimplifiesState addresses t t') :
    Follows addresses ⟨.eval e env, k, heap⟩ event t' := by
  obtain ⟨d, hd, hde⟩ := h.reaches env k heap hjump hif
  obtain ⟨t, ht, hrel⟩ := hcongr d hde
  exact ⟨t, Silent.moves hd (.of_step ht), hrel⟩

theorem eval_follows {e e' : Expr} {env : Env} {k k' : Kont} {heap heap' : Heap}
    {event : Option Event} {t' : State} (h : Simplifies e e')
    (hk : ¬ IsJump e' → SimplifiesKont addresses k k')
    (hheap : SimplifiesHeap addresses heap heap')
    (hstep : Step addresses ⟨.eval e' env, k', heap'⟩ event t') :
    Follows addresses ⟨.eval e env, k, heap⟩ event t' := by
  cases hstep with
  | atom hv =>
    rw [← hheap.atomValue_eq] at hv
    have hjump : ¬ IsJump e' := by
      intro hjump
      cases e' <;> cases hjump
      cases hv
    have hif : ¬ IsIf e' := by
      intro hif
      cases e' <;> cases hif
      cases hv
    refine follows_of_congruent h hjump hif fun d hd => ?_
    cases hd with
    | literal | symbol | linked => exact ⟨_, .atom hv, .ret (hk hjump) hheap⟩
    | _ => cases hv
  | constrain =>
    refine follows_of_congruent h not_false not_false fun d hd => ?_
    cases hd with
    | constrain he => exact ⟨_, .constrain, .eval he (fun _ => hk not_false) hheap⟩
  | ifExpr =>
    obtain ⟨c, a, b, l, hc, ha, hb, hl, hmoves⟩ := h.reaches_if env rfl k
    exact ⟨_, hmoves heap, .eval hc (fun _ => .branch hl ha hb (hk not_false)) hheap⟩
  | function =>
    refine follows_of_congruent h not_false not_false fun d hd => ?_
    cases hd with
    | function he => exact ⟨_, .function, .ret (hk not_false) (hheap.setFunction _ (.mk he))⟩
  | continuation =>
    refine follows_of_congruent h not_false not_false fun d hd => ?_
    cases hd with
    | continuation he =>
      exact ⟨_, .continuation, .ret (hk not_false) (hheap.setContinuation _ (.body he))⟩
  | withExpr =>
    refine follows_of_congruent h not_false not_false fun d hd => ?_
    cases hd with
    | withExpr he =>
      exact ⟨_, .withExpr, .eval he (fun _ => hk not_false)
        (hheap.setContinuation _ (.resume (hk not_false)))⟩
  | storage =>
    refine follows_of_congruent h not_false not_false fun d hd => ?_
    cases hd with
    | storage harguments =>
      exact ⟨_, .storage, .operands (forall₂_todo harguments) (fun _ => hk not_false) hheap⟩
  | invoke =>
    refine follows_of_congruent h not_false not_false fun d hd => ?_
    cases hd with
    | invoke hreference harguments =>
      exact ⟨_, .invoke, .operands (forall₂_todo (.cons hreference harguments))
        (fun _ => hk not_false) hheap⟩
  | jump =>
    obtain ⟨f, us, l, hf, hus, hmoves⟩ :=
      h.reaches_jump env rfl k
    exact ⟨_, hmoves heap, .operands (forall₂_todo (.cons hf hus)) (absurd rfl) hheap⟩

theorem ret_follows {v : Word} {k k' : Kont} {heap heap' : Heap} {event : Option Event}
    {t' : State} (hk : SimplifiesKont addresses k k')
    (hheap : SimplifiesHeap addresses heap heap')
    (hstep : Step addresses ⟨.ret v, k', heap'⟩ event t') :
    Follows addresses ⟨.ret v, k, heap⟩ event t' := by
  cases hstep with
  | branch =>
    cases hk with
    | branch hl ha hb hk =>
      refine ⟨_, hl v heap, .eval ?_ (fun _ => hk) hheap⟩
      by_cases hv : v ≠ 0
      · rw [if_pos hv, if_pos hv]
        exact ha
      · rw [if_neg hv, if_neg hv]
        exact hb
  | @operand v kind before after env k' heap' =>
    cases hk with
    | operand hbefore hafter hk =>
      rw [← hbefore.length_eq]
      exact ⟨_, .of_step .operand,
        .operands (forall₂_append_cons hbefore .done hafter) (fun _ => hk) hheap⟩
    | jumpOperand hbefore hafter =>
      rw [← hbefore.length_eq]
      exact ⟨_, .of_step .operand,
        .operands (forall₂_append_cons hbefore .done hafter) (absurd rfl) hheap⟩
  | answer =>
    cases hk with
    | foreign hk => exact ⟨_, .of_step .answer, .foreign hk hheap⟩
  | next =>
    cases hk with
    | program hexprs hk =>
      cases hexprs with
      | cons he hexprs =>
        exact ⟨_, .of_step .next, .eval he (fun _ => .program hexprs hk) hheap⟩
  | finish =>
    cases hk with
    | program hexprs hk =>
      cases hexprs
      exact ⟨_, .of_step .finish, .ret hk hheap⟩

theorem operands_follows {kind : Kind} {slots slots' : List Slot} {env : Env} {k k' : Kont}
    {heap heap' : Heap} {event : Option Event} {t' : State}
    (hslots : List.Forall₂ SimplifiesSlot slots slots')
    (hk : kind ≠ .jump → SimplifiesKont addresses k k')
    (hheap : SimplifiesHeap addresses heap heap')
    (hstep : Step addresses ⟨.operands kind slots' env, k', heap'⟩ event t') :
    Follows addresses ⟨.operands kind slots env, k, heap⟩ event t' := by
  cases hstep with
  | choose =>
    obtain ⟨before, slot, after, rfl, hbefore, hslot, hafter⟩ :=
      exists_of_forall₂_append_cons hslots
    cases hslot with
    | todo he =>
      refine ⟨_, .of_step .choose, .eval he (fun _ => ?_) hheap⟩
      by_cases hkind : kind = .jump
      · subst hkind
        exact .jumpOperand hbefore hafter
      · exact .operand hbefore hafter (hk hkind)
  | stored =>
    rw [eq_of_forall₂_done hslots]
    exact ⟨_, .of_step .stored, .ret (hk (by simp)) hheap⟩
  | called =>
    rw [eq_of_forall₂_done hslots]
    exact ⟨_, .of_step .called, call_simplifies hheap (hk (by simp)) _ _⟩
  | jumped =>
    rw [eq_of_forall₂_done hslots]
    exact ⟨_, .of_step .jumped, jumpTo_simplifies hheap _ _⟩

theorem foreign_follows {k k' : Kont} {heap heap' : Heap} {event : Option Event} {t' : State}
    (hk : SimplifiesKont addresses k k') (hheap : SimplifiesHeap addresses heap heap')
    (hstep : Step addresses ⟨.foreign, k', heap'⟩ event t') :
    Follows addresses ⟨.foreign, k, heap⟩ event t' := by
  cases hstep with
  | foreignReturn => exact ⟨_, .of_step .foreignReturn, .ret hk hheap⟩
  | foreignJump => exact ⟨_, .of_step .foreignJump, jumpTo_simplifies hheap _ _⟩
  | foreignCall => exact ⟨_, .of_step .foreignCall, call_simplifies hheap (.foreign hk) _ _⟩

theorem outcome_ret_eq {v : Word} {k k' : Kont} {heap heap' : Heap} {o : Outcome}
    (hk : SimplifiesKont addresses k k') (h : outcome ⟨.ret v, k', heap'⟩ = some o) :
    outcome ⟨.ret v, k, heap⟩ = some o := by
  cases hk with
  | nil | completes => exact h
  | _ => cases h

theorem simplifies_simulation : Simulation (Step addresses) outcome (Step addresses) outcome
    (SimplifiesState addresses) where
  matches_step hr hstep := by
    cases hr with
    | eval h hk hheap => exact eval_follows h hk hheap hstep
    | ret hk hheap => exact ret_follows hk hheap hstep
    | operands hslots hk hheap => exact operands_follows hslots hk hheap hstep
    | foreign hk hheap => exact foreign_follows hk hheap hstep
    | reached | undefined => cases hstep
  matches_outcome {s s' o} hr houtcome := by
    refine ⟨s, .refl, ?_⟩
    cases hr with
    | eval _ _ _ | operands _ _ _ | foreign _ _ => cases houtcome
    | ret hk _ => exact outcome_ret_eq hk houtcome
    | reached | undefined => exact houtcome

/-- Whatever a program of simplified expressions may do among simplified functions, the
program may do as well. -/
theorem allows_of_simplifies {exprs exprs' : List Expr}
    (h : List.Forall₂ Simplifies exprs exprs') (env : Env) {heap heap' : Heap}
    (hheap : SimplifiesHeap addresses heap heap') :
    Allows addresses (start env heap exprs) (start env heap' exprs') :=
  simplifies_simulation.refines (.ret (.program h .nil) hheap)

end L2.Semantics
