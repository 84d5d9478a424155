import Mathlib.Data.List.Basic
import Mathlib.Logic.Basic

/-!
# Evaluation

Macros build expressions out of list cells.  This is what the words that they work on mean, and
how the expressions that they build are evaluated: the arguments of an invocation from left to
right and then the function, and the argument of a jump before the place it goes to.
-/

namespace L2.Macros

/-- What a word that a macro handles stands for.  `word` is a plain number: a null pointer, or the
address of a function or of a frame. -/
inductive Datum
  | word (n : Nat)
  | emt
  | char (c : Char)
  | var (v : Nat)
  | cons (fst rst : Datum)
  deriving DecidableEq

namespace Datum

/-- The empty list holds a null pointer, and a variable that is not bound holds itself. -/
def fst : Datum → Datum
  | .cons a _ => a
  | .var v => .var v
  | _ => .word 0

def rst : Datum → Datum
  | .cons _ b => b
  | s => s

/-- `emt?` -/
def isEmt : Datum → Bool
  | .emt => true
  | _ => false

/-- `token?` -/
def isToken : Datum → Bool
  | .cons (.char _) _ => true
  | _ => false

def list : List Datum → Datum
  | [] => .emt
  | a :: as => .cons a (list as)

def token (cs : List Char) : Datum := list (cs.map .char)

def vars : Datum → List Nat
  | .var v => [v]
  | .cons a b => a.vars ++ b.vars
  | _ => []

theorem list_inj : ∀ {as bs : List Datum}, list as = list bs → as = bs
  | [], [], _ => rfl
  | a :: as, b :: bs, h => by
    have hcons : a = b ∧ list as = list bs := by
      simpa only [list, Datum.cons.injEq] using h
    rw [hcons.1, list_inj hcons.2]
  | [], _ :: _, h => by simp [list] at h
  | _ :: _, [], h => by simp [list] at h

theorem token_inj {xs ys : List Char} (h : token xs = token ys) : xs = ys := by
  have hmap : xs.map Datum.char = ys.map Datum.char := list_inj h
  exact List.map_injective_iff.mpr (fun _ _ hc => Datum.char.inj hc) hmap

end Datum

open Datum (list token)

/-! ## Names -/

def invokeName : List Char := ['i', 'n', 'v', 'o', 'k', 'e']
def lstName : List Char := ['l', 's', 't']
def emtName : List Char := ['e', 'm', 't']
def varName : List Char := ['v', 'a', 'r']
def withName : List Char := ['w', 'i', 't', 'h']
def jumpName : List Char := ['j', 'u', 'm', 'p']
def continuationName : List Char :=
  ['c', 'o', 'n', 't', 'i', 'n', 'u', 'a', 't', 'i', 'o', 'n']

/-- What the identifiers in scope refer to. -/
abbrev Env := List Char → Option Datum

def Env.bind (env : Env) (x : List Char) (v : Datum) : Env :=
  fun y => if y = x then some v else env y

def Env.bindAll (env : Env) : List (List Char) → List Datum → Env
  | x :: xs, v :: vs => (env.bind x v).bindAll xs vs
  | _, _ => env

theorem Env.bind_self (env : Env) (x : List Char) (v : Datum) : env.bind x v x = some v :=
  if_pos rfl

theorem Env.bind_of_ne {env : Env} {x y : List Char} (v : Datum) (h : y ≠ x) :
    env.bind x v y = env y :=
  if_neg h

theorem Env.bindAll_of_notMem {y : List Char} : ∀ {xs : List (List Char)} {vs : List Datum}
    (env : Env), y ∉ xs → env.bindAll xs vs y = env y
  | [], _, _, _ => rfl
  | _ :: _, [], _, _ => rfl
  | x :: xs, v :: vs, env, h => by
    have hne : y ≠ x := fun e => h (e ▸ List.mem_cons_self)
    have htail : y ∉ xs := fun hmem => h (List.mem_cons_of_mem x hmem)
    rw [Env.bindAll, bindAll_of_notMem _ htail, Env.bind_of_ne v hne]

/-- Different names keep their own values. -/
theorem Env.bindAll_get : ∀ {xs : List (List Char)} {vs : List Datum} (env : Env),
    xs.Nodup → xs.length = vs.length → ∀ {i : Nat} {x : List Char} {v : Datum},
      xs[i]? = some x → vs[i]? = some v → env.bindAll xs vs x = some v
  | [], _, _, _, _, i, _, _, hx, _ => by simp at hx
  | _ :: _, [], _, _, hlen, _, _, _, _, _ => by simp at hlen
  | y :: xs, u :: vs, env, hnodup, hlen, i, x, v, hx, hv => by
    have hy : y ∉ xs := (List.nodup_cons.mp hnodup).1
    cases i with
    | zero =>
      simp only [List.getElem?_cons_zero, Option.some.injEq] at hx hv
      rw [← hx, ← hv, Env.bindAll, bindAll_of_notMem _ hy, Env.bind_self]
    | succ i =>
      simp only [List.getElem?_cons_succ] at hx hv
      exact bindAll_get _ (List.nodup_cons.mp hnodup).2 (by simpa using hlen) hx hv

/-! ## Evaluation -/

/-- The number of variables made so far, and all else that expressions may depend on and change. -/
structure Cells (σ : Type) where
  vars : Nat
  rest : σ

/-- What the language consists of besides the rules below: what functions do when they are called
and how other expressions are evaluated.  Neither unmakes a variable. -/
structure Runtime (σ : Type) where
  call : Datum → List Datum → Cells σ → Datum → Cells σ → Prop
  other : Env → Datum → Cells σ → Datum → Cells σ → Prop
  vars_le_call : ∀ {g vs c v c'}, call g vs c v c' → c.vars ≤ c'.vars
  vars_le_other : ∀ {env d c v c'}, other env d c v c' → c.vars ≤ c'.vars

/-- A list that is neither an identifier nor an invocation. -/
def IsOther : Datum → Prop
  | .cons (.char _) _ => False
  | .cons a _ => a ≠ token invokeName
  | _ => False

mutual

inductive Evaluates {σ : Type} (rt : Runtime σ) :
    Env → Datum → Cells σ → Datum → Cells σ → Prop
  | identifier {env x v c} : x ≠ [] → env x = some v → Evaluates rt env (token x) c v c
  | invoke {env f args c vs c₁ g c₂ v c₃} : EvaluatesAll rt env args c vs c₁ →
      Evaluates rt env f c₁ g c₂ → rt.call g vs c₂ v c₃ →
      Evaluates rt env (list (token invokeName :: f :: args)) c v c₃
  | withJump {env n k body c v c'} : Jumps rt (env.bind n k) body c k [v] c' →
      Evaluates rt env (list [token withName, token n, body]) c v c'
  | other {env d c v c'} : IsOther d → rt.other env d c v c' → Evaluates rt env d c v c'

inductive EvaluatesAll {σ : Type} (rt : Runtime σ) :
    Env → List Datum → Cells σ → List Datum → Cells σ → Prop
  | nil {env c} : EvaluatesAll rt env [] c [] c
  | cons {env d ds c v c₁ vs c₂} : Evaluates rt env d c v c₁ → EvaluatesAll rt env ds c₁ vs c₂ →
      EvaluatesAll rt env (d :: ds) c (v :: vs) c₂

/-- An expression is left for the continuation at `k` with the values `vs`. -/
inductive Jumps {σ : Type} (rt : Runtime σ) :
    Env → Datum → Cells σ → Datum → List Datum → Cells σ → Prop
  | jump {env f args c vs c₁ k c₂} : EvaluatesAll rt env args c vs c₁ →
      Evaluates rt env f c₁ k c₂ → Jumps rt env (list (token jumpName :: f :: args)) c k vs c₂
  | enter {env n k xs body args c vs c₁ k' us c₂} : EvaluatesAll rt env args c vs c₁ →
      xs.length = vs.length → Jumps rt ((env.bind n k).bindAll xs vs) body c₁ k' us c₂ →
      Jumps rt env (list (token jumpName ::
        list [token continuationName, token n, list (xs.map token), body] :: args)) c k' us c₂

end

section Rules

variable {σ : Type} {rt : Runtime σ} {env : Env}

mutual

theorem Evaluates.vars_le {env : Env} {d v : Datum} {c c' : Cells σ} :
    Evaluates rt env d c v c' → c.vars ≤ c'.vars
  | .identifier _ _ => Nat.le_refl _
  | .invoke hargs hf hcall =>
    Nat.le_trans hargs.vars_le (Nat.le_trans hf.vars_le (rt.vars_le_call hcall))
  | .withJump hbody => hbody.vars_le
  | .other _ h => rt.vars_le_other h

theorem EvaluatesAll.vars_le {env : Env} {ds vs : List Datum} {c c' : Cells σ} :
    EvaluatesAll rt env ds c vs c' → c.vars ≤ c'.vars
  | .nil => Nat.le_refl _
  | .cons hd hds => Nat.le_trans hd.vars_le hds.vars_le

theorem Jumps.vars_le {env : Env} {d k : Datum} {vs : List Datum} {c c' : Cells σ} :
    Jumps rt env d c k vs c' → c.vars ≤ c'.vars
  | .jump hargs hf => Nat.le_trans hargs.vars_le hf.vars_le
  | .enter hargs _ hbody => Nat.le_trans hargs.vars_le hbody.vars_le

end

/-- Only a list has a value. -/
theorem Evaluates.exists_cons {d v : Datum} {c c' : Cells σ} (h : Evaluates rt env d c v c') :
    ∃ a b, d = .cons a b := by
  cases h with
  | @identifier _ x _ _ hx _ =>
    cases x with
    | nil => exact absurd rfl hx
    | cons ch x => exact ⟨.char ch, token x, rfl⟩
  | invoke _ _ _ => exact ⟨_, _, rfl⟩
  | withJump _ => exact ⟨_, _, rfl⟩
  | other hd _ =>
    cases d with
    | cons a b => exact ⟨a, b, rfl⟩
    | _ => exact absurd hd id

theorem evaluates_token_iff {x : List Char} {v : Datum} {c c' : Cells σ} (hx : x ≠ []) :
    Evaluates rt env (token x) c v c' ↔ env x = some v ∧ c' = c := by
  constructor
  · intro h
    generalize hd : token x = d at h
    cases h with
    | @identifier _ y _ _ _ hy =>
      rw [Datum.token_inj hd]
      exact ⟨hy, rfl⟩
    | invoke _ _ _ =>
      cases x with
      | nil => exact absurd rfl hx
      | cons ch x => exact absurd (Datum.cons.inj hd).1 (fun e => nomatch e)
    | withJump _ =>
      cases x with
      | nil => exact absurd rfl hx
      | cons ch x => exact absurd (Datum.cons.inj hd).1 (fun e => nomatch e)
    | other hother _ =>
      cases x with
      | nil => exact absurd rfl hx
      | cons ch x =>
        rw [← hd] at hother
        exact absurd hother id
  · intro h
    rw [h.2]
    exact .identifier hx h.1

theorem evaluates_invoke_iff {f : Datum} {args : List Datum} {v : Datum} {c c' : Cells σ} :
    Evaluates rt env (list (token invokeName :: f :: args)) c v c' ↔
      ∃ vs c₁ g c₂, EvaluatesAll rt env args c vs c₁ ∧ Evaluates rt env f c₁ g c₂ ∧
        rt.call g vs c₂ v c' := by
  constructor
  · intro h
    generalize hd : list (token invokeName :: f :: args) = d at h
    cases h with
    | @identifier _ y _ _ hy _ =>
      cases y with
      | nil => exact absurd rfl hy
      | cons ch y => exact absurd (Datum.cons.inj hd).1 (fun e => nomatch e)
    | invoke hargs hf hcall =>
      have heq := Datum.list_inj hd
      simp only [List.cons.injEq, true_and] at heq
      rw [heq.1, heq.2]
      exact ⟨_, _, _, _, hargs, hf, hcall⟩
    | withJump _ =>
      have heq := Datum.list_inj hd
      simp only [List.cons.injEq] at heq
      exact absurd (Datum.token_inj heq.1) (by decide)
    | other hother _ =>
      rw [← hd] at hother
      exact absurd rfl hother
  · intro h
    obtain ⟨vs, c₁, g, c₂, hargs, hf, hcall⟩ := h
    exact .invoke hargs hf hcall

theorem evaluatesAll_cons_iff {d : Datum} {ds vs : List Datum} {c c' : Cells σ} :
    EvaluatesAll rt env (d :: ds) c vs c' ↔
      ∃ v c₁ us, Evaluates rt env d c v c₁ ∧ EvaluatesAll rt env ds c₁ us c' ∧ vs = v :: us := by
  constructor
  · intro h
    cases h with
    | cons hd hds => exact ⟨_, _, _, hd, hds, rfl⟩
  · intro h
    obtain ⟨v, c₁, us, hd, hds, hvs⟩ := h
    rw [hvs]
    exact .cons hd hds

theorem evaluatesAll_nil_iff {vs : List Datum} {c c' : Cells σ} :
    EvaluatesAll rt env [] c vs c' ↔ vs = [] ∧ c' = c := by
  constructor
  · intro h
    cases h
    exact ⟨rfl, rfl⟩
  · intro h
    rw [h.1, h.2]
    exact .nil

end Rules

end L2.Macros
