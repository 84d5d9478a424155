import L2.Macros.Evaluation

/-!
# Backquote

`bq-aux` of `core-meta.l2` turns a template into an expression that builds it.  It goes down both
the first element and the rest of each list with the number of backquotes that it is inside of, so
that a comma at the front of what is left of a list is found like one at the front of a list.
-/

namespace L2.Macros

open Datum (list token)

/-! ## The macro -/

/-- What `bq-aux` threads through a template: the variables met so far with their identifiers,
newest first, and `gentok_counter`. -/
structure Names where
  map : List (Nat × Datum)
  gentokCounter : Nat

def quotePrefix : List Char := ['q', 'u', 'o', 't', 'e', '.']

/-- The identifier with what the counter's value is written as. -/
def quoteName (count : Nat) : List Char := quotePrefix ++ Nat.toDigits 10 count

/-- A list that starts with the token that is just `c`. -/
def headedBy (c : Char) (s : Datum) : Bool :=
  if s.isEmt then false else if s.isToken then false else
  if s.fst.isToken then (if s.fst.fst == .char c then s.fst.rst.isEmt else false) else false

def backquoteChar : Char := Char.ofNat 96

/-- The identifier of a variable.  The token is made before the variable is looked up. -/
def quoteVar (v : Nat) (m : Names) : Datum × Names :=
  let state := token (quoteName (m.gentokCounter + 1))
  match m.map.lookup v with
  | none => (state, ⟨(v, state) :: m.map, m.gentokCounter + 1⟩)
  | some res => (res, ⟨m.map, m.gentokCounter + 1⟩)

/-- `auxFst` and `auxRst` are `bq-aux` on the first element and on the rest of `s`. -/
def bqAuxAux (t s : Datum) (auxFst auxRst : Nat → Names → Datum × Names) (level : Nat)
    (m : Names) : Datum × Names :=
  let (innerS, m) := if s.isToken then (list [.char '-', s.fst, .char '-'], m) else auxFst level m
  let (innerS2, m) := auxRst level m
  (list [token invokeName, token lstName, innerS, innerS2, t], m)

/-- `bq-aux` on a nonempty list, where `auxRrst` is `bq-aux` on what follows its second element. -/
def bqAuxList (t s : Datum) (auxFst auxRst auxRrst : Nat → Names → Datum × Names) (level : Nat)
    (m : Names) : Datum × Names :=
  if headedBy backquoteChar s then bqAuxAux t s auxFst auxRst (level + 1) m
  else if headedBy ',' s && level != 0 then bqAuxAux t s auxFst auxRst (level - 1) m
  else if headedBy ',' s then (s.rst.fst, m)
  else if headedBy '!' s then
    let (code, m) := auxRrst level m
    (list [token invokeName, s.rst.fst, code, t], m)
  else bqAuxAux t s auxFst auxRst level m

/-- The expression for a template in the buffer `t`.  Characters and numbers are no templates. -/
def bqAux (t : Datum) : Datum → Nat → Names → Datum × Names
  | .emt => fun _ m => (token emtName, m)
  | .var v => fun _ m => quoteVar v m
  | .cons a (.cons f c) =>
    bqAuxList t (.cons a (.cons f c)) (bqAux t a) (bqAux t (.cons f c)) (bqAux t c)
  | .cons a b => bqAuxList t (.cons a b) (bqAux t a) (bqAux t b) (bqAux t b)
  | .char _ => fun _ m => (.word 0, m)
  | .word _ => fun _ m => (.word 0, m)

/-- Backquote for templates without variables. -/
def bq (t s : Datum) (gentokCounter : Nat) : Datum :=
  (bqAux t s 0 ⟨[], gentokCounter⟩).1

/-- `meta.map-values` -/
def mapValues : List (Nat × Datum) → List Datum → List Datum
  | [], values => values
  | p :: map, values => mapValues map (p.2 :: values)

def bqReturnName : List Char := ['b', 'q', '.', 'r', 'e', 't', 'u', 'r', 'n']
def bqContName : List Char := ['b', 'q', '.', 'c', 'o', 'n', 't']

/-- Backquote: the expression is put where the identifiers of the template's variables are bound to
new variables. -/
def backquote (t s : Datum) (gentokCounter : Nat) : Datum :=
  let (code, m) := bqAux t s 0 ⟨[], gentokCounter⟩
  list [token withName, token bqReturnName,
    list (token jumpName ::
      list [token continuationName, token bqContName, list (mapValues m.map []),
        list [token jumpName, token bqReturnName, code]] ::
      m.map.map fun _ => list [token invokeName, token varName, t])]

/-! ## What a template stands for -/

/-- How many backquotes more than commas the parts of a list that is kept are inside of. -/
def below (level : Nat) (s : Datum) : Nat :=
  if headedBy backquoteChar s then level + 1
  else if headedBy ',' s then level - 1
  else level

/-- A list, or the rest of one, that is built from what its parts stand for. -/
def Kept (level : Nat) (s : Datum) : Prop :=
  headedBy '!' s = false ∧ (headedBy ',' s = true → level ≠ 0)

/-- What is left of a template when its unquotes outside of inner backquotes are replaced by the
values of their expressions, its calls by the values that the functions return and its variables
by the values `θ`.  Each cell is made in the buffer `t`.  A comma with no expression after it has no
value, and neither has an exclamation mark with no function after it. -/
inductive Fills {σ : Type} (rt : Runtime σ) (env : Env) (t : Datum) (θ : Nat → Option Datum) :
    Nat → Datum → Cells σ → Datum → Cells σ → Prop
  | emt {level c} : Fills rt env t θ level .emt c .emt c
  | var {level v u c} : θ v = some u → Fills rt env t θ level (.var v) c u c
  | unquote {a x rest c v c'} : headedBy ',' (.cons a (.cons x rest)) = true →
      Evaluates rt env x c v c' → Fills rt env t θ 0 (.cons a (.cons x rest)) c v c'
  | call {level a f rest c u c₁ r c₂ g c₃ v c₄} : headedBy '!' (.cons a (.cons f rest)) = true →
      Fills rt env t θ level rest c u c₁ → Evaluates rt env t c₁ r c₂ →
      Evaluates rt env f c₂ g c₃ → rt.call g [u, r] c₃ v c₄ →
      Fills rt env t θ level (.cons a (.cons f rest)) c v c₄
  | token {level ch b c v c₁ r c₂} : Fills rt env t θ level b c v c₁ → Evaluates rt env t c₁ r c₂ →
      Fills rt env t θ level (.cons (.char ch) b) c (.cons (.char ch) v) c₂
  | cell {level a b c u c₁ v c₂ r c₃} : (Datum.cons a b).isToken = false → Kept level (.cons a b) →
      Fills rt env t θ (below level (.cons a b)) a c u c₁ →
      Fills rt env t θ (below level (.cons a b)) b c₁ v c₂ →
      Evaluates rt env t c₂ r c₃ → Fills rt env t θ level (.cons a b) c (.cons u v) c₃

/-- The variables of a template outside of the expressions of its unquotes and the functions of its
calls. -/
inductive Occurs (v : Nat) : Nat → Datum → Prop
  | var {level} : Occurs v level (.var v)
  | call {level s} : headedBy '!' s = true → Occurs v level s.rst.rst → Occurs v level s
  | fst {level a b} : (Datum.cons a b).isToken = false → Kept level (.cons a b) →
      Occurs v (below level (.cons a b)) a →
      Occurs v level (.cons a b)
  | rst {level a b} : Kept level (.cons a b) → Occurs v (below level (.cons a b)) b →
      Occurs v level (.cons a b)

/-- The defining meaning of what a template is built with. -/
structure Defining {σ : Type} (rt : Runtime σ) (env : Env) : Prop where
  emt : env emtName = some .emt
  char : ∀ c, env ['-', c, '-'] = some (.char c)
  lst : ∃ g, env lstName = some g ∧
    ∀ a b r c v c', rt.call g [a, b, r] c v c' ↔ v = .cons a b ∧ c' = c
  var : ∃ g, env varName = some g ∧
    ∀ r c v c', rt.call g [r] c v c' ↔ v = .var c.vars ∧ c' = { c with vars := c.vars + 1 }

/-! ## What `bq-aux` makes of each kind of template -/

/-- The cases of `bq-aux`, with the expression and the identifiers that it returns. -/
inductive Quotes (t : Datum) : Nat → Datum → Names → Datum → Names → Prop
  | emt {level m} : Quotes t level .emt m (token emtName) m
  | var {level v m} : Quotes t level (.var v) m (quoteVar v m).1 (quoteVar v m).2
  | char {level ch m} : Quotes t level (.char ch) m (.word 0) m
  | word {level n m} : Quotes t level (.word n) m (.word 0) m
  | unquote {a b m} : headedBy ',' (.cons a b) = true → Quotes t 0 (.cons a b) m b.fst m
  | call {level a b m code m'} : headedBy '!' (.cons a b) = true →
      Quotes t level b.rst m code m' →
      Quotes t level (.cons a b) m (list [token invokeName, b.fst, code, t]) m'
  | token {level ch b m code m'} : Quotes t level b m code m' →
      Quotes t level (.cons (.char ch) b) m
        (list [token invokeName, token lstName, token ['-', ch, '-'], code, t]) m'
  | cell {level a b m code m₁ code' m₂} : (Datum.cons a b).isToken = false →
      Kept level (.cons a b) → Quotes t (below level (.cons a b)) a m code m₁ →
      Quotes t (below level (.cons a b)) b m₁ code' m₂ →
      Quotes t level (.cons a b) m (list [token invokeName, token lstName, code, code', t]) m₂

theorem headedBy_iff {c : Char} {s : Datum} :
    headedBy c s = true ↔ ∃ b, s = .cons (token [c]) b := by
  constructor
  · intro h
    rcases s with _ | _ | _ | _ | ⟨a, b⟩
    · exact absurd h Bool.false_ne_true
    · exact absurd h Bool.false_ne_true
    · exact absurd h Bool.false_ne_true
    · exact absurd h Bool.false_ne_true
    · rcases a with _ | _ | _ | _ | ⟨x, y⟩
      · exact absurd h Bool.false_ne_true
      · exact absurd h Bool.false_ne_true
      · exact absurd h Bool.false_ne_true
      · exact absurd h Bool.false_ne_true
      · refine ⟨b, ?_⟩
        cases x with
        | char ch =>
          simp only [headedBy, Datum.isEmt, Datum.isToken, Datum.fst, Datum.rst, Bool.false_eq_true,
            if_false, if_true, beq_iff_eq, Datum.char.injEq] at h
          split at h
          · cases y with
            | emt => rw [‹ch = c›]; rfl
            | _ => exact absurd h Bool.false_ne_true
          · exact absurd h Bool.false_ne_true
        | _ => exact absurd h Bool.false_ne_true
  · intro h
    obtain ⟨b, hb⟩ := h
    rw [hb]
    simp [headedBy, Datum.isEmt, Datum.isToken, Datum.fst, Datum.rst, token, list]

/-- Only one token is at the front of a list. -/
theorem headedBy_unique {c d : Char} {s : Datum} (hc : headedBy c s = true)
    (hd : headedBy d s = true) : c = d := by
  obtain ⟨b, hb⟩ := headedBy_iff.mp hc
  obtain ⟨b', hb'⟩ := headedBy_iff.mp hd
  have hcons : token [c] = token [d] := (Datum.cons.inj (hb.symm.trans hb')).1
  exact (List.cons.inj (Datum.token_inj hcons)).1

section Cases

variable {t : Datum}

/-- A list whose parts are kept at `level'` is built by an invocation of `lst`. -/
theorem quotes_bqAuxAux {a b : Datum} {level level' : Nat} {m : Names}
    (hkept : Kept level (.cons a b)) (hlevel : below level (.cons a b) = level')
    (ha : ∀ level m, Quotes t level a m (bqAux t a level m).1 (bqAux t a level m).2)
    (hb : ∀ level m, Quotes t level b m (bqAux t b level m).1 (bqAux t b level m).2) :
    Quotes t level (.cons a b) m
      (bqAuxAux t (.cons a b) (bqAux t a) (bqAux t b) level' m).1
      (bqAuxAux t (.cons a b) (bqAux t a) (bqAux t b) level' m).2 := by
  cases htoken : (Datum.cons a b).isToken with
  | false =>
    simp only [bqAuxAux, htoken, Bool.false_eq_true, if_false]
    subst hlevel
    apply Quotes.cell htoken hkept
    · exact ha _ m
    · exact hb _ _
  | true =>
    cases a with
    | char ch =>
      have hsame : level = level' := hlevel
      rw [← hsame]
      exact .token (hb level m)
    | _ => exact absurd htoken Bool.false_ne_true

theorem bqAux_cons (a b : Datum) : bqAux t (.cons a b) =
    bqAuxList t (.cons a b) (bqAux t a) (bqAux t b) (bqAux t b.rst) := by
  cases b with
  | cons f c => rfl
  | _ => rfl

theorem quotes_bqAux_rst (s : Datum) :
    (∀ level m, Quotes t level s m (bqAux t s level m).1 (bqAux t s level m).2) ∧
    ∀ level m, Quotes t level s.rst m (bqAux t s.rst level m).1 (bqAux t s.rst level m).2 := by
  induction s with
  | word n => exact ⟨fun _ _ => .word, fun _ _ => .word⟩
  | emt => exact ⟨fun _ _ => .emt, fun _ _ => .emt⟩
  | char ch => exact ⟨fun _ _ => .char, fun _ _ => .char⟩
  | var v => exact ⟨fun _ _ => .var, fun _ _ => .var⟩
  | cons a b iha ihb =>
    refine ⟨fun level m => ?_, ihb.1⟩
    rw [bqAux_cons, bqAuxList]
    split
    · have hbackquote : headedBy backquoteChar (.cons a b) = true := ‹_›
      refine quotes_bqAuxAux ⟨?_, fun hcomma => ?_⟩ (if_pos hbackquote) iha.1 ihb.1
      · exact Bool.eq_false_iff.mpr fun h => absurd (headedBy_unique hbackquote h) (by decide)
      · exact absurd (headedBy_unique hbackquote hcomma) (by decide)
    have hbackquote : ¬ headedBy backquoteChar (.cons a b) = true := ‹_›
    split
    · have hcomma : (headedBy ',' (.cons a b) && level != 0) = true := ‹_›
      rw [Bool.and_eq_true, bne_iff_ne] at hcomma
      refine quotes_bqAuxAux ⟨?_, fun _ => hcomma.2⟩ ?_ iha.1 ihb.1
      · exact Bool.eq_false_iff.mpr fun h => absurd (headedBy_unique hcomma.1 h) (by decide)
      · rw [below, if_neg hbackquote, if_pos hcomma.1]
    have hlevel : ¬ (headedBy ',' (.cons a b) && level != 0) = true := ‹_›
    split
    · have hcomma : headedBy ',' (.cons a b) = true := ‹_›
      have hzero : level = 0 := by simpa [hcomma] using hlevel
      rw [hzero]
      exact .unquote hcomma
    have hcomma : ¬ headedBy ',' (.cons a b) = true := ‹_›
    split
    · exact .call ‹_› (ihb.2 level m)
    · have hbang : headedBy '!' (.cons a b) = false := Bool.eq_false_iff.mpr ‹_›
      refine quotes_bqAuxAux ⟨hbang, fun h => absurd h hcomma⟩ ?_ iha.1 ihb.1
      rw [below, if_neg hbackquote, if_neg hcomma]

theorem quotes_bqAux (s : Datum) (level : Nat) (m : Names) :
    Quotes t level s m (bqAux t s level m).1 (bqAux t s level m).2 :=
  (quotes_bqAux_rst s).1 level m

end Cases

end L2.Macros
