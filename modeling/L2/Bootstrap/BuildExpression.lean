import L2.Bootstrap.Fragment

/-!
# Building expressions

`build_expression` makes an expression of a fragment that was read or that a macro
answered.  A list is a special form if its head is one of the nine words; everything else
is a meta expression, which keeps its fragment until it is expanded.
-/

namespace L2.Bootstrap

/-- Expressions before the meta expressions among them are expanded.  A reference or a
parameter is a token. -/
inductive Source where
  | symbol (name : Token)
  | literal (value : BitVec 64)
  | withExpr (reference : Token) (expression : Source)
  | ifExpr (condition consequent alternate : Source)
  | function (reference : Token) (parameters : List Token) (expression : Source)
  | continuation (reference : Token) (parameters : List Token) (expression : Source)
  | invoke (reference : Source) (arguments : List Source)
  | jump (reference : Source) (arguments : List Source)
  | storage (reference : Token) (arguments : List Source)
  | constrain (expression reference : Source)
  | metaExpr (reference : Source) (fragment : List Fragment)

inductive BuildFault where
  /-- `throw_special_form` -/
  | specialForm (expression : List Fragment) (subexpression : Option Fragment)
  /-- `length` of a variable, whose cell is its own successor, does not return. -/
  | endless

/-- The words that `build_expression` compares the head of a list with. -/
inductive Keyword where
  | withWord
  | ifWord
  | functionWord
  | continuationWord
  | literalWord
  | invokeWord
  | jumpWord
  | storageWord
  | constrainWord
  deriving DecidableEq

def Keyword.chars : Keyword → List Char
  | withWord => ['w', 'i', 't', 'h']
  | ifWord => ['i', 'f']
  | functionWord => ['f', 'u', 'n', 'c', 't', 'i', 'o', 'n']
  | continuationWord => ['c', 'o', 'n', 't', 'i', 'n', 'u', 'a', 't', 'i', 'o', 'n']
  | literalWord => ['l', 'i', 't', 'e', 'r', 'a', 'l']
  | invokeWord => ['i', 'n', 'v', 'o', 'k', 'e']
  | jumpWord => ['j', 'u', 'm', 'p']
  | storageWord => ['s', 't', 'o', 'r', 'a', 'g', 'e']
  | constrainWord => ['c', 'o', 'n', 's', 't', 'r', 'a', 'i', 'n']

/-- The word that is at the head of a list.  What is no token is no word. -/
def keywordOf : Fragment → Option Keyword
  | .atom t =>
    [Keyword.withWord, .ifWord, .functionWord, .continuationWord, .literalWord, .invokeWord,
      .jumpWord, .storageWord, .constrainWord].find? (fun word => word.chars = t.val)
  | _ => none

def wordBinLen : Nat := 64

/-- The loop over the binary digits of a literal. -/
def literalValue (value : BitVec 64) : List Char → Option (BitVec 64)
  | [] => some value
  | c :: str =>
    if c = '1' then literalValue ((value <<< 1) + 1) str
    else if c = '0' then literalValue (value <<< 1) str
    else none

/-- The tokens of a parameter list, or the first fragment in it that is none. -/
def parameterTokens : List Fragment → Except Fragment (List Token)
  | [] => .ok []
  | .atom t :: vs => do
    let ts ← parameterTokens vs
    .ok (t :: ts)
  | v :: _ => .error v

/-- A reference and parameters, or what `d` is faulted for. -/
def definition (d : List Fragment) : Fragment → Fragment →
    Except BuildFault (Token × List Token)
  | .atom reference, .node vs =>
    match parameterTokens vs with
    | .ok parameters => .ok (reference, parameters)
    | .error v => .error (.specialForm d (some v))
  | .atom _, .atom t => .error (.specialForm d (some (.atom t)))
  | .atom _, .var _ => .error .endless
  | .var _, _ => .error .endless
  | reference, _ => .error (.specialForm d (some reference))

mutual

def buildExpression : Fragment → Except BuildFault Source
  | .var _ => .error .endless
  | .atom t => .ok (.symbol t)
  | .node [] => .error (.specialForm [] none)
  | .node (head :: rest) =>
    let d := head :: rest
    match keywordOf head with
    | some .withWord =>
      match rest with
      | [.atom reference, e] => do
        let expression ← buildExpression e
        .ok (.withExpr reference expression)
      | [.var _, _] => .error .endless
      | [reference, _] => .error (.specialForm d (some reference))
      | _ => .error (.specialForm d none)
    | some .ifWord =>
      match rest with
      | [c, t, f] => do
        let condition ← buildExpression c
        let consequent ← buildExpression t
        let alternate ← buildExpression f
        .ok (.ifExpr condition consequent alternate)
      | _ => .error (.specialForm d none)
    | some .functionWord =>
      match rest with
      | [r, vs, e] => do
        let (reference, parameters) ← definition d r vs
        let expression ← buildExpression e
        .ok (.function reference parameters expression)
      | _ => .error (.specialForm d none)
    | some .continuationWord =>
      match rest with
      | [r, vs, e] => do
        let (reference, parameters) ← definition d r vs
        let expression ← buildExpression e
        .ok (.continuation reference parameters expression)
      | _ => .error (.specialForm d none)
    | some .literalWord =>
      match rest with
      | [.atom str] =>
        if str.val.length = wordBinLen then
          match literalValue 0 str.val with
          | some value => .ok (.literal value)
          | none => .error (.specialForm d (some (.atom str)))
        else .error (.specialForm d (some (.atom str)))
      | [.var _] => .error .endless
      | [str] => .error (.specialForm d (some str))
      | _ => .error (.specialForm d none)
    | some .invokeWord =>
      match rest with
      | [] => .error (.specialForm d none)
      | r :: vs => do
        let arguments ← buildExpressions vs
        let reference ← buildExpression r
        .ok (.invoke reference arguments)
    | some .jumpWord =>
      match rest with
      | [] => .error (.specialForm d none)
      | r :: vs => do
        let arguments ← buildExpressions vs
        let reference ← buildExpression r
        .ok (.jump reference arguments)
    | some .storageWord =>
      match rest with
      | [] => .error (.specialForm d none)
      | .atom reference :: vs => do
        let arguments ← buildExpressions vs
        .ok (.storage reference arguments)
      | .var _ :: _ => .error .endless
      | reference :: _ => .error (.specialForm d (some reference))
    | some .constrainWord =>
      match rest with
      | [e, r] => do
        let expression ← buildExpression e
        let reference ← buildExpression r
        .ok (.constrain expression reference)
      | _ => .error (.specialForm d none)
    | none => do
      let reference ← buildExpression head
      .ok (.metaExpr reference d)

def buildExpressions : List Fragment → Except BuildFault (List Source)
  | [] => .ok []
  | v :: vs => do
    let e ← buildExpression v
    let es ← buildExpressions vs
    .ok (e :: es)

end

end L2.Bootstrap
