import L2.Bootstrap.BuildExpression

/-!
# Building expressions, in L2

`build-expression` of the self-hosted compiler.  A variable is a cell that ends itself, so
where no variable is asked for it is taken for an empty list.
-/

namespace L2.SelfHost

open Bootstrap (Token Fragment Source BuildFault keywordOf)

def buildExpressionLiteralLen : Nat := 64

/-- The loop `build-num`. -/
def buildNum : List Char → Nat → BitVec 64 → Option (BitVec 64)
  | _, 0, value => some value
  | [], _ + 1, _ => none
  | c :: str, i + 1, value =>
    if c = '1' then buildNum str i ((value <<< 1) + 1)
    else if c = '0' then buildNum str i (value <<< 1)
    else none

/-- The loop over the parameters: their tokens, or the first fragment that is none. -/
def parameterTokens : List Fragment → Except Fragment (List Token)
  | [] => .ok []
  | .atom t :: vs => do
    let ts ← parameterTokens vs
    .ok (t :: ts)
  | v :: _ => .error v

/-- The checks of `function` and `continuation` before the body is built. -/
def definition (d : List Fragment) : Fragment → Fragment →
    Except BuildFault (Token × List Token)
  | .atom _, .atom t => .error (.specialForm d (some (.atom t)))
  | .atom reference, .var _ => .ok (reference, [])
  | .atom reference, .node vs =>
    match parameterTokens vs with
    | .ok parameters => .ok (reference, parameters)
    | .error v => .error (.specialForm d (some v))
  | reference, _ => .error (.specialForm d (some reference))

mutual

def buildExpression : Fragment → Except BuildFault Source
  | .atom t => .ok (.symbol t)
  | .node [] | .var _ => .error (.specialForm [] none)
  | .node (car :: cdr) =>
    let d := car :: cdr
    match keywordOf car with
    | some .withWord =>
      match cdr with
      | [.atom reference, e] => do
        let expression ← buildExpression e
        .ok (.withExpr reference expression)
      | [reference, _] => .error (.specialForm d (some reference))
      | _ => .error (.specialForm d none)
    | some .ifWord =>
      match cdr with
      | [c, t, f] => do
        let condition ← buildExpression c
        let consequent ← buildExpression t
        let alternate ← buildExpression f
        .ok (.ifExpr condition consequent alternate)
      | _ => .error (.specialForm d none)
    | some .functionWord =>
      match cdr with
      | [r, vs, e] => do
        let (reference, parameters) ← definition d r vs
        let expression ← buildExpression e
        .ok (.function reference parameters expression)
      | _ => .error (.specialForm d none)
    | some .continuationWord =>
      match cdr with
      | [r, vs, e] => do
        let (reference, parameters) ← definition d r vs
        let expression ← buildExpression e
        .ok (.continuation reference parameters expression)
      | _ => .error (.specialForm d none)
    | some .storageWord =>
      match cdr with
      | [] => .error (.specialForm d none)
      | .atom reference :: vs => do
        let arguments ← buildExpressions vs
        .ok (.storage reference arguments)
      | reference :: _ => .error (.specialForm d (some reference))
    | some .invokeWord =>
      match cdr with
      | [] => .error (.specialForm d none)
      | r :: vs => do
        let reference ← buildExpression r
        let arguments ← buildExpressions vs
        .ok (.invoke reference arguments)
    | some .jumpWord =>
      match cdr with
      | [] => .error (.specialForm d none)
      | r :: vs => do
        let reference ← buildExpression r
        let arguments ← buildExpressions vs
        .ok (.jump reference arguments)
    | some .literalWord =>
      match cdr with
      | [.atom str] =>
        if str.val.length = buildExpressionLiteralLen then
          match buildNum str.val buildExpressionLiteralLen 0 with
          | some value => .ok (.literal value)
          | none => .error (.specialForm d (some (.atom str)))
        else .error (.specialForm d (some (.atom str)))
      | [str] => .error (.specialForm d (some str))
      | _ => .error (.specialForm d none)
    | some .constrainWord =>
      match cdr with
      | [e, r] => do
        let expression ← buildExpression e
        let reference ← buildExpression r
        .ok (.constrain expression reference)
      | _ => .error (.specialForm d none)
    | none => do
      let reference ← buildExpression car
      .ok (.metaExpr reference d)

def buildExpressions : List Fragment → Except BuildFault (List Source)
  | [] => .ok []
  | v :: vs => do
    let e ← buildExpression v
    let es ← buildExpressions vs
    .ok (e :: es)

end

end L2.SelfHost
