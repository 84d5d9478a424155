import L2.Lexical.Grammar

/-!
# The lexer

Readers that share one position in the text.  A reader leaves the position behind what it
has read or throws; looking at the text outside of its bounds is a fault of its own.  The
readers call each other to a depth that the nesting of the text decides, so they take a
bound on it.
-/

namespace L2.Bootstrap

open Lexical

inductive Fault where
  /-- `throw_unexpected_character` -/
  | unexpectedCharacter (c : Char) (pos : Nat)
  | outside
  | exhausted

def nul : Char := Char.ofNat 0

variable (l2src : List Char)

def charAt (pos : Nat) : Except Fault Char :=
  match l2src[pos]? with
  | some c => .ok c
  | none => .error .outside

/-- `_char`: the table has no entry for what is not part of a token. -/
def charOf (c : Char) : Char := if inTable c then c else nul

/-- The position of the first character from `pos` on that is no space. -/
def skipWhitespace (pos : Nat) : Nat :=
  if h : pos < l2src.length then
    if isspace l2src[pos] then skipWhitespace (pos + 1) else pos
  else pos
termination_by l2src.length - pos

/-- The number of characters that are left after the space, and their position. -/
def readWhitespace (pos : Nat) : Nat × Nat :=
  (l2src.length - skipWhitespace l2src pos, skipWhitespace l2src pos)

/-- The loop of `read_token`: `c` has been read and is appended to `l`. -/
def readCharacters (l : List Char) (c : Char) (pos : Nat) : Except Fault (Token × Nat) :=
  let l' : Token := ⟨l ++ [charOf c], by simp⟩
  if pos = l2src.length then .ok (l', pos)
  else match h : l2src[pos]? with
    | none => .error .outside
    | some c' =>
      if isTokenCharacter c' then readCharacters l' c' (pos + 1) else .ok (l', pos + 1 - 1)
termination_by l2src.length - pos
decreasing_by
  have hlt := (List.getElem?_eq_some_iff.mp h).1
  omega

def readToken (pos : Nat) : Except Fault (Fragment × Nat) :=
  if l2src.length = pos then .error (.unexpectedCharacter nul pos)
  else do
    let c ← charAt l2src pos
    if isspace c || isDelimiter c then .error (.unexpectedCharacter c pos)
    else do
      let (l, pos) ← readCharacters l2src [] c (pos + 1)
      .ok (.atom l, pos)

/-- A list of one element is that element. -/
def listOrOnly (sexprs : List Fragment) : Fragment :=
  match sexprs with
  | [f] => f
  | _ => .node sexprs

mutual

def readList : Nat → Nat → Except Fault (Fragment × Nat)
  | 0, _ => .error .exhausted
  | n + 1, pos =>
    if l2src.length = pos then .error (.unexpectedCharacter nul pos)
    else do
      let c ← charAt l2src pos
      if c = lparen ∨ c = lbrace ∨ c = lbracket then
        if c = lbrace then readListElements n [jumpToken] rbrace (pos + 1)
        else if c = lbracket then readListElements n [invokeToken] rbracket (pos + 1)
        else readListElements n [] rparen (pos + 1)
      else .error (.unexpectedCharacter c pos)

/-- The loop of `read_list` -/
def readListElements : Nat → List Fragment → Char → Nat → Except Fault (Fragment × Nat)
  | 0, _, _, _ => .error .exhausted
  | n + 1, sexprs, delimiter, pos => do
    let (left, pos) := readWhitespace l2src pos
    let closed ← if left ≠ 0 then (charAt l2src pos).map (· == delimiter) else .ok false
    if closed then .ok (.node sexprs, pos + 1)
    else do
      let (f, pos) ← readFragment n pos
      readListElements n (sexprs ++ [f]) delimiter pos

def readFragment1 : Nat → Nat → Except Fault (Fragment × Nat)
  | 0, _ => .error .exhausted
  | n + 1, pos =>
    if pos = l2src.length then .error (.unexpectedCharacter nul pos)
    else do
      let c ← charAt l2src pos
      if c = lparen ∨ c = lbrace ∨ c = lbracket then readList n pos else readToken l2src pos

def readFragment2 : Nat → Nat → Except Fault (Fragment × Nat)
  | 0, _ => .error .exhausted
  | n + 1, pos => do
    let (f, pos) ← readFragment1 n pos
    let (sexprs, pos) ← readFragment1Parts n [f] pos
    .ok (listOrOnly sexprs, pos)

/-- The loop of `read_fragment2` -/
def readFragment1Parts : Nat → List Fragment → Nat → Except Fault (List Fragment × Nat)
  | 0, _, _ => .error .exhausted
  | n + 1, sexprs, pos => do
    let (left, pos) := readWhitespace l2src pos
    if left ≠ 0 then do
      let c ← charAt l2src pos
      if c = scolon then do
        let (_, pos) := readWhitespace l2src (pos + 1)
        let (f, pos) ← readFragment1 n pos
        readFragment1Parts n (sexprs ++ [f]) pos
      else .ok (sexprs, pos)
    else .ok (sexprs, pos)

def readFragment : Nat → Nat → Except Fault (Fragment × Nat)
  | 0, _ => .error .exhausted
  | n + 1, pos => do
    let (f, pos) ← readFragment2 n pos
    let (sexprs, pos) ← readFragment2Parts n [f] pos
    .ok (listOrOnly sexprs, pos)

/-- The loop of `read_fragment` -/
def readFragment2Parts : Nat → List Fragment → Nat → Except Fault (List Fragment × Nat)
  | 0, _, _ => .error .exhausted
  | n + 1, sexprs, pos => do
    let (left, pos) := readWhitespace l2src pos
    if left ≠ 0 then do
      let c ← charAt l2src pos
      if c = colon then do
        let (_, pos) := readWhitespace l2src (pos + 1)
        let (f, pos) ← readFragment2 n pos
        readFragment2Parts n (sexprs ++ [f]) pos
      else .ok (sexprs, pos)
    else .ok (sexprs, pos)

end

/-- The loop of `read_expressions`, with the fragments in place of the expressions that are
built of them. -/
def readFragments : Nat → List Fragment → Nat → Except Fault (List Fragment)
  | 0, _, _ => .error .exhausted
  | n + 1, fragments, pos => do
    let (left, pos) := readWhitespace l2src pos
    if left ≠ 0 then do
      let (f, pos) ← readFragment l2src n pos
      readFragments n (fragments ++ [f]) pos
    else .ok fragments

/-- `read_expressions` -/
def readExpressions (n : Nat) : Except Fault (List Fragment) := readFragments l2src n [] 0

end L2.Bootstrap
