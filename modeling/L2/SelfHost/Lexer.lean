import L2.Bootstrap.LexerCorrect

/-!
# The lexer of the self-hosted compiler

The same readers once more, as the compiler itself has them: lists are built by a head and
a tail that is collected behind it, and a character is looked at before the position is
moved.  The two lexers are related answer by answer.
-/

namespace L2.SelfHost

open Lexical
open Bootstrap (Fragment Token)

inductive Fault where
  /-- `unexpected-char-error` with what is passed along to the handler. -/
  | unexpectedCharError (c : Option Char) (pos : Option Nat)
  | outside
  | exhausted

def nul : Char := Char.ofNat 0

variable (l2src : List Char)

def getb (pos : Nat) : Except Fault Char :=
  match l2src[pos]? with
  | some c => .ok c
  | none => .error .outside

/-- The entry of `characters`. -/
def tknChar (c : Char) : Char := if inTable c then c else nul

/-- The loop of `read-whitespace`, to the position of a character that is no space. -/
def findSpace (pos : Nat) : Nat :=
  if h : pos < l2src.length then
    if isspace l2src[pos] then findSpace (pos + 1) else pos
  else pos
termination_by l2src.length - pos

def readWhitespace (pos : Nat) : Nat × Nat :=
  (l2src.length - findSpace l2src pos, findSpace l2src pos)

/-- The loop of `read-token` -/
def consChar (ls : List Char) (c : Char) (pos : Nat) : Except Fault (Token × Nat) :=
  let ls' : Token := ⟨ls ++ [tknChar c], by simp⟩
  if pos = l2src.length then .ok (ls', pos)
  else match h : l2src[pos]? with
    | none => .error .outside
    | some c =>
      if isspace c || isDelimiter c then .ok (ls', pos) else consChar ls' c (pos + 1)
termination_by l2src.length - pos
decreasing_by
  have hlt := (List.getElem?_eq_some_iff.mp h).1
  omega

def readToken (pos : Nat) : Except Fault (Fragment × Nat) :=
  if pos = l2src.length then .error (.unexpectedCharError nul pos)
  else do
    let c ← getb l2src pos
    if isspace c || isDelimiter c then .error (.unexpectedCharError c pos)
    else do
      let (ls, pos) ← consChar l2src [] c (pos + 1)
      .ok (.atom ls, pos)

/-- The end of `read-fragment2` and `read-fragment` -/
def consHead (head : Fragment) (sexprs : List Fragment) : Fragment :=
  if sexprs.isEmpty then head else .node (head :: sexprs)

mutual

def readList : Nat → Nat → Except Fault (Fragment × Nat)
  | 0, _ => .error .exhausted
  | n + 1, pos =>
    if pos = l2src.length then .error (.unexpectedCharError none pos)
    else do
      let c ← getb l2src pos
      if ¬ (c = lparen ∨ c = lbrace ∨ c = lbracket) then .error (.unexpectedCharError c pos)
      else if c = lbrace then consElements n [jumpToken] rbrace (pos + 1)
      else if c = lbracket then consElements n [invokeToken] rbracket (pos + 1)
      else consElements n [] rparen (pos + 1)

/-- The loop of `read-list` -/
def consElements : Nat → List Fragment → Char → Nat → Except Fault (Fragment × Nat)
  | 0, _, _, _ => .error .exhausted
  | n + 1, sexprs, delimiter, pos => do
    let (left, pos) := readWhitespace l2src pos
    let closed ← if left ≠ 0 then (getb l2src pos).map (· == delimiter) else .ok false
    if closed then .ok (.node sexprs, pos + 1)
    else do
      let (f, pos) ← readFragment n pos
      consElements n (sexprs ++ [f]) delimiter pos

def readFragment1 : Nat → Nat → Except Fault (Fragment × Nat)
  | 0, _ => .error .exhausted
  | n + 1, pos =>
    if pos = l2src.length then .error (.unexpectedCharError nul none)
    else do
      let c ← getb l2src pos
      if c = lparen ∨ c = lbrace ∨ c = lbracket then readList n pos else readToken l2src pos

def readFragment2 : Nat → Nat → Except Fault (Fragment × Nat)
  | 0, _ => .error .exhausted
  | n + 1, pos => do
    let (head, pos) ← readFragment1 n pos
    let (sexprs, pos) ← consFragment1 n [] pos
    .ok (consHead head sexprs, pos)

/-- The loop of `read-fragment2` -/
def consFragment1 : Nat → List Fragment → Nat → Except Fault (List Fragment × Nat)
  | 0, _, _ => .error .exhausted
  | n + 1, sexprs, pos => do
    let (left, pos) := readWhitespace l2src pos
    if left = 0 then .ok (sexprs, pos)
    else do
      let c ← getb l2src pos
      if ¬ c = scolon then .ok (sexprs, pos)
      else do
        let (_, pos) := readWhitespace l2src (pos + 1)
        let (f, pos) ← readFragment1 n pos
        consFragment1 n (sexprs ++ [f]) pos

def readFragment : Nat → Nat → Except Fault (Fragment × Nat)
  | 0, _ => .error .exhausted
  | n + 1, pos => do
    let (head, pos) ← readFragment2 n pos
    let (sexprs, pos) ← consFragment2 n [] pos
    .ok (consHead head sexprs, pos)

/-- The loop of `read-fragment` -/
def consFragment2 : Nat → List Fragment → Nat → Except Fault (List Fragment × Nat)
  | 0, _, _ => .error .exhausted
  | n + 1, sexprs, pos => do
    let (left, pos) := readWhitespace l2src pos
    if left = 0 then .ok (sexprs, pos)
    else do
      let c ← getb l2src pos
      if ¬ c = colon then .ok (sexprs, pos)
      else do
        let (_, pos) := readWhitespace l2src (pos + 1)
        let (f, pos) ← readFragment2 n pos
        consFragment2 n (sexprs ++ [f]) pos

end

/-- The loop of `read-expressions`, with the fragments in place of the expressions that are
built of them. -/
def consExpr : Nat → List Fragment → Nat → Except Fault (List Fragment)
  | 0, _, _ => .error .exhausted
  | n + 1, fragments, pos => do
    let (left, pos) := readWhitespace l2src pos
    if left ≠ 0 then do
      let (f, pos) ← readFragment l2src n pos
      consExpr n (fragments ++ [f]) pos
    else .ok fragments

def readExpressions (n : Nat) : Except Fault (List Fragment) := consExpr l2src n [] 0

/-! ## The same answers -/

variable {α β γ δ : Type} {l2src}

/-- Two answers that agree up to what a handler is told. -/
def Agree (R : α → β → Prop) : Except Fault α → Except Bootstrap.Fault β → Prop
  | .ok a, .ok b => R a b
  | .error (.unexpectedCharError _ _), .error (.unexpectedCharacter _ _) => True
  | .error .outside, .error .outside => True
  | .error .exhausted, .error .exhausted => True
  | _, _ => False

theorem Agree.bind {R : α → β → Prop} {S : γ → δ → Prop} {x : Except Fault α}
    {y : Except Bootstrap.Fault β} {f : α → Except Fault γ} {g : β → Except Bootstrap.Fault δ}
    (h : Agree R x y) (hf : ∀ a b, R a b → Agree S (f a) (g b)) : Agree S (x >>= f) (y >>= g) := by
  cases x with
  | ok a =>
    cases y with
    | ok b => exact hf a b h
    | error e => exact h.elim
  | error e =>
    cases y with
    | ok b => cases e <;> exact h.elim
    | error e' => cases e <;> cases e' <;> exact h

/-- Answers that agree accept the same. -/
theorem Agree.toOption {x : Except Fault α} {y : Except Bootstrap.Fault α} (h : Agree Eq x y) :
    x.toOption = y.toOption := by
  cases x with
  | ok a =>
    cases y with
    | ok b => exact congrArg some h
    | error e => exact h.elim
  | error e =>
    cases y with
    | ok b => cases e <;> exact h.elim
    | error e' => rfl

theorem findSpace_eq (pos : Nat) : findSpace l2src pos = Bootstrap.skipWhitespace l2src pos := by
  fun_induction findSpace l2src pos with
  | case1 pos h hs ih => rw [Bootstrap.skipWhitespace, dif_pos h, if_pos hs, ih]
  | case2 pos h hs => rw [Bootstrap.skipWhitespace, dif_pos h, if_neg hs]
  | case3 pos h => rw [Bootstrap.skipWhitespace, dif_neg h]

theorem readWhitespace_eq (pos : Nat) :
    readWhitespace l2src pos = Bootstrap.readWhitespace l2src pos := by
  unfold readWhitespace Bootstrap.readWhitespace
  rw [findSpace_eq]

theorem agree_getb (pos : Nat) : Agree Eq (getb l2src pos) (Bootstrap.charAt l2src pos) := by
  unfold getb Bootstrap.charAt
  cases l2src[pos]? with
  | none => exact trivial
  | some c => exact rfl

theorem agree_consChar (ls : List Char) (c : Char) (pos : Nat) :
    Agree Eq (consChar l2src ls c pos) (Bootstrap.readCharacters l2src ls c pos) := by
  fun_induction consChar l2src ls c pos with
  | case1 ls c ls' =>
    rw [Bootstrap.readCharacters, if_pos rfl]
    exact rfl
  | case2 ls c pos hne hnone =>
    rw [Bootstrap.readCharacters, if_neg hne]
    split
    · exact trivial
    · next c' hsome => rw [hnone] at hsome; cases hsome
  | case3 ls c pos ls' hne c' hsome hc =>
    rw [Bootstrap.readCharacters, if_neg hne]
    split
    · next hnone => rw [hnone] at hsome; cases hsome
    · next c'' hsome' =>
      obtain rfl : c' = c'' := Option.some.inj (hsome.symm.trans hsome')
      have ht : isTokenCharacter c' = false := by
        unfold isTokenCharacter
        rcases Bool.or_eq_true_iff.mp hc with h | h <;> simp [h]
      rw [if_neg (by simp [ht])]
      exact rfl
  | case4 ls c pos ls' hne c' hsome hc ih =>
    rw [Bootstrap.readCharacters, if_neg hne]
    split
    · next hnone => rw [hnone] at hsome; cases hsome
    · next c'' hsome' =>
      obtain rfl : c' = c'' := Option.some.inj (hsome.symm.trans hsome')
      have ht : isTokenCharacter c' = true := by
        unfold isTokenCharacter
        simpa using hc
      rw [if_pos ht]
      exact ih

theorem agree_readToken (pos : Nat) :
    Agree Eq (readToken l2src pos) (Bootstrap.readToken l2src pos) := by
  unfold readToken Bootstrap.readToken
  by_cases hpos : pos = l2src.length
  · rw [if_pos hpos, if_pos hpos.symm]
    exact trivial
  · rw [if_neg hpos, if_neg fun h => hpos h.symm]
    apply (agree_getb pos).bind
    rintro c _ rfl
    by_cases hc : (isspace c || isDelimiter c) = true
    · rw [if_pos hc, if_pos hc]
      exact trivial
    · rw [if_neg hc, if_neg hc]
      apply (agree_consChar [] c (pos + 1)).bind
      rintro a _ rfl
      exact rfl

/-- The list of all parts against a head and the parts behind it. -/
def HeadAndTail (head : Fragment) (x y : List Fragment × Nat) : Prop :=
  y.1 = head :: x.1 ∧ y.2 = x.2

theorem consHead_eq (head : Fragment) (sexprs : List Fragment) :
    consHead head sexprs = Bootstrap.listOrOnly (head :: sexprs) := by
  cases sexprs <;> rfl

/-- What the readers of the two lexers do at one depth. -/
structure SameReaders (l2src : List Char) (n : Nat) : Prop where
  list : ∀ pos, Agree Eq (readList l2src n pos) (Bootstrap.readList l2src n pos)
  elements : ∀ sexprs delimiter pos, Agree Eq (consElements l2src n sexprs delimiter pos)
    (Bootstrap.readListElements l2src n sexprs delimiter pos)
  fragment1 : ∀ pos, Agree Eq (readFragment1 l2src n pos) (Bootstrap.readFragment1 l2src n pos)
  parts1 : ∀ head sexprs pos, Agree (HeadAndTail head) (consFragment1 l2src n sexprs pos)
    (Bootstrap.readFragment1Parts l2src n (head :: sexprs) pos)
  fragment2 : ∀ pos, Agree Eq (readFragment2 l2src n pos) (Bootstrap.readFragment2 l2src n pos)
  parts2 : ∀ head sexprs pos, Agree (HeadAndTail head) (consFragment2 l2src n sexprs pos)
    (Bootstrap.readFragment2Parts l2src n (head :: sexprs) pos)
  fragment : ∀ pos, Agree Eq (readFragment l2src n pos) (Bootstrap.readFragment l2src n pos)

/-- The loop behind the head, with its separator and its reader of the parts. -/
def consStep (l2src : List Char) (separator : Char) (part : Nat → Except Fault (Fragment × Nat))
    (parts : List Fragment → Nat → Except Fault (List Fragment × Nat)) (sexprs : List Fragment)
    (pos : Nat) : Except Fault (List Fragment × Nat) := do
  let (left, pos) := readWhitespace l2src pos
  if left = 0 then .ok (sexprs, pos)
  else do
    let c ← getb l2src pos
    if ¬ c = separator then .ok (sexprs, pos)
    else do
      let (_, pos) := readWhitespace l2src (pos + 1)
      let (f, pos) ← part pos
      parts (sexprs ++ [f]) pos

section
variable {separator : Char} {part : Nat → Except Fault (Fragment × Nat)}
  {part' : Nat → Except Bootstrap.Fault (Fragment × Nat)}
  {parts : List Fragment → Nat → Except Fault (List Fragment × Nat)}
  {parts' : List Fragment → Nat → Except Bootstrap.Fault (List Fragment × Nat)}
  (hpart : ∀ pos, Agree Eq (part pos) (part' pos))
  (hparts : ∀ head sexprs pos, Agree (HeadAndTail head) (parts sexprs pos)
    (parts' (head :: sexprs) pos))
include hpart hparts

theorem agree_consStep (head : Fragment) (sexprs : List Fragment) (pos : Nat) :
    Agree (HeadAndTail head) (consStep l2src separator part parts sexprs pos)
      (Bootstrap.partsStep l2src separator part' parts' (head :: sexprs) pos) := by
  unfold consStep Bootstrap.partsStep
  rw [readWhitespace_eq]
  obtain ⟨left, p⟩ := Bootstrap.readWhitespace l2src pos
  dsimp only
  by_cases hleft : left = 0
  · rw [if_pos hleft, if_neg (by simp [hleft])]
    exact ⟨rfl, rfl⟩
  · rw [if_neg hleft, if_pos hleft]
    apply (agree_getb p).bind
    rintro c _ rfl
    by_cases hc : c = separator
    · rw [if_neg (by simp [hc]), if_pos hc, readWhitespace_eq]
      obtain ⟨_, q⟩ := Bootstrap.readWhitespace l2src (p + 1)
      apply (hpart q).bind
      rintro ⟨f, pos'⟩ _ rfl
      exact hparts head (sexprs ++ [f]) pos'
    · rw [if_pos hc, if_neg hc]
      exact ⟨rfl, rfl⟩

theorem agree_chain (pos : Nat) :
    Agree Eq (part pos >>= fun (head, pos) => parts [] pos >>= fun (sexprs, pos) =>
        .ok (consHead head sexprs, pos))
      (Bootstrap.chainStep part' parts' pos) := by
  apply (hpart pos).bind
  rintro ⟨head, p⟩ _ rfl
  apply (hparts head [] p).bind
  intro ⟨sexprs, q⟩ ⟨all, q'⟩ ⟨hall, hq⟩
  show (consHead head sexprs, q) = (Bootstrap.listOrOnly all, q')
  rw [show all = head :: sexprs from hall, show q' = q from hq, consHead_eq]

end

theorem sameReaders (n : Nat) : SameReaders l2src n := by
  induction n with
  | zero =>
    constructor
    · intro pos
      rw [readList, Bootstrap.readList]
      exact trivial
    · intro sexprs delimiter pos
      rw [consElements, Bootstrap.readListElements]
      exact trivial
    · intro pos
      rw [readFragment1, Bootstrap.readFragment1]
      exact trivial
    · intro head sexprs pos
      rw [consFragment1, Bootstrap.readFragment1Parts]
      exact trivial
    · intro pos
      rw [readFragment2, Bootstrap.readFragment2]
      exact trivial
    · intro head sexprs pos
      rw [consFragment2, Bootstrap.readFragment2Parts]
      exact trivial
    · intro pos
      rw [readFragment, Bootstrap.readFragment]
      exact trivial
  | succ n ih =>
    constructor
    · intro pos
      rw [readList, Bootstrap.readList]
      by_cases hpos : pos = l2src.length
      · rw [if_pos hpos, if_pos hpos.symm]
        exact trivial
      · rw [if_neg hpos, if_neg fun h => hpos h.symm]
        apply (agree_getb pos).bind
        rintro c _ rfl
        by_cases hc : c = lparen ∨ c = lbrace ∨ c = lbracket
        · rw [if_neg (by simp [hc]), if_pos hc]
          by_cases hb : c = lbrace
          · rw [if_pos hb, if_pos hb]
            exact ih.elements _ _ _
          · rw [if_neg hb, if_neg hb]
            by_cases hs : c = lbracket
            · rw [if_pos hs, if_pos hs]
              exact ih.elements _ _ _
            · rw [if_neg hs, if_neg hs]
              exact ih.elements _ _ _
        · rw [if_pos hc, if_neg hc]
          exact trivial
    · intro sexprs delimiter pos
      rw [consElements, Bootstrap.readListElements, readWhitespace_eq]
      obtain ⟨left, p⟩ := Bootstrap.readWhitespace l2src pos
      dsimp only
      have hbody : ∀ closed : Bool, Agree Eq
          (if closed then .ok (Unification.Term.node sexprs, p + 1) else readFragment l2src n p >>=
            fun (f, pos) => consElements l2src n (sexprs ++ [f]) delimiter pos)
          (if closed then .ok (Unification.Term.node sexprs, p + 1)
            else Bootstrap.readFragment l2src n p >>=
            fun (f, pos) => Bootstrap.readListElements l2src n (sexprs ++ [f]) delimiter pos) := by
        intro closed
        cases closed with
        | true => exact rfl
        | false =>
          apply (ih.fragment p).bind
          rintro ⟨f, q⟩ _ rfl
          exact ih.elements _ _ _
      by_cases hleft : left ≠ 0
      · rw [if_pos hleft, if_pos hleft]
        have hclosed : Agree Eq ((getb l2src p).map (· == delimiter))
            ((Bootstrap.charAt l2src p).map (· == delimiter)) := by
          unfold getb Bootstrap.charAt
          cases l2src[p]? with
          | none => exact trivial
          | some c => exact rfl
        apply hclosed.bind
        rintro closed _ rfl
        exact hbody closed
      · rw [if_neg hleft, if_neg hleft]
        exact hbody false
    · intro pos
      rw [readFragment1, Bootstrap.readFragment1]
      by_cases hpos : pos = l2src.length
      · rw [if_pos hpos, if_pos hpos]
        exact trivial
      · rw [if_neg hpos, if_neg hpos]
        apply (agree_getb pos).bind
        rintro c _ rfl
        by_cases hc : c = lparen ∨ c = lbrace ∨ c = lbracket
        · rw [if_pos hc, if_pos hc]
          exact ih.list pos
        · rw [if_neg hc, if_neg hc]
          exact agree_readToken pos
    · intro head sexprs pos
      rw [consFragment1, Bootstrap.readFragment1Parts_succ]
      exact agree_consStep ih.fragment1 ih.parts1 head sexprs pos
    · intro pos
      rw [readFragment2, Bootstrap.readFragment2_succ]
      exact agree_chain ih.fragment1 ih.parts1 pos
    · intro head sexprs pos
      rw [consFragment2, Bootstrap.readFragment2Parts_succ]
      exact agree_consStep ih.fragment2 ih.parts2 head sexprs pos
    · intro pos
      rw [readFragment, Bootstrap.readFragment_succ]
      exact agree_chain ih.fragment2 ih.parts2 pos

theorem agree_consExpr (n : Nat) : ∀ fragments pos, Agree Eq (consExpr l2src n fragments pos)
    (Bootstrap.readFragments l2src n fragments pos) := by
  induction n with
  | zero => exact fun _ _ => trivial
  | succ n ih =>
    intro fragments pos
    rw [consExpr, Bootstrap.readFragments, readWhitespace_eq]
    obtain ⟨left, p⟩ := Bootstrap.readWhitespace l2src pos
    dsimp only
    by_cases hleft : left ≠ 0
    · rw [if_pos hleft, if_pos hleft]
      apply ((sameReaders n).fragment p).bind
      rintro ⟨f, q⟩ _ rfl
      exact ih _ _
    · rw [if_neg hleft, if_neg hleft]
      exact rfl

theorem Agree.answers {x : Except Fault α} {y : Except Bootstrap.Fault α} (h : Agree Eq x y)
    (hy : y ≠ .error .exhausted ∧ y ≠ .error .outside) :
    x ≠ .error .exhausted ∧ x ≠ .error .outside := by
  constructor
  · rintro rfl
    cases y with
    | ok b => exact h
    | error e => cases e <;> simp_all [Agree]
  · rintro rfl
    cases y with
    | ok b => exact h
    | error e => cases e <;> simp_all [Agree]

/-- With a large enough bound both lexers answer from every position, and they accept the
same texts with the same fragments and the same position behind them; and so do the loops
over the whole text. -/
theorem lexers_agree (hsrc : ∀ c ∈ l2src, InAlphabet c) {n : Nat} (hn : 5 * l2src.length + 5 ≤ n) :
    (∀ pos ≤ l2src.length,
      (readFragment l2src n pos ≠ .error .exhausted ∧ readFragment l2src n pos ≠ .error .outside) ∧
      (Bootstrap.readFragment l2src n pos ≠ .error .exhausted ∧
        Bootstrap.readFragment l2src n pos ≠ .error .outside) ∧
      (readFragment l2src n pos).toOption = (Bootstrap.readFragment l2src n pos).toOption) ∧
    (readExpressions l2src n ≠ .error .exhausted ∧ readExpressions l2src n ≠ .error .outside) ∧
    (Bootstrap.readExpressions l2src n ≠ .error .exhausted ∧
      Bootstrap.readExpressions l2src n ≠ .error .outside) ∧
    (readExpressions l2src n).toOption = (Bootstrap.readExpressions l2src n).toOption := by
  refine ⟨fun pos hpos => ?_, ?_⟩
  · have hsame : Agree Eq (readFragment l2src n pos) (Bootstrap.readFragment l2src n pos) :=
      (sameReaders n).fragment pos
    have hans := Bootstrap.readFragment_answers hsrc hn hpos
    exact ⟨hsame.answers hans, hans, hsame.toOption⟩
  · have hsame : Agree Eq (readExpressions l2src n) (Bootstrap.readExpressions l2src n) :=
      agree_consExpr n [] 0
    have hrun := Bootstrap.readExpressions_correct hsrc hn
    have hans := And.intro hrun.1 hrun.2.1
    exact ⟨hsame.answers hans, hans, hsame.toOption⟩

open Bootstrap (shortText shortText_inAlphabet) in
theorem lexers_agree_shortText :
    (readExpressions shortText 40).toOption = (Bootstrap.readExpressions shortText 40).toOption :=
  (lexers_agree shortText_inAlphabet (Nat.le_refl 40)).2.2.2

end L2.SelfHost
