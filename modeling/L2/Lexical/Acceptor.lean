import L2.Lexical.Unambiguous

/-!
# Accepting texts without reading them

Whether a text is in the grammar does not depend on where its tokens end.  A stack of
closing brackets and whether a fragment has to come next decide it, character by
character.
-/

namespace L2.Lexical

open Bootstrap (Fragment Token)

/-- Where the acceptor stands: at the beginning of a list or of the text, where a fragment
has to come, or behind one. -/
inductive Mode where
  | start | need | after
  deriving DecidableEq

def closing (c : Char) : Option Char :=
  if c = lparen then some rparen
  else if c = lbrace then some rbrace
  else if c = lbracket then some rbracket
  else none

/-- One character, and what comes next of it. -/
def advance (m : Mode) (stack : List Char) (c : Char) : Option (Mode × List Char) :=
  if isspace c then some (m, stack)
  else if c = scolon ∨ c = colon then if m = .after then some (.need, stack) else none
  else match closing c with
    | some close => some (.start, close :: stack)
    | none =>
      if isDelimiter c then
        match stack with
        | close :: rest => if m ≠ .need ∧ close = c then some (.after, rest) else none
        | [] => none
      else some (.after, stack)

def accepts (m : Mode) (stack : List Char) : List Char → Bool
  | [] => m ≠ .need ∧ stack = []
  | c :: cs =>
    match advance m stack c with
    | some (m, stack) => accepts m stack cs
    | none => false

variable {munch : Prop} {m : Mode} {stack t t' rest : List Char} {fs : List Fragment}

/-! ## One character -/

theorem accepts_cons {c : Char} {m' : Mode} {stack' : List Char}
    (h : advance m stack c = some (m', stack')) :
    accepts m stack (c :: t) = accepts m' stack' t := by
  rw [accepts, h]

theorem accepts_space {c : Char} (hc : isspace c) : accepts m stack (c :: t) = accepts m stack t :=
  accepts_cons (if_pos hc)

theorem accepts_token {c : Char} (hc : isTokenCharacter c) :
    accepts m stack (c :: t) = accepts .after stack t := by
  have hs : IsStart c := .inl hc
  obtain ⟨h1, h2, _⟩ := hs.ne
  have hd : isDelimiter c = false := by
    unfold isTokenCharacter at hc
    simp_all
  have hcl : closing c = none := by
    unfold closing
    split
    · subst c; cases hd
    · split
      · subst c; cases hd
      · split
        · subst c; cases hd
        · rfl
  apply accepts_cons
  simp [advance, hs.noSpace, h1, h2, hcl, hd]

theorem accepts_bracket {o close : Char} {first : List Fragment} (hb : Bracket o first close) :
    accepts m stack (o :: t) = accepts .start (close :: stack) t := by
  apply accepts_cons
  cases hb <;> rfl

theorem accepts_close {o close : Char} {first : List Fragment} (hb : Bracket o first close)
    (hm : m ≠ .need) : accepts m (close :: stack) (close :: t) = accepts .after stack t := by
  apply accepts_cons
  cases m <;> cases hb <;> first | rfl | exact absurd rfl hm

theorem accepts_separator (l : Level) :
    accepts .after stack (l.separator :: t) = accepts .need stack t := by
  apply accepts_cons
  cases l <;> rfl

theorem Space.accepts (h : Space t rest) : accepts m stack t = accepts m stack rest := by
  obtain ⟨spaces, rfl, hs⟩ := h
  induction spaces with
  | nil => rfl
  | cons c cs ih =>
    show Lexical.accepts m stack (c :: (cs ++ rest)) = _
    rw [accepts_space (hs c List.mem_cons_self)]
    exact ih fun d hd => hs d (List.mem_cons_of_mem c hd)

/-- Before the end of a list or of the text it does not matter whether there was anything
in it. -/
theorem Closes.accepts (h : Closes t) (hm : m ≠ .need) :
    accepts m stack t = accepts .after stack t := by
  cases t with
  | nil => simp [Lexical.accepts, hm]
  | cons c t =>
    have hadv : advance m stack c = advance .after stack c := by
      rcases h c rfl with rfl | rfl | rfl <;>
        simp [advance, hm, isspace, scolon, colon, rparen, rbrace, rbracket]
    rw [Lexical.accepts, Lexical.accepts, hadv]

/-! ## What is read is accepted -/

/-- The acceptor goes over what a nonterminal has read. -/
def Passes : NonTerminal → List Char → List Char → Prop
  | .fragments, t, rest => Closes rest →
    ∀ m ≠ Mode.need, ∀ stack, accepts m stack t = accepts .after stack rest
  | _, t, rest => ∀ m stack, accepts m stack t = accepts .after stack rest

theorem Level.passes_part {l : Level} (h : Passes l.part t rest) (m : Mode) (stack : List Char) :
    accepts m stack t = accepts .after stack rest := by
  cases l <;> exact h m stack

theorem Reads.passes {nt : NonTerminal} (h : Reads munch nt t fs rest) : Passes nt t rest := by
  induction h with
  | @token cs rest hne hcs _ =>
    intro m stack
    cases cs with
    | nil => exact absurd rfl hne
    | cons c cs =>
      show accepts m stack (c :: (cs ++ rest)) = _
      rw [accepts_token (hcs c List.mem_cons_self)]
      have htail : ∀ d ∈ cs, isTokenCharacter d := fun d hd => hcs d (List.mem_cons_of_mem c hd)
      clear hne hcs
      induction cs with
      | nil => rfl
      | cons d ds ih =>
        show accepts .after stack (d :: (ds ++ rest)) = _
        rw [accepts_token (htail d List.mem_cons_self)]
        exact ih fun e he => htail e (List.mem_cons_of_mem d he)
  | bracket hb hs _ ih =>
    intro m stack
    rw [accepts_bracket hb, hs.accepts, ih (hb.closes _) _ (by decide),
      accepts_close hb (by decide)]
  | done t => exact fun hc m hm stack => hc.accepts hm
  | more _ hs _ ihf ih =>
    intro hc m _ stack
    rw [ihf m stack, hs.accepts, ih hc _ (by decide)]
  | part _ ih => exact Level.passes_part ih
  | @sep l _ _ _ _ _ _ _ _ hs hs' _ ihf ih =>
    intro m stack
    rw [Level.passes_part ihf, hs.accepts, accepts_separator, hs'.accepts, ih]
  | chain _ ih => exact ih

/-- A program of the grammar is accepted. -/
theorem IsProgram.accepts (h : IsProgram munch t fs) : accepts .start [] t = true := by
  obtain ⟨u, hs, hr⟩ := h
  have hnil : Closes [] := fun c hc => by cases hc
  rw [hs.accepts, hr.passes hnil _ (by decide)]
  simp [Lexical.accepts]

end L2.Lexical
