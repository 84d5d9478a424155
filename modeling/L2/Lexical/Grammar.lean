import L2.Bootstrap.Fragment

/-!
# The lexical grammar

The nonterminals of the grammar relate a text to the fragments it stands for and to what
follows them.  The grammar leaves open where one token ends and the next begins, as
nothing has to stand between two fragments.  `munch` is the rule that decides it: a
token is as long as it can be.
-/

namespace L2.Lexical

open Bootstrap (Fragment Token)

/-! ## Characters -/

def lparen : Char := Char.ofNat 40
def rparen : Char := Char.ofNat 41
def lbracket : Char := Char.ofNat 91
def rbracket : Char := Char.ofNat 93
def lbrace : Char := Char.ofNat 123
def rbrace : Char := Char.ofNat 125
def colon : Char := Char.ofNat 58
def scolon : Char := Char.ofNat 59

def isspace (c : Char) : Bool := c.toNat ∈ [0x20, 0x0C, 0x0A, 0x0D, 0x09, 0x0B]

def isDelimiter (c : Char) : Bool :=
  c ∈ [lparen, rparen, lbrace, rbrace, lbracket, rbracket, colon, scolon]

/-- What tokens are made of. -/
def isTokenCharacter (c : Char) : Bool := !isspace c && !isDelimiter c

/-- The entry of the table of characters, which has no others. -/
def inTable (c : Char) : Bool := 33 ≤ c.toNat ∧ c.toNat ≤ 126 ∧ !isDelimiter c

/-- The characters that texts are made of. -/
def InAlphabet (c : Char) : Prop := isspace c ∨ isDelimiter c ∨ inTable c

instance (c : Char) : Decidable (InAlphabet c) := inferInstanceAs (Decidable (_ ∨ _))

/-! ## Productions -/

def Space (t rest : List Char) : Prop := ∃ spaces, t = spaces ++ rest ∧ ∀ c ∈ spaces, isspace c

/-- The two infix operators, the one that binds tighter first. -/
inductive Level where
  | scolon | colon
  deriving DecidableEq

def Level.separator : Level → Char
  | scolon => Lexical.scolon
  | colon => Lexical.colon

inductive NonTerminal where
  /-- Fragments, each with space after it. -/
  | fragments
  /-- A token or a list. -/
  | fragment2
  /-- One or more parts with the separator of the level between them. -/
  | parts (l : Level)
  /-- The parts as one fragment. -/
  | chain (l : Level)
  deriving DecidableEq

def NonTerminal.fragment1 : NonTerminal := .chain .scolon

def NonTerminal.fragment : NonTerminal := .chain .colon

/-- What is chained on a level. -/
def Level.part : Level → NonTerminal
  | scolon => .fragment2
  | colon => .fragment1

/-- A single part stays itself, and several become one list. -/
def chained : List Fragment → Fragment
  | [f] => f
  | fs => .node fs

def word (cs : List Char) (h : cs ≠ []) : Fragment := .atom ⟨cs, h⟩

def jumpToken : Fragment := word ['j', 'u', 'm', 'p'] (by simp)

def invokeToken : Fragment := word ['i', 'n', 'v', 'o', 'k', 'e'] (by simp)

/-- The brackets, with what the list begins with. -/
inductive Bracket : Char → List Fragment → Char → Prop
  | list : Bracket lparen [] rparen
  | clist : Bracket lbrace [jumpToken] rbrace
  | slist : Bracket lbracket [invokeToken] rbracket

/-- No token goes on in the text. -/
def Ends (t : List Char) : Prop := ∀ c ∈ t.head?, isTokenCharacter c = false

/-- The text begins with fragments of the nonterminal and goes on with the rest. -/
inductive Reads (munch : Prop) : NonTerminal → List Char → List Fragment → List Char → Prop
  | token {cs rest : List Char} (h : cs ≠ []) (hcs : ∀ c ∈ cs, isTokenCharacter c)
      (hm : munch → Ends rest) : Reads munch .fragment2 (cs ++ rest) [word cs h] rest
  | bracket {o close : Char} {first fs : List Fragment} {t t' rest : List Char}
      (hb : Bracket o first close) (hs : Space t t')
      (h : Reads munch .fragments t' fs (close :: rest)) :
      Reads munch .fragment2 (o :: t) [.node (first ++ fs)] rest
  | done (t : List Char) : Reads munch .fragments t [] t
  | more {f : Fragment} {fs : List Fragment} {t t' t'' rest : List Char}
      (hf : Reads munch .fragment t [f] t') (hs : Space t' t'')
      (h : Reads munch .fragments t'' fs rest) : Reads munch .fragments t (f :: fs) rest
  | part {l : Level} {f : Fragment} {t rest : List Char} (h : Reads munch l.part t [f] rest) :
      Reads munch (.parts l) t [f] rest
  | sep {l : Level} {f : Fragment} {fs : List Fragment} {t t₁ t₂ t₃ rest : List Char}
      (hf : Reads munch l.part t [f] t₁) (hs : Space t₁ (l.separator :: t₂)) (hs' : Space t₂ t₃)
      (h : Reads munch (.parts l) t₃ fs rest) : Reads munch (.parts l) t (f :: fs) rest
  | chain {l : Level} {fs : List Fragment} {t rest : List Char}
      (h : Reads munch (.parts l) t fs rest) : Reads munch (.chain l) t [chained fs] rest

/-- The whole text is a program of these fragments. -/
def IsProgram (munch : Prop) (text : List Char) (fs : List Fragment) : Prop :=
  ∃ t, Space text t ∧ Reads munch .fragments t fs []

/-- A reading with tokens as long as possible is one without that rule. -/
theorem Reads.plain {nt : NonTerminal} {t rest : List Char} {fs : List Fragment}
    (h : Reads True nt t fs rest) : Reads False nt t fs rest := by
  induction h with
  | token hne hcs _ => exact .token hne hcs False.elim
  | bracket hb hs _ ih => exact .bracket hb hs ih
  | done t => exact .done t
  | more _ hs _ ihf ih => exact .more ihf hs ih
  | part _ ih => exact .part ih
  | sep _ hs hs' _ ihf ih => exact .sep ihf hs hs' ih
  | chain _ ih => exact .chain ih

theorem IsProgram.plain {text : List Char} {fs : List Fragment} (h : IsProgram True text fs) :
    IsProgram False text fs := by
  obtain ⟨t, hs, hr⟩ := h
  exact ⟨t, hs, hr.plain⟩

end L2.Lexical
