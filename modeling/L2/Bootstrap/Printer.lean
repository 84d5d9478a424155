import L2.Bootstrap.LexerCorrect

/-!
# Printing fragments

In memory a list is a chain of cells, and a token is a chain of cells whose first fields
point at entries of the table of characters.  `print_fragment` tells the two apart by the
second word of what the first field points at: it is the `flag` of a character, which is
`NULL`, and the `rst` of a cell, which is not.  What it prints is read back as the same
fragment, whatever the layout in memory was.
-/

namespace L2.Bootstrap

open Lexical Unification

/-! ## Memory -/

abbrev Ptr := Nat

def null : Ptr := 0

/-- What an address points at: `struct character`, whose `flag` is never set, or
`struct _list_`. -/
inductive Object where
  | character (character : Char)
  | cell (fst rst : Ptr)

/-- `nil` is a cell of its own whose `rst` is itself. -/
structure FragmentMemory where
  object : Ptr → Option Object
  nil : Ptr
  object_null : object null = none
  object_nil : object nil = some (.cell null nil)

namespace FragmentMemory

variable (m : FragmentMemory)

def fst (s : Ptr) : Option Ptr :=
  match m.object s with
  | some (.cell fst _) => some fst
  | _ => none

def rst (s : Ptr) : Option Ptr :=
  match m.object s with
  | some (.cell _ rst) => some rst
  | _ => none

/-- The word at the place of `flag`. -/
def flag (s : Ptr) : Option Ptr :=
  match m.object s with
  | some (.character _) => some null
  | some (.cell _ rst) => some rst
  | none => none

def character (s : Ptr) : Option Char :=
  match m.object s with
  | some (.character c) => some c
  | _ => none

def isNil (s : Ptr) : Bool := s = m.nil

def isVar (s : Ptr) : Option Bool := do
  if m.isNil s then some false else some (decide ((← m.rst s) = s))

def length : Nat → Ptr → Option Nat
  | 0, _ => none
  | n + 1, l => if m.isNil l then some 0 else do return (← length n (← m.rst l)) + 1

def isToken (n : Nat) (d : Ptr) : Option Bool := do
  if ← m.isVar d then some false
  else if (← m.length n d) = 0 then some false
  else return decide ((← m.flag (← m.fst d)) = null)

/-- What a `foreach` loop comes to. -/
def elements : Nat → Ptr → Option (List Ptr)
  | 0, _ => none
  | n + 1, l =>
    if m.isNil l then some [] else do return (← m.fst l) :: (← elements n (← m.rst l))

end FragmentMemory

/-- `ulong_to_str`, which has no digit for zero. -/
def ulongToStr (i : Nat) : List Char := if i = 0 then [] else Nat.toDigits 10 i

def space : Char := Char.ofNat 32

def printFragment (m : FragmentMemory) : Nat → Ptr → Option (List Char)
  | 0, _ => none
  | n + 1, d => do
    if ← m.isVar d then some ('!' :: ulongToStr (d % 8192))
    else if ← m.isToken n d then (← m.elements n d).mapM m.character
    else do
      let ts ← (← m.elements n d).mapM (printFragment m n)
      return lparen :: (ts.flatMap (· ++ [space]) ++ [rparen])

/-! ## Fragments in memory -/

/-- The chain of cells of a token. -/
inductive HoldsToken (m : FragmentMemory) : Ptr → List Char → Prop
  | nil : HoldsToken m m.nil []
  | cons {l t rst : Ptr} {c : Char} {cs : List Char} (hne : l ≠ m.nil) (hrst : rst ≠ l)
    (hl : m.object l = some (.cell t rst)) (ht : m.object t = some (.character c))
    (h : HoldsToken m rst cs) : HoldsToken m l (c :: cs)

mutual

/-- The fragment that is at an address.  Only a variable is a cell that follows itself. -/
inductive Holds (m : FragmentMemory) : Ptr → Fragment → Prop
  | token {d : Ptr} {t : Token} (h : HoldsToken m d t.1) : Holds m d (.atom t)
  | list {d : Ptr} {ts : List Fragment} (h : HoldsList m d ts) : Holds m d (.node ts)

inductive HoldsList (m : FragmentMemory) : Ptr → List Fragment → Prop
  | nil : HoldsList m m.nil []
  | cons {l d rst : Ptr} {t : Fragment} {ts : List Fragment} (hne : l ≠ m.nil) (hrst : rst ≠ l)
    (hl : m.object l = some (.cell d rst)) (hd : Holds m d t) (h : HoldsList m rst ts) :
    HoldsList m l (t :: ts)

end

mutual

/-- The text of a fragment without variables. -/
def fragmentText : Fragment → List Char
  | .var _ => []
  | .atom t => t.1
  | .node ts => lparen :: (listText ts ++ [rparen])

def listText : List Fragment → List Char
  | [] => []
  | t :: ts => fragmentText t ++ space :: listText ts

end

variable {m : FragmentMemory} {l d : Ptr} {cs : List Char} {t : Fragment} {ts : List Fragment}

theorem HoldsToken.cell (h : HoldsToken m l cs) : ∃ fst rst, m.object l = some (.cell fst rst) := by
  cases h with
  | nil => exact ⟨null, m.nil, m.object_nil⟩
  | cons _ _ hl _ _ => exact ⟨_, _, hl⟩

theorem HoldsList.cell (h : HoldsList m l ts) : ∃ fst rst, m.object l = some (.cell fst rst) := by
  cases h with
  | nil => exact ⟨null, m.nil, m.object_nil⟩
  | cons _ _ hl _ _ => exact ⟨_, _, hl⟩

theorem FragmentMemory.ne_null {fst rst : Ptr} (h : m.object l = some (.cell fst rst)) :
    l ≠ null := by
  intro hl
  rw [hl, m.object_null] at h
  cases h

theorem HoldsToken.flag (h : HoldsToken m l cs) : ∃ rst, m.flag l = some rst ∧ rst ≠ null := by
  unfold FragmentMemory.flag
  cases h with
  | nil =>
    rw [m.object_nil]
    exact ⟨m.nil, rfl, FragmentMemory.ne_null m.object_nil⟩
  | cons _ _ hl _ h =>
    obtain ⟨_, _, hrst⟩ := h.cell
    rw [hl]
    exact ⟨_, rfl, FragmentMemory.ne_null hrst⟩

theorem HoldsList.flag (h : HoldsList m l ts) : ∃ rst, m.flag l = some rst ∧ rst ≠ null := by
  unfold FragmentMemory.flag
  cases h with
  | nil =>
    rw [m.object_nil]
    exact ⟨m.nil, rfl, FragmentMemory.ne_null m.object_nil⟩
  | cons _ _ hl _ h =>
    obtain ⟨_, _, hrst⟩ := h.cell
    rw [hl]
    exact ⟨_, rfl, FragmentMemory.ne_null hrst⟩

/-- What is taken for the flag of a fragment is not null, also where the fragment is the
empty list. -/
theorem Holds.flag (h : Holds m d t) : ∃ rst, m.flag d = some rst ∧ rst ≠ null := by
  cases h with
  | token h => exact h.flag
  | list h => exact h.flag

/-! ## The loops over a chain -/

theorem FragmentMemory.isNil_of_ne (h : l ≠ m.nil) : m.isNil l = false := decide_eq_false h

@[simp] theorem FragmentMemory.isNil_nil : m.isNil m.nil = true := decide_eq_true rfl

theorem FragmentMemory.rst_eq {fst rst : Ptr} (h : m.object l = some (.cell fst rst)) :
    m.rst l = some rst := by
  unfold FragmentMemory.rst
  rw [h]

theorem FragmentMemory.fst_eq {fst rst : Ptr} (h : m.object l = some (.cell fst rst)) :
    m.fst l = some fst := by
  unfold FragmentMemory.fst
  rw [h]

theorem FragmentMemory.isVar_nil : m.isVar m.nil = some false := by
  unfold FragmentMemory.isVar
  rw [FragmentMemory.isNil_nil]
  rfl

theorem FragmentMemory.isVar_cell {fst rst : Ptr} (hne : l ≠ m.nil) (hrst : rst ≠ l)
    (h : m.object l = some (.cell fst rst)) : m.isVar l = some false := by
  unfold FragmentMemory.isVar
  rw [FragmentMemory.isNil_of_ne hne, FragmentMemory.rst_eq h]
  exact congrArg some (decide_eq_false hrst)

theorem HoldsToken.isVar (h : HoldsToken m l cs) : m.isVar l = some false := by
  cases h with
  | nil => exact FragmentMemory.isVar_nil
  | cons hne hrst hl _ _ => exact FragmentMemory.isVar_cell hne hrst hl

theorem HoldsList.isVar (h : HoldsList m l ts) : m.isVar l = some false := by
  cases h with
  | nil => exact FragmentMemory.isVar_nil
  | cons hne hrst hl _ _ => exact FragmentMemory.isVar_cell hne hrst hl

theorem FragmentMemory.elements_succ {fst rst : Ptr} (hne : l ≠ m.nil)
    (h : m.object l = some (.cell fst rst)) {n : Nat} {ps : List Ptr}
    (hrest : m.elements n rst = some ps) : m.elements (n + 1) l = some (fst :: ps) := by
  rw [FragmentMemory.elements, FragmentMemory.isNil_of_ne hne, FragmentMemory.fst_eq h,
    FragmentMemory.rst_eq h]
  show (do return fst :: (← m.elements n rst)) = _
  rw [hrest]
  rfl

theorem FragmentMemory.length_succ {fst rst : Ptr} (hne : l ≠ m.nil)
    (h : m.object l = some (.cell fst rst)) {n k : Nat} (hrest : m.length n rst = some k) :
    m.length (n + 1) l = some (k + 1) := by
  rw [FragmentMemory.length, FragmentMemory.isNil_of_ne hne, FragmentMemory.rst_eq h]
  show (do return (← m.length n rst) + 1) = _
  rw [hrest]
  rfl

theorem HoldsToken.length (h : HoldsToken m l cs) {n : Nat} (hn : cs.length < n) :
    m.length n l = some cs.length := by
  induction h generalizing n with
  | nil =>
    obtain ⟨k, rfl⟩ : ∃ k, n = k + 1 := ⟨n - 1, by simp at hn; omega⟩
    rw [FragmentMemory.length, FragmentMemory.isNil_nil]
    rfl
  | cons hne _ hl _ _ ih =>
    obtain ⟨k, rfl⟩ : ∃ k, n = k + 1 := ⟨n - 1, by simp at hn; omega⟩
    exact FragmentMemory.length_succ hne hl (ih (by simp at hn; omega))

theorem HoldsList.length : ∀ {ts : List Fragment} {l : Ptr}, HoldsList m l ts → ∀ {n : Nat},
    ts.length < n → m.length n l = some ts.length
  | [], _, .nil, n, hn => by
    obtain ⟨k, rfl⟩ : ∃ k, n = k + 1 := ⟨n - 1, by simp at hn; omega⟩
    rw [FragmentMemory.length, FragmentMemory.isNil_nil]
    rfl
  | t :: ts, _, .cons hne _ hl _ h, n, hn => by
    obtain ⟨k, rfl⟩ : ∃ k, n = k + 1 := ⟨n - 1, by simp at hn; omega⟩
    exact FragmentMemory.length_succ hne hl (h.length (by simp at hn; omega))

/-- The characters of a token are those that its elements point at. -/
theorem HoldsToken.elements (h : HoldsToken m l cs) {n : Nat} (hn : cs.length < n) :
    ∃ ps, m.elements n l = some ps ∧ ps.mapM m.character = some cs := by
  induction h generalizing n with
  | nil =>
    obtain ⟨k, rfl⟩ : ∃ k, n = k + 1 := ⟨n - 1, by simp at hn; omega⟩
    refine ⟨[], ?_, rfl⟩
    rw [FragmentMemory.elements, FragmentMemory.isNil_nil]
    rfl
  | @cons l t rst c cs hne _ hl ht _ ih =>
    obtain ⟨k, rfl⟩ : ∃ k, n = k + 1 := ⟨n - 1, by simp at hn; omega⟩
    obtain ⟨ps, hps, hcs⟩ := ih (n := k) (by simp at hn; omega)
    refine ⟨t :: ps, FragmentMemory.elements_succ hne hl hps, ?_⟩
    have hc : m.character t = some c := by
      unfold FragmentMemory.character
      rw [ht]
    rw [List.mapM_cons, hc, hcs]
    rfl

/-- The elements of a list point at its fragments. -/
theorem HoldsList.elements : ∀ {ts : List Fragment} {l : Ptr}, HoldsList m l ts →
    ∃ ps, List.Forall₂ (Holds m) ps ts ∧ ∀ n > ts.length, m.elements n l = some ps
  | [], _, .nil => by
    refine ⟨[], .nil, fun n hn => ?_⟩
    obtain ⟨k, rfl⟩ : ∃ k, n = k + 1 := ⟨n - 1, by simp at hn; omega⟩
    rw [FragmentMemory.elements, FragmentMemory.isNil_nil]
    rfl
  | t :: ts, _, .cons hne _ hl hd h => by
    obtain ⟨ps, hts, hps⟩ := h.elements
    refine ⟨_ :: ps, .cons hd hts, fun n hn => ?_⟩
    obtain ⟨k, rfl⟩ : ∃ k, n = k + 1 := ⟨n - 1, by simp at hn; omega⟩
    exact FragmentMemory.elements_succ hne hl (hps k (by simp at hn; omega))

/-! ## Telling tokens from lists -/

theorem HoldsToken.isToken (h : HoldsToken m l cs) (hcs : cs ≠ []) {n : Nat}
    (hn : cs.length < n) : m.isToken n l = some true := by
  have hlen := h.length hn
  unfold FragmentMemory.isToken
  rw [h.isVar, hlen]
  cases h with
  | nil => exact absurd rfl hcs
  | @cons l t rst c cs hne hrst hl ht h =>
    have hflag : m.flag t = some null := by
      unfold FragmentMemory.flag
      rw [ht]
    show (do return decide ((← m.flag (← m.fst l)) = null)) = _
    rw [FragmentMemory.fst_eq hl]
    show (do return decide ((← m.flag t) = null)) = _
    rw [hflag]
    rfl

/-- No list is taken for a token, whatever it begins with. -/
theorem HoldsList.isToken (h : HoldsList m l ts) {n : Nat} (hn : ts.length < n) :
    m.isToken n l = some false := by
  have hlen := h.length hn
  unfold FragmentMemory.isToken
  rw [h.isVar, hlen]
  cases h with
  | nil => rfl
  | @cons l d rst t ts hne hrst hl hd h =>
    obtain ⟨rst, hflag, hnull⟩ := hd.flag
    show (do return decide ((← m.flag (← m.fst l)) = null)) = _
    rw [FragmentMemory.fst_eq hl]
    show (do return decide ((← m.flag d) = null)) = _
    rw [hflag]
    exact congrArg some (decide_eq_false hnull)

/-! ## What is printed -/

theorem listText_eq (ts : List Fragment) :
    listText ts = (ts.map fragmentText).flatMap (· ++ [space]) := by
  induction ts with
  | nil => rfl
  | cons t ts ih => simp [listText, ih]

/-- The loop over the fragments of a list, where every one of them is printed. -/
theorem exists_mapM_printFragment {ps : List Ptr} (h : List.Forall₂ (Holds m) ps ts)
    (hts : ∀ t ∈ ts, ∀ d, Holds m d t →
      ∃ N, ∀ n ≥ N, printFragment m n d = some (fragmentText t)) :
    ∃ N, ∀ n ≥ N, ps.mapM (printFragment m n) = some (ts.map fragmentText) := by
  induction h with
  | nil => exact ⟨0, fun _ _ => rfl⟩
  | @cons d t ps ts hd _ ih =>
    obtain ⟨N, hN⟩ := hts t List.mem_cons_self d hd
    obtain ⟨M, hM⟩ := ih fun u hu => hts u (List.mem_cons_of_mem t hu)
    refine ⟨max N M, fun n hn => ?_⟩
    rw [List.mapM_cons, hN n (by omega), hM n (by omega)]
    rfl

theorem printFragment_eq (t : Fragment) : ∀ d, Holds m d t →
    ∃ N, ∀ n ≥ N, printFragment m n d = some (fragmentText t) := by
  induction t using Term.memInduction with
  | var v => exact nofun
  | atom t =>
    intro d h
    cases h with
    | token h =>
      refine ⟨t.1.length + 2, fun n hn => ?_⟩
      obtain ⟨k, rfl⟩ : ∃ k, n = k + 1 := ⟨n - 1, by omega⟩
      obtain ⟨ps, hps, hcs⟩ := h.elements (n := k) (by omega)
      rw [printFragment, h.isVar]
      show (do if ← m.isToken k d then (← m.elements k d).mapM m.character else _) = _
      rw [h.isToken t.2 (by omega), hps]
      exact hcs
  | node ts ih =>
    intro d h
    cases h with
    | list h =>
      obtain ⟨ps, hheld, hps⟩ := h.elements
      obtain ⟨N, hN⟩ := exists_mapM_printFragment hheld ih
      refine ⟨max N ts.length + 2, fun n hn => ?_⟩
      obtain ⟨k, rfl⟩ : ∃ k, n = k + 1 := ⟨n - 1, by omega⟩
      rw [printFragment, h.isVar]
      show (do if ← m.isToken k d then _ else _) = _
      rw [h.isToken (by omega)]
      show (do
        let ts ← (← m.elements k d).mapM (printFragment m k)
        return lparen :: (ts.flatMap (· ++ [space]) ++ [rparen])) = _
      rw [hps k (by omega)]
      show (do
        let ts ← ps.mapM (printFragment m k)
        return lparen :: (ts.flatMap (· ++ [space]) ++ [rparen])) = _
      rw [hN k (by omega), fragmentText, listText_eq]
      rfl

/-! ## Reading what is printed -/

mutual

/-- The fragments that the readers make: without variables, and with the characters of the
table in their tokens. -/
def Readable : Fragment → Prop
  | .var _ => False
  | .atom t => ∀ c ∈ t.1, isTokenCharacter c ∧ charOf c = c
  | .node ts => AllReadable ts

def AllReadable : List Fragment → Prop
  | [] => True
  | t :: ts => Readable t ∧ AllReadable ts

end

theorem allReadable_append {us : List Fragment} :
    AllReadable (ts ++ us) ↔ AllReadable ts ∧ AllReadable us := by
  induction ts with
  | nil => simp [AllReadable]
  | cons t ts ih => simp [AllReadable, ih, and_assoc]

theorem charOf_readable {c : Char} :
    isTokenCharacter (charOf c) ∧ charOf (charOf c) = charOf c := by
  have hnul : isTokenCharacter nul = true ∧ charOf nul = nul := by decide
  unfold charOf
  by_cases hc : inTable c
  · rw [if_pos hc, if_pos hc]
    refine ⟨?_, rfl⟩
    unfold isTokenCharacter
    unfold inTable at hc
    simp only [Bool.decide_and, Bool.decide_eq_true, Bool.and_eq_true, decide_eq_true_eq] at hc
    have hs : isspace c = false := by
      unfold isspace
      simp only [List.mem_cons, List.not_mem_nil, or_false, decide_eq_false_iff_not]
      omega
    rw [hs, hc.2.2]
    rfl
  · rw [if_neg hc]
    exact hnul

/-- What follows a fragment and space: neither space nor an operator. -/
structure Stops (u : List Char) : Prop where
  noSpace : NoSpace u
  separator : ∀ c ∈ u.head?, c ≠ colon ∧ c ≠ scolon

variable {src gap u rest : List Char} {pos : Nat}

theorem le_length_of_drop {w : List Char} (h : src.drop pos = w) (hw : w ≠ []) :
    pos + w.length = src.length := by
  have hlen := congrArg List.length h
  rw [List.length_drop] at hlen
  have hpos : w.length ≠ 0 := by
    intro h0
    exact hw (List.eq_nil_of_length_eq_zero h0)
  omega

theorem drop_add {v w : List Char} (h : src.drop pos = v ++ w) : src.drop (pos + v.length) = w := by
  rw [← List.drop_drop, h, List.drop_left]

theorem charAt_of_drop {c : Char} (h : src.drop pos = c :: rest) : charAt src pos = .ok c := by
  unfold charAt
  have hget : src[pos]? = some c := by
    rw [← List.head?_drop, h]
    rfl
  rw [hget]

theorem isspace_nil : ∀ c ∈ ([] : List Char), isspace c := fun _ hc => absurd hc List.not_mem_nil

theorem skipWhitespace_noSpace (h : src.drop pos = u) (hu : NoSpace u) (hpos : pos ≤ src.length) :
    skipWhitespace src pos = pos := by
  obtain ⟨h1, h2, ⟨ss, h3, hs⟩, -⟩ := skipWhitespace_spec hpos
  cases ss with
  | nil =>
    have hlen := congrArg List.length h3
    simp only [List.nil_append, List.length_drop] at hlen
    omega
  | cons c ss =>
    rw [h] at h3
    have hc := hu c (by rw [h3]; rfl)
    rw [hs c List.mem_cons_self] at hc
    cases hc

theorem skipWhitespace_eq (hs : ∀ c ∈ gap, isspace c) (hu : NoSpace u) :
    ∀ {pos : Nat}, pos ≤ src.length → src.drop pos = gap ++ u →
      skipWhitespace src pos = pos + gap.length := by
  induction gap with
  | nil =>
    intro pos hpos h
    exact skipWhitespace_noSpace h hu hpos
  | cons c ss ih =>
    intro pos hpos h
    have hlt := le_length_of_drop h (by simp)
    simp only [List.cons_append, List.length_cons] at hlt
    have hin : pos < src.length := by omega
    have hc : src[pos] = c := by
      rw [List.drop_eq_getElem_cons hin] at h
      exact (List.cons.inj h).1
    have hrest : src.drop (pos + 1) = ss ++ u := drop_add (v := [c]) h
    rw [skipWhitespace, dif_pos (by omega), hc, if_pos (hs c List.mem_cons_self),
      ih (fun d hd => hs d (List.mem_cons_of_mem c hd)) (by omega) hrest, List.length_cons]
    omega

theorem readWhitespace_eq (hs : ∀ c ∈ gap, isspace c) (hu : NoSpace u) (hpos : pos ≤ src.length)
    (h : src.drop pos = gap ++ u) : readWhitespace src pos = (u.length, pos + gap.length) := by
  have hlen := congrArg List.length h
  simp only [List.length_drop, List.length_append] at hlen
  unfold readWhitespace
  rw [skipWhitespace_eq hs hu hpos h]
  refine Prod.ext ?_ rfl
  show src.length - (pos + gap.length) = u.length
  omega

/-- The loop of `read_token` goes on to the end of the characters. -/
theorem readCharacters_eq {cs : List Char} (hcs : ∀ c ∈ cs, isTokenCharacter c ∧ charOf c = c)
    (hends : Ends rest) {c : Char} (hc : charOf c = c) : ∀ (l : List Char) (pos : Nat),
      pos ≤ src.length → src.drop pos = cs ++ rest →
        ∃ t : Token, t.1 = l ++ c :: cs ∧ readCharacters src l c pos =
          .ok (t, pos + cs.length) := by
  induction cs generalizing c with
  | nil =>
    intro l pos hpos h
    refine ⟨⟨l ++ [charOf c], by simp⟩, by rw [hc], ?_⟩
    rw [readCharacters]
    by_cases hend : pos = src.length
    · rw [if_pos hend]
      rfl
    · have hget : ∃ c', src[pos]? = some c' ∧ rest.head? = some c' := by
        obtain ⟨c', -, -, hget, hdrop⟩ := exists_charAt (show pos < src.length by omega)
        refine ⟨c', hget, ?_⟩
        have hrest : rest = src.drop pos := h.symm
        rw [hrest, hdrop]
        rfl
      obtain ⟨c', hget, hhead⟩ := hget
      rw [if_neg hend]
      split
      · next hnone =>
        rw [hget] at hnone
        cases hnone
      · next d hd =>
        obtain rfl : c' = d := Option.some.inj (hget.symm.trans hd)
        rw [if_neg (by rw [hends c' hhead]; exact Bool.false_ne_true)]
        rfl
  | cons d ds ih =>
    intro l pos hpos h
    have hlt := le_length_of_drop h (by simp)
    simp only [List.cons_append, List.length_cons] at hlt
    have hget : src[pos]? = some d := by
      rw [← List.head?_drop, h]
      rfl
    obtain ⟨hd, hrest⟩ := List.forall_mem_cons.mp hcs
    obtain ⟨t, ht, hread⟩ := ih hrest hd.2 (l ++ [charOf c]) (pos + 1) (by omega)
      (drop_add (v := [d]) h)
    refine ⟨t, ?_, ?_⟩
    · rw [ht, hc]
      simp
    · rw [readCharacters, if_neg (by omega)]
      split
      · next hnone =>
        rw [hget] at hnone
        cases hnone
      · next d' hd' =>
        obtain rfl : d = d' := Option.some.inj (hget.symm.trans hd')
        rw [if_pos hd.1, hread, List.length_cons]
        exact congrArg (fun p => Except.ok (t, p)) (by omega)

theorem isTokenCharacter_iff {c : Char} :
    isTokenCharacter c ↔ isspace c = false ∧ isDelimiter c = false := by
  unfold isTokenCharacter
  simp

theorem readToken_eq {t : Token} (ht : ∀ c ∈ t.1, isTokenCharacter c ∧ charOf c = c)
    (hends : Ends rest) (h : src.drop pos = t.1 ++ rest) :
    readToken src pos = .ok (.atom t, pos + t.1.length) := by
  obtain ⟨cs, hne⟩ := t
  cases cs with
  | nil => exact absurd rfl hne
  | cons c cs =>
    have hlt := le_length_of_drop h (by simp)
    simp only [List.cons_append, List.length_cons] at hlt
    obtain ⟨hc, hcs⟩ := List.forall_mem_cons.mp ht
    obtain ⟨t, hval, hread⟩ := readCharacters_eq hcs hends hc.2 [] (pos + 1) (by omega)
      (drop_add (v := [c]) h)
    obtain ⟨hs, hd⟩ := isTokenCharacter_iff.mp hc.1
    unfold readToken
    rw [if_neg (by omega), charAt_of_drop h]
    show (if _ then _ else (readCharacters src [] c (pos + 1)).bind _) = _
    rw [if_neg (by rw [hs, hd]; exact Bool.false_ne_true), hread]
    have hpos : pos + 1 + cs.length = pos + (c :: cs).length := by
      rw [List.length_cons]
      omega
    show Except.ok (Term.atom t, pos + 1 + cs.length) = _
    rw [hpos]
    exact congrArg (fun t => Except.ok (Term.atom t, _)) (Subtype.ext hval)

/-- Behind a part, with no operator after it, the loop of parts ends. -/
theorem partsStep_eq {separator : Char} (hsep : separator = colon ∨ separator = scolon)
    {part : Nat → Except Fault (Fragment × Nat)}
    {parts : List Fragment → Nat → Except Fault (List Fragment × Nat)} {sexprs : List Fragment}
    (hs : ∀ c ∈ gap, isspace c) (hstop : Stops u) (hpos : pos ≤ src.length)
    (h : src.drop pos = gap ++ u) :
    partsStep src separator part parts sexprs pos = .ok (sexprs, pos + gap.length) := by
  unfold partsStep
  rw [readWhitespace_eq hs hstop.noSpace hpos h]
  cases u with
  | nil => rfl
  | cons c u =>
    have hc : c ≠ separator := by
      obtain ⟨h1, h2⟩ := hstop.separator c rfl
      rcases hsep with rfl | rfl
      · exact h1
      · exact h2
    show (if (c :: u).length ≠ 0 then _ else _) = _
    rw [if_pos (by simp), charAt_of_drop (drop_add h)]
    show (if c = separator then _ else _) = _
    rw [if_neg hc]

/-- What stands alone between operators is read as it is. -/
theorem readFragment_of_fragment1 {n p : Nat} (hread : readFragment1 src (n + 1) pos = .ok (t, p))
    (hs : ∀ c ∈ gap, isspace c) (hstop : Stops u) (hp : p ≤ src.length)
    (h : src.drop p = gap ++ u) :
    readFragment src (n + 3) pos = .ok (t, p + gap.length) := by
  have hlen := congrArg List.length h
  simp only [List.length_drop, List.length_append] at hlen
  have hinner : readFragment2 src (n + 2) pos = .ok (t, p + gap.length) := by
    rw [readFragment2_succ]
    unfold chainStep
    rw [hread, readFragment1Parts_succ]
    show (partsStep _ _ _ _ [t] p).bind _ = _
    rw [partsStep_eq (.inr rfl) hs hstop hp h]
    rfl
  rw [readFragment_succ]
  unfold chainStep
  rw [hinner, readFragment2Parts_succ]
  show (partsStep _ _ _ _ [t] (p + gap.length)).bind _ = _
  rw [partsStep_eq (.inl rfl) isspace_nil hstop (by omega)
    (drop_add h)]
  rfl

theorem isspace_space : ∀ c ∈ [space], isspace c := List.forall_mem_singleton.mpr rfl

/-- A property that is checked for the characters of a list. -/
theorem readable_of_all {cs : List Char}
    (h : (cs.all fun c => decide (isTokenCharacter c ∧ charOf c = c)) = true) :
    ∀ c ∈ cs, isTokenCharacter c ∧ charOf c = c :=
  fun c hc => of_decide_eq_true (List.all_eq_true.mp h c hc)

/-- The text of a fragment begins with a character that neither closes a list nor goes on
with an operator. -/
theorem fragmentText_head (ht : Readable t) :
    ∃ c w, fragmentText t = c :: w ∧ isspace c = false ∧ c ≠ rparen ∧ c ≠ colon ∧ c ≠ scolon := by
  cases t with
  | var v => exact ht.elim
  | atom t =>
    obtain ⟨cs, hne⟩ := t
    cases cs with
    | nil => exact absurd rfl hne
    | cons c cs =>
      obtain ⟨hs, hd⟩ := isTokenCharacter_iff.mp (ht c List.mem_cons_self).1
      refine ⟨c, cs, rfl, hs, ?_, ?_, ?_⟩ <;> (rintro rfl; revert hd; decide)
  | node ts => exact ⟨lparen, _, rfl, by decide⟩

/-- A fragment is followed by space in a list, and then by another fragment or the end. -/
theorem stops_listText (hts : AllReadable ts) (rest : List Char) :
    Stops (listText ts ++ rparen :: rest) := by
  cases ts with
  | nil =>
    refine ⟨fun c hc => ?_, fun c hc => ?_⟩ <;>
      (obtain rfl : rparen = c := Option.some.inj hc; decide)
  | cons t ts =>
    obtain ⟨c, w, hw, hs, -, hcolon, hscolon⟩ := fragmentText_head hts.1
    have hhead : (listText (t :: ts) ++ rparen :: rest).head? = some c := by
      rw [listText, hw]
      rfl
    refine ⟨fun d hd => ?_, fun d hd => ?_⟩
    · obtain rfl : c = d := Option.some.inj (hhead.symm.trans hd)
      exact hs
    · obtain rfl : c = d := Option.some.inj (hhead.symm.trans hd)
      exact ⟨hcolon, hscolon⟩

/-- From some depth on the text of the fragment is read as the fragment. -/
def ReadsBack (t : Fragment) : Prop :=
  ∃ N, ∀ n ≥ N, ∀ (src : List Char) (pos : Nat) (rest : List Char), pos ≤ src.length →
    src.drop pos = fragmentText t ++ rest → Ends rest →
      readFragment1 src n pos = .ok (t, pos + (fragmentText t).length)

/-- The loop of `read_list` over the text of a list. -/
theorem readListElements_listText (hts : AllReadable ts) (hback : ∀ t ∈ ts, ReadsBack t) :
    ∃ N, ∀ n ≥ N, ∀ (src : List Char) (sexprs : List Fragment) (pos : Nat) (rest : List Char),
      pos ≤ src.length → src.drop pos = listText ts ++ rparen :: rest →
        readListElements src n sexprs rparen pos =
          .ok (.node (sexprs ++ ts), pos + (listText ts).length + 1) := by
  induction ts with
  | nil =>
    refine ⟨1, fun n hn src sexprs pos rest hpos h => ?_⟩
    obtain ⟨k, rfl⟩ : ∃ k, n = k + 1 := ⟨n - 1, by omega⟩
    rw [readListElements, readWhitespace_eq isspace_nil
      (stops_listText hts rest).noSpace hpos h]
    show ((charAt src pos).map (· == rparen)).bind _ = _
    rw [charAt_of_drop h, List.append_nil]
    rfl
  | cons t ts ih =>
    obtain ⟨N, hN⟩ := hback t List.mem_cons_self
    obtain ⟨M, hM⟩ := ih hts.2 fun u hu => hback u (List.mem_cons_of_mem t hu)
    refine ⟨max N M + 4, fun n hn src sexprs pos rest hpos h => ?_⟩
    obtain ⟨k, rfl⟩ : ∃ k, n = k + 4 := ⟨n - 4, by omega⟩
    obtain ⟨c, w, hw, hs, hclose, -, -⟩ := fragmentText_head hts.1
    have htext : src.drop pos = fragmentText t ++ ([space] ++ (listText ts ++ rparen :: rest)) := by
      rw [h, listText]
      simp
    have hlen := le_length_of_drop htext (by simp)
    simp only [List.length_append, List.length_cons, List.length_nil] at hlen
    have hread := hN (k + 1) (by omega) src pos _ hpos htext (by
      intro d hd
      obtain rfl : space = d := Option.some.inj hd
      decide)
    have hfragment := readFragment_of_fragment1 hread isspace_space (stops_listText hts.2 rest)
      (by omega) (drop_add htext)
    have hhead : src.drop pos = c :: (w ++ ([space] ++ (listText ts ++ rparen :: rest))) := by
      rw [htext, hw]
      rfl
    have hspace : NoSpace (c :: (w ++ ([space] ++ (listText ts ++ rparen :: rest)))) := by
      intro d hd
      obtain rfl : c = d := Option.some.inj hd
      exact hs
    rw [readListElements, readWhitespace_eq isspace_nil
      hspace hpos hhead]
    show ((charAt src pos).map (· == rparen)).bind _ = _
    rw [charAt_of_drop hhead]
    show (if (c == rparen) = true then _ else (readFragment src (k + 3) pos).bind _) = _
    rw [if_neg (by simpa using hclose), hfragment]
    have hp : pos + (fragmentText t).length + [space].length ≤ src.length := by
      simp only [List.length_cons, List.length_nil]
      omega
    have hrest := hM (k + 3) (by omega) src (sexprs ++ [t]) _ rest hp (drop_add (drop_add htext))
    show readListElements src (k + 3) (sexprs ++ [t]) rparen _ = _
    rw [hrest]
    rw [List.append_assoc, listText]
    simp only [List.length_append, List.length_cons, List.length_nil, List.cons_append,
      List.nil_append]
    exact congrArg (fun p => Except.ok (Term.node (sexprs ++ t :: ts), p)) (by omega)

theorem allReadable_iff : AllReadable ts ↔ ∀ t ∈ ts, Readable t := by
  induction ts with
  | nil => simp [AllReadable]
  | cons t ts ih => simp [AllReadable, ih]

theorem readsBack (t : Fragment) : Readable t → ReadsBack t := by
  induction t using Term.memInduction with
  | var v => exact False.elim
  | atom t =>
    intro ht
    refine ⟨1, fun n hn src pos rest hpos h hends => ?_⟩
    obtain ⟨k, rfl⟩ : ∃ k, n = k + 1 := ⟨n - 1, by omega⟩
    obtain ⟨c, w, hw, hs, -, -, -⟩ := fragmentText_head ht
    have hhead : src.drop pos = c :: (w ++ rest) := by
      rw [h, hw]
      rfl
    have hlt := le_length_of_drop hhead (by simp)
    simp only [List.length_cons] at hlt
    have hopen : ¬ (c = lparen ∨ c = lbrace ∨ c = lbracket) := by
      have hc := (ht c (by rw [show t.1 = c :: w from hw]; exact List.mem_cons_self)).1
      obtain ⟨-, hd⟩ := isTokenCharacter_iff.mp hc
      rintro (rfl | rfl | rfl) <;> (revert hd; decide)
    rw [readFragment1, if_neg (by omega), charAt_of_drop hhead]
    show (if _ then _ else readToken src pos) = _
    rw [if_neg hopen]
    exact readToken_eq ht hends h
  | node ts ih =>
    intro ht
    obtain ⟨N, hN⟩ := readListElements_listText ht fun t hmem =>
      ih t hmem (allReadable_iff.mp ht t hmem)
    refine ⟨N + 2, fun n hn src pos rest hpos h hends => ?_⟩
    obtain ⟨k, rfl⟩ : ∃ k, n = k + 2 := ⟨n - 2, by omega⟩
    have hhead : src.drop pos = lparen :: (listText ts ++ rparen :: rest) := by
      rw [h, fragmentText]
      simp
    have hlt := le_length_of_drop hhead (by simp)
    simp only [List.length_cons] at hlt
    have hget : src[pos]? = some lparen := by
      rw [← List.head?_drop, hhead]
      rfl
    rw [readFragment1, if_neg (by omega), charAt_of_drop hhead]
    show readList src (k + 1) pos = _
    rw [readList_eq (by omega) hget .list, hN k (by omega) src [] (pos + 1) rest (by omega)
      (drop_add (v := [lparen]) hhead), fragmentText]
    simp only [List.length_append, List.length_cons, List.length_nil, List.nil_append]
    exact congrArg (fun p => Except.ok (Term.node ts, p)) (by omega)

/-! ## What the readers make -/

/-- Whatever is answered has the property. -/
def Gives {α : Type} (P : α → Prop) (x : Except Fault (α × Nat)) : Prop :=
  ∀ a p, x = .ok (a, p) → P a

theorem Gives.bind {α β : Type} {P : α → Prop} {Q : β → Prop} {x : Except Fault (α × Nat)}
    {f : α × Nat → Except Fault (β × Nat)} (h : Gives P x) (hf : ∀ a p, P a → Gives Q (f (a, p))) :
    Gives Q (x >>= f) := by
  cases x with
  | error e => exact nofun
  | ok a => exact hf a.1 a.2 (h a.1 a.2 rfl)

theorem gives_error {α : Type} {P : α → Prop} (e : Fault) : Gives P (.error e) := nofun

theorem gives_ok {α : Type} {P : α → Prop} {a : α} (h : P a) (p : Nat) : Gives P (.ok (a, p)) := by
  intro b q heq
  rw [← (Prod.mk.inj (Except.ok.inj heq)).1]
  exact h

theorem gives_charAt {α : Type} {P : α → Prop} {f : Char → Except Fault (α × Nat)}
    (h : ∀ c, Gives P (f c)) (p : Nat) : Gives P (charAt src p >>= f) := by
  cases charAt src p with
  | error e => exact gives_error e
  | ok c => exact h c

theorem gives_readCharacters (l : List Char) (c : Char) (p : Nat)
    (hl : ∀ d ∈ l, isTokenCharacter d ∧ charOf d = d) :
    Gives (fun t : Token => ∀ d ∈ t.1, isTokenCharacter d ∧ charOf d = d)
      (readCharacters src l c p) := by
  have hl' : ∀ d ∈ l ++ [charOf c], isTokenCharacter d ∧ charOf d = d := by
    intro d hd
    rcases List.mem_append.mp hd with hd | hd
    · exact hl d hd
    · rw [List.mem_singleton.mp hd]
      exact charOf_readable
  fun_induction readCharacters src l c p with
  | case1 l c l' => exact gives_ok hl' _
  | case2 l c p hne hnone => exact gives_error _
  | case3 l c p l' hne c' hget ht ih =>
    apply ih hl'
    intro d hd
    rcases List.mem_append.mp hd with hd | hd
    · exact hl' d hd
    · rw [List.mem_singleton.mp hd]
      exact charOf_readable
  | case4 l c p l' hne c' hget ht => exact gives_ok hl' _

theorem gives_readToken (p : Nat) : Gives Readable (readToken src p) := by
  unfold readToken
  split
  · exact gives_error _
  · apply gives_charAt
    intro c
    split
    · exact gives_error _
    · exact Gives.bind (Q := Readable)
        (gives_readCharacters [] c (p + 1) fun d hd => (List.not_mem_nil hd).elim)
        fun t q ht => gives_ok (P := Readable) (a := .atom t) ht q

theorem readable_listOrOnly (h : AllReadable ts) : Readable (listOrOnly ts) := by
  match ts, h with
  | [], h => exact h
  | [t], h => exact h.1
  | t :: t' :: ts, h => exact h

theorem readable_jumpToken : Readable jumpToken := by
  show ∀ c ∈ ['j', 'u', 'm', 'p'], isTokenCharacter c ∧ charOf c = c
  exact readable_of_all (by decide)

theorem readable_invokeToken : Readable invokeToken := by
  show ∀ c ∈ ['i', 'n', 'v', 'o', 'k', 'e'], isTokenCharacter c ∧ charOf c = c
  exact readable_of_all (by decide)

/-- What the readers make at one depth. -/
structure Reading (src : List Char) (n : Nat) : Prop where
  list : ∀ p, Gives Readable (readList src n p)
  elements : ∀ ts close p, AllReadable ts → Gives Readable (readListElements src n ts close p)
  fragment1 : ∀ p, Gives Readable (readFragment1 src n p)
  parts1 : ∀ ts p, AllReadable ts → Gives AllReadable (readFragment1Parts src n ts p)
  fragment2 : ∀ p, Gives Readable (readFragment2 src n p)
  parts2 : ∀ ts p, AllReadable ts → Gives AllReadable (readFragment2Parts src n ts p)
  fragment : ∀ p, Gives Readable (readFragment src n p)

theorem gives_partsStep {separator : Char} {part : Nat → Except Fault (Fragment × Nat)}
    {parts : List Fragment → Nat → Except Fault (List Fragment × Nat)}
    (hpart : ∀ p, Gives Readable (part p))
    (hparts : ∀ ts p, AllReadable ts → Gives AllReadable (parts ts p)) (h : AllReadable ts)
    (p : Nat) : Gives AllReadable (partsStep src separator part parts ts p) := by
  unfold partsStep
  simp only
  split
  · apply gives_charAt
    intro c
    split
    · exact (hpart _).bind fun t q ht => hparts _ q (allReadable_append.mpr ⟨h, ht, trivial⟩)
    · exact gives_ok h _
  · exact gives_ok h _

theorem gives_chainStep {part : Nat → Except Fault (Fragment × Nat)}
    {parts : List Fragment → Nat → Except Fault (List Fragment × Nat)}
    (hpart : ∀ p, Gives Readable (part p))
    (hparts : ∀ ts p, AllReadable ts → Gives AllReadable (parts ts p)) (p : Nat) :
    Gives Readable (chainStep part parts p) := by
  unfold chainStep
  refine (hpart p).bind fun t q ht => ?_
  exact (hparts [t] q ⟨ht, trivial⟩).bind fun ts q hts =>
    gives_ok (P := Readable) (readable_listOrOnly hts) q

theorem reading (src : List Char) (n : Nat) : Reading src n := by
  induction n with
  | zero =>
    constructor
    · intro p
      rw [readList]
      exact gives_error _
    · intro ts close p _
      rw [readListElements]
      exact gives_error _
    · intro p
      rw [readFragment1]
      exact gives_error _
    · intro ts p _
      rw [readFragment1Parts]
      exact gives_error _
    · intro p
      rw [readFragment2]
      exact gives_error _
    · intro ts p _
      rw [readFragment2Parts]
      exact gives_error _
    · intro p
      rw [readFragment]
      exact gives_error _
  | succ n ih =>
    constructor
    · intro p
      rw [readList]
      split
      · exact gives_error _
      · apply gives_charAt
        intro c
        split
        · split
          · exact ih.elements _ _ _ ⟨readable_jumpToken, trivial⟩
          · split
            · exact ih.elements _ _ _ ⟨readable_invokeToken, trivial⟩
            · exact ih.elements _ _ _ trivial
        · exact gives_error _
    · intro ts close p h
      have hmore : ∀ q, Gives Readable ((readFragment src n q) >>= fun r =>
          readListElements src n (ts ++ [r.1]) close r.2) := fun q =>
        (ih.fragment q).bind fun t q ht =>
          ih.elements _ close q (allReadable_append.mpr ⟨h, ht, trivial⟩)
      rw [readListElements]
      dsimp only
      split
      · cases hc : charAt src (readWhitespace src p).2 with
        | error e => exact gives_error e
        | ok c =>
          show Gives Readable (if (c == close) = true then _ else _)
          split
          · exact gives_ok (P := Readable) (a := .node ts) h _
          · exact hmore _
      · exact hmore _
    · intro p
      rw [readFragment1]
      split
      · exact gives_error _
      · apply gives_charAt
        intro c
        split
        · exact ih.list p
        · exact gives_readToken p
    · intro ts p h
      rw [readFragment1Parts_succ]
      exact gives_partsStep ih.fragment1 ih.parts1 h p
    · intro p
      rw [readFragment2_succ]
      exact gives_chainStep ih.fragment1 ih.parts1 p
    · intro ts p h
      rw [readFragment2Parts_succ]
      exact gives_partsStep ih.fragment2 ih.parts2 h p
    · intro p
      rw [readFragment_succ]
      exact gives_chainStep ih.fragment2 ih.parts2 p

/-- From some depth on, a readable fragment is read back from its text, and the whole text is
gone over. -/
theorem readFragment_fragmentText (ht : Readable t) : ∃ N, ∀ n ≥ N,
    readFragment (fragmentText t) n 0 = .ok (t, (fragmentText t).length) := by
  obtain ⟨N, hN⟩ := readsBack t ht
  refine ⟨N + 3, fun n hn => ?_⟩
  obtain ⟨k, rfl⟩ : ∃ k, n = k + 3 := ⟨n - 3, by omega⟩
  have hread := hN (k + 1) (by omega) (fragmentText t) 0 [] (Nat.zero_le _) (by simp) nofun
  rw [Nat.zero_add] at hread
  exact readFragment_of_fragment1 (u := []) hread isspace_nil ⟨nofun, nofun⟩ (Nat.le_refl _)
    (by simp)

/-- Wherever in memory a fragment is that was read, printing it ends, and reading what was
printed gives the same fragment and comes to the end of the text. -/
theorem readFragment_printFragment {n p : Nat} (hread : readFragment src n pos = .ok (t, p))
    (hd : Holds m d t) : ∃ text, (∃ N, ∀ n ≥ N, printFragment m n d = some text) ∧
      ∃ N, ∀ n ≥ N, readFragment text n 0 = .ok (t, text.length) :=
  ⟨fragmentText t, printFragment_eq t d hd,
    readFragment_fragmentText ((reading src n).fragment pos t p hread)⟩

/-- The cells of `(() a)`: a list, its two elements, and the character. -/
def shortMemory : FragmentMemory where
  object
    | 8 => some (.cell null 8)
    | 16 => some (.cell 8 24)
    | 24 => some (.cell 32 8)
    | 32 => some (.cell 40 8)
    | 40 => some (.character 'a')
    | _ => none
  nil := 8
  object_null := rfl
  object_nil := rfl

def shortFragment : Fragment := .node [.node [], word ['a'] (by simp)]

theorem holds_shortMemory : Holds shortMemory 16 shortFragment := by
  have htoken : HoldsToken shortMemory 32 ['a'] := .cons (by decide) (by decide) rfl rfl .nil
  exact .list (.cons (by decide) (by decide) rfl (.list .nil)
    (.cons (by decide) (by decide) rfl (.token htoken) .nil))

theorem readable_shortFragment : Readable shortFragment := by
  have ha : ∀ c ∈ ['a'], isTokenCharacter c ∧ charOf c = c :=
    readable_of_all (by decide)
  exact ⟨trivial, ha, trivial⟩

theorem readFragment_shortFragment : ∃ text,
    (∃ N, ∀ n ≥ N, printFragment shortMemory n 16 = some text) ∧
      ∃ N, ∀ n ≥ N, readFragment text n 0 = .ok (shortFragment, text.length) := by
  obtain ⟨N, hN⟩ := readFragment_fragmentText readable_shortFragment
  exact readFragment_printFragment (hN N (Nat.le_refl N)) holds_shortMemory

end L2.Bootstrap
