import L2.Bootstrap.Lexer
import L2.Lexical.Acceptor

/-!
# The lexer reads the grammar

What each reader does at a position: it goes over text of its nonterminal, or throws where
no text of the nonterminal can begin.  The readers are related to the text that is left
at their position, and every loop to the acceptor as well, since a text that is refused
has to be no program at all.
-/

namespace L2.Bootstrap

open Lexical Unification

variable {α β : Type} {src : List Char}

/-! ## Concludes -/

/-- An answer satisfies `Q`, an unexpected character means `R`, and the bound is only
reached under `E`. -/
def Yields (Q : α → Nat → Prop) (R E : Prop) : Except Fault (α × Nat) → Prop
  | .ok (a, pos) => Q a pos
  | .error (.unexpectedCharacter _ _) => R
  | .error .outside => False
  | .error .exhausted => E

theorem Yields.bind {Q : α → Nat → Prop} {Q' : β → Nat → Prop} {R R' E E' : Prop}
    {x : Except Fault (α × Nat)} {f : α × Nat → Except Fault (β × Nat)} (h : Yields Q R E x)
    (hR : R → R') (hE : E → E') (hf : ∀ a pos, Q a pos → Yields Q' R' E' (f (a, pos))) :
    Yields Q' R' E' (x >>= f) := by
  cases x with
  | ok a => exact hf a.1 a.2 h
  | error e =>
    cases e with
    | unexpectedCharacter c pos => exact hR h
    | outside => exact h.elim
    | exhausted => exact hE h

theorem Yields.mono {Q Q' : α → Nat → Prop} {R R' E E' : Prop} {x : Except Fault (α × Nat)}
    (h : Yields Q R E x) (hQ : ∀ a pos, Q a pos → Q' a pos) (hR : R → R') (hE : E → E') :
    Yields Q' R' E' x := by
  cases x with
  | ok a => exact hQ a.1 a.2 h
  | error e =>
    cases e with
    | unexpectedCharacter c pos => exact hR h
    | outside => exact h.elim
    | exhausted => exact hE h

/-! ## Characters and space -/

theorem exists_charAt {pos : Nat} (h : pos < src.length) :
    ∃ c ∈ src, charAt src pos = .ok c ∧ src[pos]? = some c ∧
      src.drop pos = c :: src.drop (pos + 1) := by
  refine ⟨src[pos], List.getElem_mem h, ?_, List.getElem?_eq_getElem h,
    List.drop_eq_getElem_cons h⟩
  unfold charAt
  rw [List.getElem?_eq_getElem h]

theorem Space.trans {t u v : List Char} (h : Space t u) (h' : Space u v) : Space t v := by
  obtain ⟨ss, rfl, hs⟩ := h
  obtain ⟨ss', rfl, hs'⟩ := h'
  refine ⟨ss ++ ss', by simp, fun c hc => ?_⟩
  rcases List.mem_append.mp hc with hc | hc
  · exact hs c hc
  · exact hs' c hc

theorem skipWhitespace_spec {pos : Nat} (h : pos ≤ src.length) :
    pos ≤ skipWhitespace src pos ∧ skipWhitespace src pos ≤ src.length ∧
      Space (src.drop pos) (src.drop (skipWhitespace src pos)) ∧
      NoSpace (src.drop (skipWhitespace src pos)) := by
  fun_induction skipWhitespace src pos with
  | case1 pos hlt hs ih =>
    obtain ⟨h1, h2, h3, h4⟩ := ih (by omega)
    refine ⟨by omega, h2, ?_, h4⟩
    rw [List.drop_eq_getElem_cons hlt]
    exact Space.cons hs h3
  | case2 pos hlt hs =>
    refine ⟨Nat.le_refl _, h, Space.refl _, fun c hc => ?_⟩
    rw [List.drop_eq_getElem_cons hlt] at hc
    rw [← Option.some.inj hc]
    simpa using hs
  | case3 pos hlt =>
    refine ⟨Nat.le_refl _, h, Space.refl _, fun c hc => ?_⟩
    rw [List.drop_eq_nil_of_le (by omega)] at hc
    cases hc

/-- At the position behind space either the text is at its end or a character is left. -/
theorem readWhitespace_cases {pos : Nat} (h : pos ≤ src.length) :
    ∃ p, readWhitespace src pos = (src.length - p, p) ∧ pos ≤ p ∧ p ≤ src.length ∧
      Space (src.drop pos) (src.drop p) ∧ NoSpace (src.drop p) :=
  ⟨skipWhitespace src pos, rfl, skipWhitespace_spec h⟩

/-! ## Tokens -/

theorem charOf_eq {c : Char} (h : InAlphabet c) (hc : isTokenCharacter c) : charOf c = c := by
  unfold isTokenCharacter at hc
  unfold charOf
  rcases h with h | h | h
  · simp [h] at hc
  · simp [h] at hc
  · rw [if_pos h]

theorem readCharacters_spec (hsrc : ∀ c ∈ src, InAlphabet c) {l : List Char} {c : Char} {pos : Nat}
    (hc : InAlphabet c) (ht : isTokenCharacter c) (h : pos ≤ src.length) :
    Yields (fun token pos' => pos ≤ pos' ∧ pos' ≤ src.length ∧ ∃ cs, token.1 = l ++ c :: cs ∧
      src.drop pos = cs ++ src.drop pos' ∧ (∀ d ∈ cs, isTokenCharacter d) ∧ Ends (src.drop pos'))
      False False (readCharacters src l c pos) := by
  fun_induction readCharacters src l c pos with
  | case1 l c l' =>
    refine ⟨Nat.le_refl _, h, [], ?_, rfl, fun d hd => (List.not_mem_nil hd).elim, ?_⟩
    · simp [l', charOf_eq hc ht]
    · intro d hd
      rw [List.drop_length] at hd
      cases hd
  | case2 l c pos hne hnone =>
    have hlen := List.getElem?_eq_none_iff.mp hnone
    omega
  | case3 l c pos l' hne c' hsome hc' ih =>
    obtain ⟨hlt, hget⟩ := List.getElem?_eq_some_iff.mp hsome
    have hmem : c' ∈ src := hget ▸ List.getElem_mem hlt
    refine (ih (hsrc c' hmem) hc' (by omega)).mono (fun token pos' hQ => ?_) id id
    obtain ⟨h1, h2, cs, h3, h4, h5, h6⟩ := hQ
    refine ⟨by omega, h2, c' :: cs, ?_, ?_, ?_, h6⟩
    · rw [h3]
      simp [l', charOf_eq hc ht]
    · rw [List.drop_eq_getElem_cons hlt, hget, h4]
      rfl
    · intro d hd
      rcases List.mem_cons.mp hd with rfl | hd
      · exact hc'
      · exact h5 d hd
  | case4 l c pos l' hne c' hsome hc' =>
    obtain ⟨hlt, hget⟩ := List.getElem?_eq_some_iff.mp hsome
    refine ⟨Nat.le_refl _, h, [], ?_, rfl, fun d hd => (List.not_mem_nil hd).elim, ?_⟩
    · simp [l', charOf_eq hc ht]
    · intro d hd
      rw [Nat.add_sub_cancel, List.drop_eq_getElem_cons hlt, hget] at hd
      rw [← Option.some.inj hd]
      simpa using hc'

/-! ## What the readers do -/

/-- Where a reader leaves off: behind a chain there is neither space nor a separator that
would have made it longer. -/
def Rested : NonTerminal → List Char → Prop
  | .chain l, u => NoSpace u ∧ u.head? ≠ some scolon ∧ (l = .colon → u.head? ≠ some colon)
  | _, _ => True

/-- A reader of one fragment of the nonterminal. -/
def ReadsAt (src : List Char) (nt : NonTerminal) (E : Nat → Prop)
    (f : Nat → Except Fault (Fragment × Nat)) : Prop :=
  ∀ pos ≤ src.length, NoSpace (src.drop pos) →
    Yields (fun g pos' => pos < pos' ∧ pos' ≤ src.length ∧ Rested nt (src.drop pos') ∧
        ∃ t, Reads True nt (src.drop pos) [g] t ∧ Space t (src.drop pos'))
      (∀ stack, accepts .need stack (src.drop pos) = false) (E (src.length - pos)) (f pos)

/-- The parts behind the first one, from a separator on. -/
def Goes (l : Level) (t : List Char) (more : List Fragment) (u : List Char) : Prop :=
  more = [] ∧ Space t u ∨ ∃ t₂ t₃ t', Space t (l.separator :: t₂) ∧ Space t₂ t₃ ∧
    Reads True (.parts l) t₃ more t' ∧ Space t' u

/-- A loop that reads the parts behind those it has. -/
def PartsAt (src : List Char) (l : Level) (E : Nat → Prop)
    (f : List Fragment → Nat → Except Fault (List Fragment × Nat)) : Prop :=
  ∀ sexprs, ∀ pos ≤ src.length, Rested l.part (src.drop pos) →
    Yields (fun all pos' => pos ≤ pos' ∧ pos' ≤ src.length ∧ Rested (.chain l) (src.drop pos') ∧
        ∃ more, all = sexprs ++ more ∧ Goes l (src.drop pos) more (src.drop pos'))
      (∀ stack, accepts .after stack (src.drop pos) = false) (E (src.length - pos)) (f sexprs pos)

/-- A loop that reads the elements of a list behind those it has, and its end. -/
def ElementsAt (src : List Char) (E : Nat → Prop)
    (f : List Fragment → Char → Nat → Except Fault (Fragment × Nat)) : Prop :=
  ∀ sexprs o first close, Bracket o first close → ∀ pos ≤ src.length,
    Yields (fun g pos' => pos < pos' ∧ pos' ≤ src.length ∧ ∃ fs t, g = .node (sexprs ++ fs) ∧
        Space (src.drop pos) t ∧ Reads True .fragments t fs (close :: src.drop pos'))
      (∀ stack, accepts .start (close :: stack) (src.drop pos) = false) (E (src.length - pos))
      (f sexprs close pos)

/-! ## One step of each reader -/

theorem head_of_drop {pos : Nat} {c : Char} (h : src[pos]? = some c) :
    (src.drop pos).head? = some c := by
  rw [List.head?_drop, h]

theorem accepts_nil_of_need (stack : List Char) : accepts .need stack [] = false := by
  simp [accepts]

/-- Behind a chain the acceptor may as well stand at a beginning. -/
theorem accepts_of_rested {u stack : List Char} (h : Rested (.chain .colon) u) :
    accepts .after stack u = accepts .start stack u := by
  obtain ⟨hs, h1, h2⟩ := h
  cases u with
  | nil => simp [accepts]
  | cons c t =>
    have hc : isspace c = false := hs c rfl
    have h1 : c ≠ scolon := fun he => h1 (by rw [he]; rfl)
    have h2 : c ≠ colon := fun he => h2 rfl (by rw [he]; rfl)
    have hadv : advance .after stack c = advance .start stack c := by
      simp [advance, hc, h1, h2]
    rw [accepts, accepts, hadv]

theorem readToken_spec (hsrc : ∀ c ∈ src, InAlphabet c) {pos : Nat} {c : Char}
    (hlt : pos < src.length) (hget : src[pos]? = some c) (hs : NoSpace (src.drop pos))
    (ho : c ≠ lparen ∧ c ≠ lbrace ∧ c ≠ lbracket) (E : Prop) :
    Yields (fun g pos' => pos < pos' ∧ pos' ≤ src.length ∧
        Reads True .fragment2 (src.drop pos) [g] (src.drop pos'))
      (∀ stack, accepts .need stack (src.drop pos) = false) E (readToken src pos) := by
  obtain ⟨c', hmem, hchar, hget', hdrop⟩ := exists_charAt hlt
  obtain rfl : c = c' := Option.some.inj (hget.symm.trans hget')
  have hsp : isspace c = false := hs c (head_of_drop hget)
  unfold readToken
  rw [if_neg (by omega), hchar]
  show Yields _ _ _ (if _ then _ else _)
  by_cases hd : isDelimiter c
  · rw [if_pos (by simp [hd])]
    intro stack
    have hadv : advance .need stack c = none := by
      unfold isDelimiter at hd
      simp only [List.mem_cons, List.not_mem_nil, or_false, decide_eq_true_eq] at hd
      obtain ⟨h1, h2, h3⟩ := ho
      rcases hd with rfl | rfl | rfl | rfl | rfl | rfl | rfl | rfl <;>
        first | contradiction | rfl | (cases stack <;> rfl)
    rw [hdrop, accepts, hadv]
  · rw [if_neg (by simp [hd, hsp])]
    have ht : isTokenCharacter c := by
      unfold isTokenCharacter
      simp [hsp, hd]
    apply (readCharacters_spec hsrc (l := []) (hsrc c hmem) ht (by omega)).bind False.elim
      False.elim
    intro token pos' h
    obtain ⟨h1, h2, cs, hval, htext, hcs, hends⟩ := h
    refine ⟨by omega, h2, ?_⟩
    have hall : ∀ d ∈ c :: cs, isTokenCharacter d := by
      intro d hd
      rcases List.mem_cons.mp hd with rfl | hd
      · exact ht
      · exact hcs d hd
    have htok : (Term.atom token : Fragment) = word (c :: cs) (by simp) :=
      congrArg Term.atom (Subtype.ext hval)
    rw [htok, hdrop, htext]
    exact .token (by simp) hall fun _ => hends

/-- The loops of `read_fragment2` and `read_fragment` are the same but for the separator and
the reader of the parts. -/
def partsStep (src : List Char) (separator : Char) (part : Nat → Except Fault (Fragment × Nat))
    (parts : List Fragment → Nat → Except Fault (List Fragment × Nat)) (sexprs : List Fragment)
    (pos : Nat) : Except Fault (List Fragment × Nat) := do
  let (left, pos) := readWhitespace src pos
  if left ≠ 0 then do
    let c ← charAt src pos
    if c = separator then do
      let (_, pos) := readWhitespace src (pos + 1)
      let (f, pos) ← part pos
      parts (sexprs ++ [f]) pos
    else .ok (sexprs, pos)
  else .ok (sexprs, pos)

theorem rested_nil (l : Level) : Rested (.chain l) [] :=
  ⟨fun _ h => (nomatch h), nofun, fun _ => nofun⟩

/-- Behind a part and space, what is no separator ends the chain. -/
theorem rested_of_ne {l : Level} {t u : List Char} {c : Char} (hr : Rested l.part t)
    (hs : Space t (c :: u)) (hc : isspace c = false) (hl : c ≠ l.separator) :
    Rested (.chain l) (c :: u) := by
  have hn : NoSpace (c :: u) := fun d hd => Option.some.inj hd ▸ hc
  cases l with
  | scolon => exact ⟨hn, fun h => hl (Option.some.inj h), nofun⟩
  | colon =>
    obtain ⟨hn', h1, _⟩ := hr
    rw [(Space.refl t).unique hs hn' hn] at h1
    exact ⟨hn, h1, fun _ h => hl (Option.some.inj h)⟩

theorem partsStep_spec {l : Level} {E : Nat → Prop} {part : Nat → Except Fault (Fragment × Nat)}
    {parts : List Fragment → Nat → Except Fault (List Fragment × Nat)} {Ep Es : Nat → Prop}
    (hpart : ReadsAt src l.part Ep part) (hparts : PartsAt src l Es parts)
    (hEp : ∀ k j, k < j → Ep k → E j) (hEs : ∀ k j, k < j → Es k → E j) :
    PartsAt src l E (partsStep src l.separator part parts) := by
  intro sexprs pos hpos hrest
  obtain ⟨p, hp, hle, hple, hsp, hns⟩ := readWhitespace_cases hpos
  unfold partsStep
  rw [hp]
  dsimp only
  by_cases hend : src.length - p = 0
  · rw [if_neg (by omega)]
    have hnil : src.drop p = [] := List.drop_eq_nil_of_le (by omega)
    exact ⟨hle, hple, hnil ▸ rested_nil l, [], by simp, .inl ⟨rfl, hsp⟩⟩
  · rw [if_pos (by omega)]
    have hlt : p < src.length := by omega
    obtain ⟨c, _, hchar, hget, hdrop⟩ := exists_charAt hlt
    rw [hchar]
    show Yields _ _ _ (if c = l.separator then _ else _)
    by_cases hc : c = l.separator
    · rw [if_pos hc]
      subst hc
      have hp' : p + 1 ≤ src.length := hlt
      obtain ⟨q, hq, hqle, hqle', hsp', hns'⟩ := readWhitespace_cases hp'
      rw [hq]
      have hstack : ∀ stack, accepts .after stack (src.drop pos) =
          accepts .need stack (src.drop q) := by
        intro stack
        rw [hsp.accepts, hdrop, accepts_separator, hsp'.accepts]
      apply (hpart q hqle' hns').bind
      · exact fun h stack => by rw [hstack, h]
      · exact hEp _ _ (by omega)
      · intro f pos' ⟨h1, h2, h3, t, h4, h5⟩
        apply (hparts (sexprs ++ [f]) pos' h2 h3).mono
        · intro all pos'' ⟨g1, g2, g3, more, g4, g5⟩
          refine ⟨by omega, g2, g3, f :: more, by simp [g4], .inr ?_⟩
          rw [hdrop] at hsp
          rcases g5 with ⟨rfl, hsp₂⟩ | ⟨t₂, t₃, t', hsep, hsp₃, hmore, hsp₂⟩
          · exact ⟨_, _, t, hsp, hsp', .part h4, Space.trans h5 hsp₂⟩
          · exact ⟨_, _, t', hsp, hsp', .sep h4 (Space.trans h5 hsep) hsp₃ hmore, hsp₂⟩
        · intro h stack
          rw [hstack, Level.passes_part h4.passes, h5.accepts, h]
        · exact hEs _ _ (by omega)
    · rw [if_neg hc]
      have hcs : isspace c = false := hns c (head_of_drop hget)
      refine ⟨hle, hple, ?_, [], by simp, .inl ⟨rfl, hsp⟩⟩
      rw [hdrop] at hsp ⊢
      exact rested_of_ne hrest hsp hcs hc

/-- `read_fragment2` and `read_fragment` read one part, run their loop and take a single part
out of its list. -/
def chainStep (part : Nat → Except Fault (Fragment × Nat))
    (parts : List Fragment → Nat → Except Fault (List Fragment × Nat)) (pos : Nat) :
    Except Fault (Fragment × Nat) := do
  let (f, pos) ← part pos
  let (sexprs, pos) ← parts [f] pos
  .ok (listOrOnly sexprs, pos)

theorem listOrOnly_eq (fs : List Fragment) : listOrOnly fs = chained fs := by
  rcases fs with _ | ⟨f, _ | ⟨g, gs⟩⟩ <;> rfl

theorem chainStep_spec {l : Level} {E : Nat → Prop} {part : Nat → Except Fault (Fragment × Nat)}
    {parts : List Fragment → Nat → Except Fault (List Fragment × Nat)} {Ep Es : Nat → Prop}
    (hpart : ReadsAt src l.part Ep part) (hparts : PartsAt src l Es parts)
    (hEp : ∀ k, Ep k → E k) (hEs : ∀ k j, k < j → Es k → E j) :
    ReadsAt src (.chain l) E (chainStep part parts) := by
  intro pos hpos hns
  unfold chainStep
  apply (hpart pos hpos hns).bind (fun h => h) (hEp _)
  intro f pos' ⟨h1, h2, h3, t, h4, h5⟩
  apply (hparts [f] pos' h2 h3).bind
  · intro h stack
    rw [Level.passes_part h4.passes, h5.accepts, h]
  · exact hEs _ _ (by omega)
  · intro all pos'' ⟨g1, g2, g3, more, g4, g5⟩
    subst g4
    refine ⟨by omega, g2, g3, ?_⟩
    rcases g5 with ⟨rfl, hsp⟩ | ⟨t₂, t₃, t', hsep, hsp, hmore, hsp'⟩
    · exact ⟨t, .chain (.part h4), Space.trans h5 hsp⟩
    · rw [listOrOnly_eq]
      exact ⟨t', .chain (.sep h4 (Space.trans h5 hsep) hsp hmore), hsp'⟩

/-- Where no fragment can come and the list does not end, the list is refused. -/
theorem refused_start {u stack : List Char} {close : Char} (hs : NoSpace u)
    (hc : u.head? ≠ some close) (h : ∀ stack, accepts .need stack u = false) :
    accepts .start (close :: stack) u = false := by
  cases u with
  | nil => simp [accepts]
  | cons c t =>
    have hsp : isspace c = false := hs c rfl
    have hne : close ≠ c := fun he => hc (by rw [he]; rfl)
    have hadv : advance .start (close :: stack) c = none ∨
        advance .start (close :: stack) c = advance .need (close :: stack) c := by
      unfold advance
      rw [hsp]
      by_cases hsep : c = scolon ∨ c = colon
      · simp [hsep]
      · cases closing c with
        | some cl => simp [hsep]
        | none => by_cases hd : isDelimiter c <;> simp [hsep, hd, hne]
    have hneed := h (close :: stack)
    rw [accepts] at hneed ⊢
    rcases hadv with hadv | hadv
    · rw [hadv]
    · rw [hadv, hneed]

theorem elements_step {E Ef Ee : Nat → Prop} {n : Nat}
    (hf : ReadsAt src .fragment Ef (readFragment src n))
    (he : ElementsAt src Ee (readListElements src n)) (hEf : ∀ k j, k ≤ j → Ef k → E j)
    (hEe : ∀ k j, k < j → Ee k → E j) : ElementsAt src E (readListElements src (n + 1)) := by
  intro sexprs o first close hb pos hpos
  obtain ⟨p, hp, hle, hple, hsp, hns⟩ := readWhitespace_cases hpos
  rw [readListElements, hp]
  dsimp only
  have hread : (src.drop p).head? ≠ some close → Yields (fun g pos' => pos < pos' ∧
      pos' ≤ src.length ∧ ∃ fs t, g = .node (sexprs ++ fs) ∧ Space (src.drop pos) t ∧
        Reads True .fragments t fs (close :: src.drop pos'))
      (∀ stack, accepts .start (close :: stack) (src.drop pos) = false) (E (src.length - pos))
      (readFragment src n p >>= fun (f, pos) => readListElements src n (sexprs ++ [f]) close
        pos) := by
    intro hhead
    apply (hf p hple hns).bind
    · intro h stack
      rw [hsp.accepts]
      exact refused_start hns hhead h
    · exact hEf _ _ (by omega)
    · intro f pos' h
      obtain ⟨h1, h2, h3, t, h4, h5⟩ := h
      apply (he (sexprs ++ [f]) o first close hb pos' h2).mono
      · intro g pos'' h
        obtain ⟨g1, g2, fs, t', g3, g4, g5⟩ := h
        exact ⟨by omega, g2, f :: fs, src.drop p, by simp [g3], hsp,
          .more h4 (Space.trans h5 g4) g5⟩
      · intro h stack
        rw [hsp.accepts, h4.passes, h5.accepts, accepts_of_rested h3, h]
      · exact hEe _ _ (by omega)
  by_cases hend : src.length - p = 0
  · rw [if_neg (by omega)]
    apply hread
    rw [List.drop_eq_nil_of_le (by omega)]
    intro h
    cases h
  · rw [if_pos (by omega)]
    have hlt : p < src.length := by omega
    obtain ⟨c, _, hchar, hget, hdrop⟩ := exists_charAt hlt
    rw [hchar]
    show Yields _ _ _ (if (c == close) = true then _ else _)
    by_cases hc : c = close
    · rw [if_pos (by simp [hc])]
      subst hc
      refine ⟨by omega, by omega, [], src.drop p, by simp, hsp, ?_⟩
      rw [hdrop]
      exact .done _
    · rw [if_neg (by simp [hc])]
      apply hread
      rw [hdrop]
      exact fun h => hc (Option.some.inj h)

/-- The opening bracket decides what the list begins with and how it ends. -/
theorem readList_eq {n pos : Nat} {c close : Char} {first : List Fragment} (hlt : pos < src.length)
    (hget : src[pos]? = some c) (hb : Bracket c first close) :
    readList src (n + 1) pos = readListElements src n first close (pos + 1) := by
  have hchar : charAt src pos = .ok c := by
    unfold charAt
    rw [hget]
  rw [readList, if_neg (by omega), hchar]
  cases hb <;> rfl

theorem list_step {E Ee : Nat → Prop} {n : Nat} (he : ElementsAt src Ee (readListElements src n))
    (hEe : ∀ k j, k < j → Ee k → E j) {pos : Nat} {c close : Char} {first : List Fragment}
    (hlt : pos < src.length) (hget : src[pos]? = some c) (hb : Bracket c first close) :
    Yields (fun g pos' => pos < pos' ∧ pos' ≤ src.length ∧
        Reads True .fragment2 (src.drop pos) [g] (src.drop pos'))
      (∀ stack, accepts .need stack (src.drop pos) = false) (E (src.length - pos))
      (readList src (n + 1) pos) := by
  obtain ⟨c', _, _, hget', hdrop⟩ := exists_charAt hlt
  obtain rfl : c = c' := Option.some.inj (hget.symm.trans hget')
  rw [readList_eq hlt hget hb]
  apply (he first c first close hb (pos + 1) (by omega)).mono
  · intro g pos' ⟨h1, h2, fs, t, h3, h4, h5⟩
    refine ⟨by omega, h2, ?_⟩
    rw [h3, hdrop]
    exact .bracket hb h4 h5
  · intro h stack
    rw [hdrop, accepts_bracket hb, h]
  · exact hEe _ _ (by omega)

theorem fragment1_step (hsrc : ∀ c ∈ src, InAlphabet c) {E L : Nat → Prop} {n : Nat}
    (hl : ∀ pos < src.length, ∀ c first close, src[pos]? = some c → Bracket c first close →
      Yields (fun g pos' => pos < pos' ∧ pos' ≤ src.length ∧
          Reads True .fragment2 (src.drop pos) [g] (src.drop pos'))
        (∀ stack, accepts .need stack (src.drop pos) = false) (L (src.length - pos))
        (readList src n pos)) (hL : ∀ k, L k → E k) :
    ReadsAt src .fragment2 E (readFragment1 src (n + 1)) := by
  intro pos hpos hns
  have hdone : ∀ x, Yields (fun g pos' => pos < pos' ∧ pos' ≤ src.length ∧
        Reads True .fragment2 (src.drop pos) [g] (src.drop pos'))
      (∀ stack, accepts .need stack (src.drop pos) = false) (E (src.length - pos)) x →
      Yields (fun g pos' => pos < pos' ∧ pos' ≤ src.length ∧ Rested .fragment2 (src.drop pos') ∧
        ∃ t, Reads True .fragment2 (src.drop pos) [g] t ∧ Space t (src.drop pos'))
      (∀ stack, accepts .need stack (src.drop pos) = false) (E (src.length - pos)) x := by
    intro x h
    exact h.mono (fun g pos' ⟨h1, h2, h3⟩ => ⟨h1, h2, trivial, _, h3, Space.refl _⟩) id id
  apply hdone
  rw [readFragment1]
  by_cases hend : pos = src.length
  · rw [if_pos hend]
    intro stack
    rw [List.drop_eq_nil_of_le (by omega)]
    exact accepts_nil_of_need stack
  · rw [if_neg hend]
    have hlt : pos < src.length := by omega
    obtain ⟨c, _, hchar, hget, hdrop⟩ := exists_charAt hlt
    rw [hchar]
    show Yields _ _ _ (if _ then _ else _)
    by_cases hc : c = lparen ∨ c = lbrace ∨ c = lbracket
    · rw [if_pos hc]
      have hb : ∃ first close, Bracket c first close := by
        rcases hc with rfl | rfl | rfl
        · exact ⟨_, _, .list⟩
        · exact ⟨_, _, .clist⟩
        · exact ⟨_, _, .slist⟩
      obtain ⟨first, close, hb⟩ := hb
      exact (hl pos (by omega) c first close hget hb).mono (fun _ _ h => h) id (hL _)
    · rw [if_neg hc]
      have ho : c ≠ lparen ∧ c ≠ lbrace ∧ c ≠ lbracket := by
        refine ⟨?_, ?_, ?_⟩ <;> (rintro rfl; simp at hc)
      exact readToken_spec hsrc (by omega) hget hns ho _

/-! ## All depths -/

theorem readFragment1Parts_succ (n : Nat) : readFragment1Parts src (n + 1) =
    partsStep src scolon (readFragment1 src n) (readFragment1Parts src n) := by
  funext sexprs pos
  rw [readFragment1Parts]
  rfl

theorem readFragment2Parts_succ (n : Nat) : readFragment2Parts src (n + 1) =
    partsStep src colon (readFragment2 src n) (readFragment2Parts src n) := by
  funext sexprs pos
  rw [readFragment2Parts]
  rfl

theorem readFragment2_succ (n : Nat) : readFragment2 src (n + 1) =
    chainStep (readFragment1 src n) (readFragment1Parts src n) := by
  funext pos
  rw [readFragment2]
  rfl

theorem readFragment_succ (n : Nat) : readFragment src (n + 1) =
    chainStep (readFragment2 src n) (readFragment2Parts src n) := by
  funext pos
  rw [readFragment]
  rfl

/-- What the readers do at one depth, with the text that is left for which the depth is too
small. -/
structure Readers (src : List Char) (n : Nat) : Prop where
  list : ∀ pos < src.length, ∀ c first close, src[pos]? = some c → Bracket c first close →
    Yields (fun g pos' => pos < pos' ∧ pos' ≤ src.length ∧
        Reads True .fragment2 (src.drop pos) [g] (src.drop pos'))
      (∀ stack, accepts .need stack (src.drop pos) = false) (n < 5 * (src.length - pos) + 1)
      (readList src n pos)
  elements : ElementsAt src (fun k => n < 5 * k + 5) (readListElements src n)
  fragment1 : ReadsAt src .fragment2 (fun k => n < 5 * k + 2) (readFragment1 src n)
  parts1 : PartsAt src .scolon (fun k => n < 5 * k + 1) (readFragment1Parts src n)
  fragment2 : ReadsAt src .fragment1 (fun k => n < 5 * k + 3) (readFragment2 src n)
  parts2 : PartsAt src .colon (fun k => n < 5 * k + 1) (readFragment2Parts src n)
  fragment : ReadsAt src .fragment (fun k => n < 5 * k + 4) (readFragment src n)

theorem readers (hsrc : ∀ c ∈ src, InAlphabet c) (n : Nat) : Readers src n := by
  induction n with
  | zero =>
    refine ⟨?_, ?_, ?_, ?_, ?_, ?_, ?_⟩
    · intro pos _ c first close _ _
      rw [readList]
      exact Nat.succ_pos _
    · intro sexprs o first close _ pos _
      rw [readListElements]
      exact Nat.succ_pos _
    · intro pos _ _
      rw [readFragment1]
      exact Nat.succ_pos _
    · intro sexprs pos _ _
      rw [readFragment1Parts]
      exact Nat.succ_pos _
    · intro pos _ _
      rw [readFragment2]
      exact Nat.succ_pos _
    · intro sexprs pos _ _
      rw [readFragment2Parts]
      exact Nat.succ_pos _
    · intro pos _ _
      rw [readFragment]
      exact Nat.succ_pos _
  | succ n ih =>
    constructor
    · intro pos hlt c first close hget hb
      exact list_step (E := fun k => n + 1 < 5 * k + 1) ih.elements (fun k j _ _ => by omega) hlt
        hget hb
    · exact elements_step ih.fragment ih.elements (fun k j _ _ => by omega)
        fun k j _ _ => by omega
    · exact fragment1_step (L := fun k => n < 5 * k + 1) hsrc ih.list fun k _ => by omega
    · rw [readFragment1Parts_succ]
      exact partsStep_spec (l := .scolon) ih.fragment1 ih.parts1 (fun k j _ _ => by omega)
        fun k j _ _ => by omega
    · rw [readFragment2_succ]
      exact chainStep_spec (l := .scolon) ih.fragment1 ih.parts1 (fun k _ => by omega)
        fun k j _ _ => by omega
    · rw [readFragment2Parts_succ]
      exact partsStep_spec (l := .colon) ih.fragment2 ih.parts2 (fun k j _ _ => by omega)
        fun k j _ _ => by omega
    · rw [readFragment_succ]
      exact chainStep_spec (l := .colon) ih.fragment2 ih.parts2 (fun k _ => by omega)
        fun k j _ _ => by omega

/-- No fragment begins with space. -/
theorem readFragment_space {n pos : Nat} {c : Char} (hlt : pos < src.length)
    (hget : src[pos]? = some c) (hc : isspace c) :
    readFragment src (n + 3) pos = .error (.unexpectedCharacter c pos) := by
  have hchar : charAt src pos = .ok c := by
    unfold charAt
    rw [hget]
  have hopen : ¬ (c = lparen ∨ c = lbrace ∨ c = lbracket) := by
    rintro (rfl | rfl | rfl) <;> exact absurd hc (by decide)
  have htoken : readToken src pos = .error (.unexpectedCharacter c pos) := by
    unfold readToken
    rw [if_neg (by omega), hchar]
    show (if _ then _ else _) = _
    rw [if_pos (by simp [hc])]
  have h1 : readFragment1 src (n + 1) pos = .error (.unexpectedCharacter c pos) := by
    rw [readFragment1, if_neg (by omega), hchar]
    show (if _ then _ else _) = _
    rw [if_neg hopen, htoken]
  rw [readFragment_succ]
  unfold chainStep
  rw [readFragment2_succ]
  unfold chainStep
  rw [h1]
  rfl

/-- From every position in the text the bound is large enough, and the reader stays in the
text. -/
theorem readFragment_answers (hsrc : ∀ c ∈ src, InAlphabet c) {n pos : Nat}
    (hn : 5 * src.length + 5 ≤ n) (hpos : pos ≤ src.length) :
    readFragment src n pos ≠ .error .exhausted ∧ readFragment src n pos ≠ .error .outside := by
  by_cases hs : NoSpace (src.drop pos)
  · have hread := (readers hsrc n).fragment pos hpos hs
    constructor
    · intro h
      rw [h] at hread
      have hb : n < 5 * (src.length - pos) + 4 := hread
      omega
    · intro h
      rw [h] at hread
      exact hread
  · have hlt : pos < src.length := by
      by_contra hge
      rw [List.drop_eq_nil_of_le (by omega)] at hs
      exact hs fun _ h => (nomatch h)
    obtain ⟨c, _, _, hget, hdrop⟩ := exists_charAt hlt
    have hc : isspace c := by
      by_contra hc
      apply hs
      intro d hd
      rw [hdrop] at hd
      rw [← Option.some.inj hd]
      simpa using hc
    obtain ⟨k, rfl⟩ : ∃ k, n = k + 3 := ⟨n - 3, by omega⟩
    rw [readFragment_space hlt hget hc]
    exact ⟨nofun, nofun⟩

/-! ## The whole text -/

/-- What the loop of `read_expressions` answers behind some fragments, in the mode in which
the acceptor gets there. -/
def Concludes (src : List Char) (n : Nat) (m : Mode) (fragments : List Fragment) (pos : Nat) :
    Except Fault (List Fragment) → Prop
  | .ok all => ∃ fs t, all = fragments ++ fs ∧ Space (src.drop pos) t ∧
      Reads True .fragments t fs []
  | .error (.unexpectedCharacter _ _) => accepts m [] (src.drop pos) = false
  | .error .outside => False
  | .error .exhausted => n < 5 * (src.length - pos) + 5

/-- Where no fragment can come and the text does not end, the text is refused. -/
theorem refused_end {m : Mode} {u : List Char} (hs : NoSpace u) (hu : u ≠ [])
    (hm : m = .after → Rested (.chain .colon) u) (h : ∀ stack, accepts .need stack u = false) :
    accepts m [] u = false := by
  cases u with
  | nil => exact absurd rfl hu
  | cons c t =>
    have hsp : isspace c = false := hs c rfl
    have hsep : m = .after → c ≠ scolon ∧ c ≠ colon := by
      intro ha
      obtain ⟨_, h1, h2⟩ := hm ha
      exact ⟨fun he => h1 (by rw [he]; rfl), fun he => h2 rfl (by rw [he]; rfl)⟩
    have hadv : advance m [] c = none ∨ advance m [] c = advance .need [] c := by
      unfold advance
      rw [hsp]
      by_cases hcs : c = scolon ∨ c = colon
      · have hma : m ≠ .after := fun ha => hcs.elim (hsep ha).1 (hsep ha).2
        simp [hcs, hma]
      · cases closing c with
        | some cl => simp [hcs]
        | none => by_cases hd : isDelimiter c <;> simp [hcs, hd]
    have hneed := h []
    rw [accepts] at hneed ⊢
    rcases hadv with hadv | hadv
    · rw [hadv]
    · rw [hadv, hneed]

theorem readFragments_spec (hsrc : ∀ c ∈ src, InAlphabet c) (n : Nat) : ∀ (m : Mode)
    (fragments : List Fragment) (pos : Nat), pos ≤ src.length →
      (m = .after → Rested (.chain .colon) (src.drop pos)) →
      Concludes src n m fragments pos (readFragments src n fragments pos) := by
  induction n with
  | zero => exact fun m fragments pos _ _ => Nat.succ_pos _
  | succ n ih =>
    intro m fragments pos hpos hm
    obtain ⟨p, hp, hle, hple, hsp, hns⟩ := readWhitespace_cases hpos
    rw [readFragments, hp]
    dsimp only
    by_cases hend : src.length - p = 0
    · rw [if_neg (by omega)]
      have hnil : src.drop p = [] := List.drop_eq_nil_of_le (by omega)
      exact ⟨[], [], by simp, hnil ▸ hsp, .done []⟩
    · rw [if_pos (by omega)]
      have hread := (readers hsrc n).fragment p hple hns
      cases hx : readFragment src n p with
      | error e =>
        rw [hx] at hread
        cases e with
        | unexpectedCharacter c q =>
          show accepts m [] (src.drop pos) = false
          rw [hsp.accepts]
          refine refused_end hns ?_ ?_ hread
          · intro hnil
            have hlen := congrArg List.length hnil
            simp only [List.length_drop, List.length_nil] at hlen
            omega
          · intro ha
            rw [hsp.unique (Space.refl _) hns (hm ha).1]
            exact hm ha
        | outside => exact hread.elim
        | exhausted =>
          have hb : n < 5 * (src.length - p) + 4 := hread
          show n + 1 < 5 * (src.length - pos) + 5
          omega
      | ok r =>
        rw [hx] at hread
        obtain ⟨f, pos'⟩ := r
        obtain ⟨h1, h2, h3, t, h4, h5⟩ := hread
        have hrec := ih .after (fragments ++ [f]) pos' h2 fun _ => h3
        show Concludes src (n + 1) m fragments pos (readFragments src n (fragments ++ [f]) pos')
        cases hall : readFragments src n (fragments ++ [f]) pos' with
        | ok all =>
          rw [hall] at hrec
          obtain ⟨fs, t', hfs, hsp', hr⟩ := hrec
          exact ⟨f :: fs, src.drop p, by simp [hfs], hsp, .more h4 (Space.trans h5 hsp') hr⟩
        | error e =>
          rw [hall] at hrec
          cases e with
          | unexpectedCharacter c q =>
            show accepts m [] (src.drop pos) = false
            rw [hsp.accepts, h4.passes, h5.accepts]
            exact hrec
          | outside => exact hrec.elim
          | exhausted =>
            have hb : n < 5 * (src.length - pos') + 5 := hrec
            show n + 1 < 5 * (src.length - pos) + 5
            omega

/-- With a large enough bound the lexer comes to an answer, without looking past the text;
it returns fragments exactly if the text is a program of the grammar, and they are those
of its only reading with tokens as long as possible. -/
theorem readExpressions_correct (hsrc : ∀ c ∈ src, InAlphabet c) {n : Nat}
    (hn : 5 * src.length + 5 ≤ n) :
    readExpressions src n ≠ .error .exhausted ∧ readExpressions src n ≠ .error .outside ∧
      ((∃ fs, readExpressions src n = .ok fs) ↔ ∃ fs, IsProgram False src fs) ∧
      ∀ fs, readExpressions src n = .ok fs ↔ IsProgram True src fs := by
  have hspec := readFragments_spec hsrc n .start [] 0 (Nat.zero_le _) nofun
  have hsound : ∀ fs, readExpressions src n = .ok fs → IsProgram True src fs := by
    intro fs h
    rw [show readFragments src n [] 0 = _ from h] at hspec
    obtain ⟨fs', t, rfl, hs, hr⟩ := hspec
    exact ⟨t, hs, hr⟩
  have hcomplete : ∀ munch fs, IsProgram munch src fs → ∃ fs, readExpressions src n = .ok fs := by
    intro munch fs hp
    have hacc := hp.accepts
    unfold readExpressions
    cases hx : readFragments src n [] 0 with
    | ok fs' => exact ⟨fs', rfl⟩
    | error e =>
      rw [hx] at hspec
      cases e with
      | unexpectedCharacter c p =>
        have hrej : accepts .start [] src = false := hspec
        rw [hrej] at hacc
        cases hacc
      | outside => exact hspec.elim
      | exhausted =>
        have hb : n < 5 * src.length + 5 := hspec
        omega
  refine ⟨?_, ?_, ⟨fun ⟨fs, h⟩ => ?_, fun ⟨fs, h⟩ => hcomplete _ fs h⟩, fun fs => ⟨hsound fs, ?_⟩⟩
  · intro h
    rw [show readFragments src n [] 0 = _ from h] at hspec
    have hb : n < 5 * src.length + 5 := hspec
    omega
  · intro h
    rw [show readFragments src n [] 0 = _ from h] at hspec
    exact hspec
  · exact ⟨fs, (hsound fs h).plain⟩
  · intro h
    obtain ⟨fs', h'⟩ := hcomplete _ fs h
    rw [h', (hsound fs' h').unique h]

/-- `(a;b) c` -/
def shortText : List Char := [lparen, 'a', scolon, 'b', rparen, Char.ofNat 32, 'c']

theorem shortText_inAlphabet : ∀ c ∈ shortText, InAlphabet c := by
  simp only [shortText, List.forall_mem_cons, List.not_mem_nil, false_imp_iff, implies_true,
    and_true]
  decide

theorem readExpressions_shortText :
    readExpressions shortText 40 ≠ .error .exhausted ∧
      readExpressions shortText 40 ≠ .error .outside ∧
      ((∃ fs, readExpressions shortText 40 = .ok fs) ↔ ∃ fs, IsProgram False shortText fs) ∧
      ∀ fs, readExpressions shortText 40 = .ok fs ↔ IsProgram True shortText fs :=
  readExpressions_correct shortText_inAlphabet (Nat.le_refl 40)

end L2.Bootstrap
