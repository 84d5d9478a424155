import L2.Lexical.Grammar

/-!
# One reading

With tokens as long as they can be a text has at most one reading.  Where a nonterminal
ends depends on what follows it, so readings are compared that are followed by something
that cannot continue them.
-/

namespace L2.Lexical

open Bootstrap (Fragment Token)

variable {munch : Prop} {t t' rest rest' : List Char} {fs fs' : List Fragment}

/-! ## Space -/

def NoSpace (t : List Char) : Prop := ∀ c ∈ t.head?, isspace c = false

theorem Space.refl (t : List Char) : Space t t := ⟨[], rfl, fun _ h => by cases h⟩

theorem Space.cons {c : Char} (hc : isspace c) (h : Space t rest) : Space (c :: t) rest := by
  obtain ⟨spaces, rfl, hs⟩ := h
  refine ⟨c :: spaces, rfl, fun d hd => ?_⟩
  rcases List.mem_cons.mp hd with rfl | hd
  · exact hc
  · exact hs d hd

/-- Space ends where something else begins. -/
theorem Space.unique (h : Space t rest) (h' : Space t rest') (hn : NoSpace rest)
    (hn' : NoSpace rest') : rest = rest' := by
  obtain ⟨spaces, rfl, hs⟩ := h
  obtain ⟨spaces', heq, hs'⟩ := h'
  induction spaces generalizing spaces' with
  | nil =>
    cases spaces' with
    | nil => exact heq
    | cons d ds =>
      have hd := hs' d List.mem_cons_self
      have hrest : rest = d :: (ds ++ rest') := heq
      rw [hn d (by simp [hrest])] at hd
      cases hd
  | cons c cs ih =>
    cases spaces' with
    | nil =>
      have hc := hs c List.mem_cons_self
      have hrest : c :: (cs ++ rest) = rest' := heq
      rw [hn' c (by simp [← hrest])] at hc
      cases hc
    | cons d ds =>
      exact ih (fun e he => hs e (List.mem_cons_of_mem c he)) ds (List.cons.inj heq).2
        fun e he => hs' e (List.mem_cons_of_mem d he)

/-! ## How things begin and what follows them -/

/-- A character that fragments begin with. -/
def IsStart (c : Char) : Prop := isTokenCharacter c ∨ c = lparen ∨ c = lbrace ∨ c = lbracket

def Starts (t : List Char) : Prop := ∃ c t', t = c :: t' ∧ IsStart c

/-- The end of a list or of the text. -/
def Closes (t : List Char) : Prop := ∀ c ∈ t.head?, c = rparen ∨ c = rbrace ∨ c = rbracket

theorem IsStart.noSpace {c : Char} (h : IsStart c) : isspace c = false := by
  rcases h with h | rfl | rfl | rfl
  · unfold isTokenCharacter at h
    cases hc : isspace c
    · rfl
    · simp [hc] at h
  · decide
  · decide
  · decide

theorem isTokenCharacter_delimiter {c : Char} (h : isDelimiter c) : isTokenCharacter c = false := by
  unfold isTokenCharacter
  simp [h]

/-- It is neither a separator nor the end of a list. -/
theorem IsStart.ne {c : Char} (h : IsStart c) :
    c ≠ scolon ∧ c ≠ colon ∧ c ≠ rparen ∧ c ≠ rbrace ∧ c ≠ rbracket := by
  rcases h with h | rfl | rfl | rfl
  · refine ⟨?_, ?_, ?_, ?_, ?_⟩ <;>
      (rintro rfl; rw [isTokenCharacter_delimiter (by decide)] at h; cases h)
  · decide
  · decide
  · decide

theorem Starts.noSpace (h : Starts t) : NoSpace t := by
  obtain ⟨c, t', rfl, hc⟩ := h
  intro d hd
  rw [← Option.some.inj hd]
  exact hc.noSpace

theorem Starts.not_closes (h : Starts t) : ¬ Closes t := by
  obtain ⟨c, t', rfl, hc⟩ := h
  intro hcl
  have hne := hc.ne
  rcases hcl c rfl with rfl | rfl | rfl <;> simp at hne

theorem Closes.noSpace (h : Closes t) : NoSpace t := by
  intro c hc
  rcases h c hc with rfl | rfl | rfl <;> decide

theorem Bracket.isStart {o close : Char} {first : List Fragment} (h : Bracket o first close) :
    IsStart o := by
  cases h with
  | list => exact .inr (.inl rfl)
  | clist => exact .inr (.inr (.inl rfl))
  | slist => exact .inr (.inr (.inr rfl))

theorem Bracket.closes {o close : Char} {first : List Fragment} (h : Bracket o first close)
    (t : List Char) : Closes (close :: t) := by
  intro c hc
  rw [← Option.some.inj hc]
  cases h <;> simp

theorem Bracket.unique {o close close' : Char} {first first' : List Fragment}
    (h : Bracket o first close) (h' : Bracket o first' close') :
    first = first' ∧ close = close' := by
  generalize ho : o = o' at h'
  cases h <;> cases h' <;> first | exact ⟨rfl, rfl⟩ | exact absurd ho (by decide)

theorem Level.part_ne (l : Level) : l.part ≠ .fragments := by
  cases l <;> decide

/-- Every nonterminal but the sequence begins with the start of a fragment, and a
sequence does or is empty. -/
theorem Reads.starts {nt : NonTerminal} (h : Reads munch nt t fs rest) :
    Starts t ∨ nt = .fragments ∧ t = rest := by
  induction h with
  | @token cs rest hne hcs _ =>
    cases cs with
    | nil => exact absurd rfl hne
    | cons c cs => exact .inl ⟨c, cs ++ rest, rfl, .inl (hcs c List.mem_cons_self)⟩
  | bracket hb _ _ _ => exact .inl ⟨_, _, rfl, hb.isStart⟩
  | done t => exact .inr ⟨rfl, rfl⟩
  | more _ _ _ ih _ =>
    rcases ih with h | ⟨h, _⟩
    · exact .inl h
    · cases h
  | @part l _ _ _ _ ih | @sep l _ _ _ _ _ _ _ _ _ _ _ ih _ =>
    rcases ih with h | ⟨h, _⟩
    · exact .inl h
    · exact absurd h l.part_ne
  | chain _ ih =>
    rcases ih with h | ⟨h, _⟩
    · exact .inl h
    · cases h

theorem Reads.starts_of_ne {nt : NonTerminal} (h : Reads munch nt t fs rest)
    (hn : nt ≠ .fragments) : Starts t := by
  rcases h.starts with h | ⟨h, _⟩
  · exact h
  · exact absurd h hn

/-- A sequence up to its end has no space in front. -/
theorem Reads.noSpace (h : Reads munch .fragments t fs rest) (hc : Closes rest) : NoSpace t := by
  rcases h.starts with h | ⟨_, rfl⟩
  · exact h.noSpace
  · exact hc.noSpace

/-- No separator of the level or of a tighter one comes next. -/
def Stops (l : Level) (t : List Char) : Prop :=
  ∀ t', Space t t' → t'.head? ≠ some scolon ∧ (l = .colon → t'.head? ≠ some colon)

/-- What may follow a nonterminal that has been read to its end. -/
def Follows : NonTerminal → List Char → Prop
  | .fragments, t => Closes t
  | .fragment2, _ => True
  | .parts l, t | .chain l, t => Stops l t

/-- The first character that is no space decides. -/
theorem stops_of_head {l : Level} (h : Space t t') (hn : NoSpace t')
    (h1 : t'.head? ≠ some scolon) (h2 : l = .colon → t'.head? ≠ some colon) : Stops l t := by
  intro t'' h''
  by_cases hs : NoSpace t''
  · rw [← h.unique h'' hn hs]
    exact ⟨h1, h2⟩
  · have hd : ∃ d, t''.head? = some d ∧ isspace d := by
      by_contra hall
      apply hs
      intro c hc
      by_contra hcs
      exact hall ⟨c, hc, by simpa using hcs⟩
    obtain ⟨d, hd, hsp⟩ := hd
    rw [hd]
    constructor
    · intro he
      rw [Option.some.inj he] at hsp
      exact absurd hsp (by decide)
    · intro _ he
      rw [Option.some.inj he] at hsp
      exact absurd hsp (by decide)

theorem Stops.part {l : Level} (h : Stops l t) : Follows l.part t := by
  cases l with
  | scolon => exact trivial
  | colon => exact fun t' ht' => ⟨(h t' ht').1, fun hl => by cases hl⟩

theorem noSpace_separator (l : Level) (t : List Char) : NoSpace (l.separator :: t) := by
  intro c hc
  rw [← Option.some.inj hc]
  cases l <;> decide

/-- A part before its separator has been read to its end. -/
theorem follows_separator {l : Level} {t₂ : List Char} (h : Space t (l.separator :: t₂)) :
    Follows l.part t := by
  cases l with
  | scolon => exact trivial
  | colon =>
    refine stops_of_head h (noSpace_separator .colon t₂) ?_ (fun hl => by cases hl)
    show some colon ≠ some scolon
    decide

theorem not_stops_separator {l : Level} {t₂ : List Char} (h : Space t (l.separator :: t₂)) :
    ¬ Stops l t := by
  intro hs
  have hst := hs _ h
  cases l with
  | scolon => exact hst.1 rfl
  | colon => exact hst.2 rfl rfl

/-- A fragment before the rest of a sequence has been read to its end. -/
theorem Reads.stops (h : Reads munch .fragments t' fs rest) (hc : Closes rest)
    (hs : Space t t') : Stops .colon t := by
  have hhead : ∀ c ∈ t'.head?, c ≠ scolon ∧ c ≠ colon := by
    intro c hc'
    rcases h.starts with ⟨d, t'', rfl, hd⟩ | ⟨_, rfl⟩
    · rw [← Option.some.inj hc']
      exact ⟨hd.ne.1, hd.ne.2.1⟩
    · rcases hc c hc' with rfl | rfl | rfl <;> decide
  exact stops_of_head hs (h.noSpace hc) (fun he => (hhead _ he).1 rfl) fun _ he =>
    (hhead _ he).2 rfl

/-! ## Uniqueness -/

/-- A longest token ends in one place only. -/
theorem longest_unique {cs cs' : List Char} (h : cs ++ rest = cs' ++ rest')
    (hcs : ∀ c ∈ cs, isTokenCharacter c) (hcs' : ∀ c ∈ cs', isTokenCharacter c)
    (he : Ends rest) (he' : Ends rest') : cs = cs' ∧ rest = rest' := by
  induction cs generalizing cs' with
  | nil =>
    cases cs' with
    | nil => exact ⟨rfl, h⟩
    | cons d ds =>
      have hrest : rest = d :: (ds ++ rest') := h
      have hd := hcs' d List.mem_cons_self
      rw [he d (by simp [hrest])] at hd
      cases hd
  | cons c cs ih =>
    cases cs' with
    | nil =>
      have hrest : c :: (cs ++ rest) = rest' := h
      have hc := hcs c List.mem_cons_self
      rw [he' c (by simp [← hrest])] at hc
      cases hc
    | cons d ds =>
      obtain ⟨rfl, htail⟩ := List.cons.inj h
      obtain ⟨rfl, hr⟩ := ih htail (fun e he => hcs e (List.mem_cons_of_mem c he))
        (fun e he => hcs' e (List.mem_cons_of_mem c he))
      exact ⟨rfl, hr⟩

theorem not_token_of_bracket {cs : List Char} {o close : Char} {first : List Fragment}
    (hne : cs ≠ []) (hcs : ∀ c ∈ cs, isTokenCharacter c) (hb : Bracket o first close) :
    cs ++ rest ≠ o :: t := by
  intro h
  cases cs with
  | nil => exact hne rfl
  | cons c cs =>
    have hc := hcs c List.mem_cons_self
    rw [(List.cons.inj h).1] at hc
    cases hb <;> exact absurd hc (by decide)

/-- Two readings of one text that have been read to their ends are the same. -/
theorem Reads.unique {nt : NonTerminal} (h : Reads True nt t fs rest)
    (h' : Reads True nt t fs' rest') (hr : Follows nt rest) (hr' : Follows nt rest') :
    fs = fs' ∧ rest = rest' := by
  induction h generalizing fs' rest' with
  | @token cs rest hne hcs hm =>
    generalize ht : cs ++ rest = t at h'
    generalize hnt : NonTerminal.fragment2 = nt at h'
    cases h' with
    | token hne' hcs' hm' =>
      obtain ⟨rfl, rfl⟩ := longest_unique ht hcs hcs' (hm trivial) (hm' trivial)
      exact ⟨rfl, rfl⟩
    | bracket hb' _ _ => exact absurd ht (not_token_of_bracket hne hcs hb')
    | _ => cases hnt
  | @bracket o close first fs t t' rest hb hs h ih =>
    generalize ht : o :: t = u at h'
    generalize hnt : NonTerminal.fragment2 = nt at h'
    cases h' with
    | token hne' hcs' _ => exact absurd ht.symm (not_token_of_bracket hne' hcs' hb)
    | bracket hb' hs' h' =>
      obtain ⟨rfl, rfl⟩ := List.cons.inj ht
      obtain ⟨rfl, rfl⟩ := hb.unique hb'
      have heq := hs.unique hs' (h.noSpace (hb.closes _)) (h'.noSpace (hb'.closes _))
      subst heq
      obtain ⟨rfl, hrest⟩ := ih h' (hb.closes _) (hb'.closes _)
      exact ⟨rfl, (List.cons.inj hrest).2⟩
    | _ => cases hnt
  | done t =>
    cases h' with
    | done => exact ⟨rfl, rfl⟩
    | more hf _ _ => exact absurd hr (hf.starts_of_ne (by decide)).not_closes
  | more hf hs h ihf ih =>
    cases h' with
    | done => exact absurd hr' (hf.starts_of_ne (by decide)).not_closes
    | more hf' hs' h' =>
      obtain ⟨hfs, rfl⟩ := ihf hf' (h.stops hr hs) (h'.stops hr' hs')
      have heq := hs.unique hs' (h.noSpace hr) (h'.noSpace hr')
      subst heq
      obtain ⟨rfl, hrest⟩ := ih h' hr hr'
      exact ⟨by rw [(List.cons.inj hfs).1], hrest⟩
  | part h ih =>
    cases h' with
    | part h' => exact ih h' hr.part hr'.part
    | sep hf' hs' _ _ =>
      obtain ⟨_, rfl⟩ := ih hf' hr.part (follows_separator hs')
      exact absurd hr (not_stops_separator hs')
  | sep hf hs hs₂ h ihf ih =>
    cases h' with
    | part h' =>
      obtain ⟨_, rfl⟩ := ihf h' (follows_separator hs) hr'.part
      exact absurd hr' (not_stops_separator hs)
    | sep hf' hs' hs₂' h' =>
      obtain ⟨hfs, rfl⟩ := ihf hf' (follows_separator hs) (follows_separator hs')
      have heq := hs.unique hs' (noSpace_separator _ _) (noSpace_separator _ _)
      obtain ⟨_, rfl⟩ := List.cons.inj heq
      have heq := hs₂.unique hs₂' (h.starts_of_ne (by simp)).noSpace
        (h'.starts_of_ne (by simp)).noSpace
      subst heq
      obtain ⟨rfl, hrest⟩ := ih h' hr hr'
      exact ⟨by rw [(List.cons.inj hfs).1], hrest⟩
  | chain h ih =>
    cases h' with
    | chain h' =>
      obtain ⟨rfl, hrest⟩ := ih h' hr hr'
      exact ⟨rfl, hrest⟩

theorem IsProgram.unique (h : IsProgram True t fs) (h' : IsProgram True t fs') : fs = fs' := by
  obtain ⟨u, hs, hr⟩ := h
  obtain ⟨u', hs', hr'⟩ := h'
  have hnil : Closes [] := fun c hc => by cases hc
  have heq := hs.unique hs' (hr.noSpace hnil) (hr'.noSpace hnil)
  subst heq
  exact (hr.unique hr' hnil hnil).1

end L2.Lexical
