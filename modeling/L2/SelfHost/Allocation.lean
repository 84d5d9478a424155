import L2.SelfHost.Ready

/-!
# What gets which location

`initialize-expressions` takes the locations of the bindings in its two lists away, lets
those that are read and deep enough have what they prefer where that is free, and places
the rest of them in free registers, or in memory when there are none.
-/

namespace L2.SelfHost

open X86 (Word)

/-! ## Registers in use -/

theorem bit_and_ne_zero (i : Nat) (hi : i < 64) (u : Word) :
    ((1 : Word) <<< i &&& u ≠ 0) ↔ u.getLsbD i = true := by
  constructor
  · intro h
    by_contra hbit
    apply h
    apply BitVec.eq_of_getLsbD_eq
    intro j hj
    show _ = (0#64).getLsbD j
    rw [BitVec.getLsbD_and, BitVec.getLsbD_zero]
    by_cases hji : j = i
    · rw [hji, Bool.eq_false_iff.mpr hbit, Bool.and_false]
    · have hone : ((1 : Word) <<< i).getLsbD j = false := by
        simp [BitVec.getLsbD_shiftLeft]
        omega
      rw [hone, Bool.false_and]
  · intro h hzero
    have hbit : ((1 : Word) <<< i &&& u).getLsbD i = false := by
      rw [hzero]
      exact BitVec.getLsbD_zero
    rw [BitVec.getLsbD_and, h, Bool.and_true] at hbit
    simp [hi] at hbit

/-- The number of a register. -/
def number (reg : Register) : Nat := reg &&& 0xF

theorem number_lt (reg : Register) : number reg < 16 := by
  have h : number reg ≤ 0xF := Nat.and_le_right
  omega

theorem registerInUse_eq (reg : Register) (u : RegUseVec) :
    registerInUse reg u = u.getLsbD (number reg) := by
  have hlt := number_lt reg
  have h := bit_and_ne_zero (number reg) (by omega) u
  unfold registerInUse
  exact Bool.eq_iff_iff.mpr (by simpa [number] using h)

theorem registerInUse_useRegister (reg reg' : Register) (u : RegUseVec) :
    registerInUse reg (useRegister reg' u) = true ↔
      number reg = number reg' ∨ registerInUse reg u = true := by
  rw [registerInUse_eq, registerInUse_eq]
  have hlt := number_lt reg
  have hlt' := number_lt reg'
  unfold useRegister
  rw [BitVec.getLsbD_or, Bool.or_eq_true]
  have hone : ((1 : Word) <<< (reg' &&& 0xF)).getLsbD (number reg) = true ↔
      number reg = number reg' := by
    show ((1 : Word) <<< number reg').getLsbD (number reg) = true ↔ _
    simp [BitVec.getLsbD_shiftLeft]
    omega
  rw [hone]

/-! ## The loops -/

/-- The fields of a binding that are no location stay. -/
def Moves (f : BndgAug → BndgAug) : Prop :=
  ∀ x, ∃ storage size, f x = { x with storage := storage, size := size }

/-- The bindings of `L` are placed with the registers in `u₀` left alone, and all that have
registers have different ones, which are in use. -/
structure Placing (L : List BndgId) (u₀ : RegUseVec) (st₀ : Store) (u : RegUseVec) (st : Store) :
    Prop where
  same : SameFields st₀ st
  other : ∀ b, b ∉ L → st.bndg b = st₀.bndg b
  kept : ∀ b, ∃ storage size, st.bndg b = { st₀.bndg b with storage := storage, size := size }
  mono : ∀ reg, registerInUse reg u₀ = true → registerInUse reg u = true
  free : ∀ b ∈ L, ∀ reg, (st.bndg b).storage = .register reg →
    registerInUse reg u = true ∧ registerInUse reg u₀ = false
  distinct : ∀ b ∈ L, ∀ b' ∈ L, ∀ reg reg', (st.bndg b).storage = .register reg →
    (st.bndg b').storage = .register reg' → number reg = number reg' → b = b'

variable {L : List BndgId} {u₀ u u' : RegUseVec} {st₀ st st' : Store} {b : BndgId}

theorem Placing.isRead (h : Placing L u₀ st₀ u st) (b : BndgId) :
    (st.bndg b).isRead = (st₀.bndg b).isRead := by
  obtain ⟨storage, size, hb⟩ := h.kept b
  rw [hb]

theorem Placing.context (h : Placing L u₀ st₀ u st) (b : BndgId) :
    (st.bndg b).context = (st₀.bndg b).context := by
  obtain ⟨storage, size, hb⟩ := h.kept b
  rw [hb]

theorem Placing.preferred (h : Placing L u₀ st₀ u st) (b : BndgId) :
    (st.bndg b).preferred = (st₀.bndg b).preferred := by
  obtain ⟨storage, size, hb⟩ := h.kept b
  rw [hb]

theorem Placing.bndgDepth (h : Placing L u₀ st₀ u st) (b : BndgId) :
    st.bndgDepth b = st₀.bndgDepth b := by
  rw [h.same]
  rfl

/-- Moving one binding, where only a register that was free may be taken. -/
theorem Placing.modify (h : Placing L u₀ st₀ u st) (hb : b ∈ L) {f : BndgAug → BndgAug}
    (hf : Moves f) (hmono : ∀ reg, registerInUse reg u = true → registerInUse reg u' = true)
    (hreg : ∀ reg, (f (st.bndg b)).storage = .register reg →
      registerInUse reg u' = true ∧ registerInUse reg u = false) :
    Placing L u₀ st₀ u' (st.modify b f) := by
  have hcases : ∀ b', (b' = b ∧ (st.modify b f).bndg b' = f (st.bndg b)) ∨
      (b' ≠ b ∧ (st.modify b f).bndg b' = st.bndg b') := by
    intro b'
    by_cases hbb : b' = b
    · rw [hbb]
      exact Or.inl ⟨rfl, bndg_modify ..⟩
    · exact Or.inr ⟨hbb, bndg_modify_of_ne hbb ..⟩
  refine ⟨h.same.trans (sameFields_modify ..), ?_, ?_, ?_, ?_, ?_⟩
  · intro b' hb'
    rcases hcases b' with ⟨rfl, _⟩ | ⟨_, heq⟩
    · exact absurd hb hb'
    · rw [heq]
      exact h.other b' hb'
  · intro b'
    rcases hcases b' with ⟨rfl, heq⟩ | ⟨_, heq⟩
    · obtain ⟨storage, size, hk⟩ := h.kept b'
      obtain ⟨storage', size', hk'⟩ := hf (st.bndg b')
      exact ⟨storage', size', by rw [heq, hk', hk]⟩
    · rw [heq]
      exact h.kept b'
  · exact fun reg hin => hmono reg (h.mono reg hin)
  · intro b' hb' reg hst
    rcases hcases b' with ⟨rfl, heq⟩ | ⟨_, heq⟩
    · rw [heq] at hst
      refine ⟨(hreg reg hst).1, ?_⟩
      by_contra hin
      have hin := h.mono reg (Bool.not_eq_false _ ▸ hin)
      rw [(hreg reg hst).2] at hin
      cases hin
    · rw [heq] at hst
      exact ⟨hmono reg (h.free b' hb' reg hst).1, (h.free b' hb' reg hst).2⟩
  · -- the register of `b` was free, so no other binding has it
    have hnew : ∀ b' ∈ L, ∀ reg reg', (f (st.bndg b)).storage = .register reg →
        (st.bndg b').storage = .register reg' → number reg ≠ number reg' := by
      intro b' hb' reg reg' hst hst' hnum
      have hin := (h.free b' hb' reg' hst').1
      have hout := (hreg reg hst).2
      rw [registerInUse_eq] at hin hout
      rw [hnum, hin] at hout
      cases hout
    intro b₁ hb₁ b₂ hb₂ reg reg' hst hst' hnum
    rcases hcases b₁ with ⟨rfl, heq₁⟩ | ⟨_, heq₁⟩
    · rcases hcases b₂ with ⟨rfl, _⟩ | ⟨_, heq₂⟩
      · rfl
      · exact absurd hnum (hnew b₂ hb₂ reg reg' (heq₁ ▸ hst) (heq₂ ▸ hst'))
    · rcases hcases b₂ with ⟨rfl, heq₂⟩ | ⟨_, heq₂⟩
      · exact absurd hnum.symm (hnew b₁ hb₁ reg' reg (heq₂ ▸ hst') (heq₁ ▸ hst))
      · exact h.distinct b₁ hb₁ b₂ hb₂ reg reg' (heq₁ ▸ hst) (heq₂ ▸ hst') hnum

/-! ### Preferred locations -/

/-- What has a location has the one that it prefers. -/
def Preferring (L : List BndgId) (st : Store) : Prop :=
  ∀ b ∈ L, (st.bndg b).storage = .nil ∨ (st.bndg b).storage = (st.bndg b).preferred

/-- The binding has had what it prefers, if that is no register, and the register is in use
otherwise. -/
def Tried (b : BndgId) (u : RegUseVec) (st : Store) : Prop :=
  match (st.bndg b).preferred with
  | .nil => True
  | .register reg => reg = noRegister ∨ registerInUse reg u = true
  | preferred => (st.bndg b).storage = preferred

/-- What trying the preferred location of `b` comes to. -/
structure TryOk (L : List BndgId) (u₀ : RegUseVec) (st₀ : Store) (u u' : RegUseVec)
    (st st' : Store) : Prop where
  placing : Placing L u₀ st₀ u' st'
  preferring : Preferring L st'
  mono : ∀ reg, registerInUse reg u = true → registerInUse reg u' = true
  stays : ∀ b, (st.bndg b).storage ≠ .nil → (st'.bndg b).storage = (st.bndg b).storage

theorem TryOk.refl (h : Placing L u₀ st₀ u st) (hpref : Preferring L st) :
    TryOk L u₀ st₀ u u st st := ⟨h, hpref, fun _ h => h, fun _ _ => rfl⟩

theorem TryOk.trans {u'' : RegUseVec} {st'' : Store} (h : TryOk L u₀ st₀ u u' st st')
    (h' : TryOk L u₀ st₀ u' u'' st' st'') : TryOk L u₀ st₀ u u'' st st'' := by
  refine ⟨h'.placing, h'.preferring, fun reg hin => h'.mono reg (h.mono reg hin), ?_⟩
  intro b hb
  have hst := h.stays b hb
  rw [← hst] at hb
  exact (h'.stays b hb).trans hst

theorem Tried.mono (h : Tried b u st) (ht : TryOk L u₀ st₀ u u' st st')
    (hp : Placing L u₀ st₀ u st) : Tried b u' st' := by
  have hpref : (st'.bndg b).preferred = (st.bndg b).preferred :=
    (ht.placing.preferred b).trans (hp.preferred b).symm
  unfold Tried at h ⊢
  rw [hpref]
  split
  · trivial
  · next reg heq =>
    rw [heq] at h
    exact h.imp_right (ht.mono reg)
  · next hnil hreg =>
    split at h
    · next heq => exact absurd heq hnil
    · next reg heq => exact absurd heq (hreg reg)
    · rw [ht.stays b]
      · exact h
      · rw [h]
        exact hnil

theorem preferring_modify (hpref : Preferring L st) {f : BndgAug → BndgAug}
    (hf : (f (st.bndg b)).storage = (f (st.bndg b)).preferred) :
    Preferring L (st.modify b f) := by
  intro b' hb'
  by_cases hbb : b' = b
  · rw [hbb, bndg_modify]
    exact Or.inr hf
  · rw [bndg_modify_of_ne hbb]
    exact hpref b' hb'

theorem stays_modify (hpref : Preferring L st) (hb : b ∈ L) {f : BndgAug → BndgAug}
    (hf : (f (st.bndg b)).storage = (st.bndg b).preferred) (b' : BndgId)
    (hst : (st.bndg b').storage ≠ .nil) :
    ((st.modify b f).bndg b').storage = (st.bndg b').storage := by
  by_cases hbb : b' = b
  · subst hbb
    rw [bndg_modify, hf]
    exact ((hpref b' hb).resolve_left hst).symm
  · rw [bndg_modify_of_ne hbb]

theorem tryBndg_ok (h : Placing L u₀ st₀ u st) (hpref : Preferring L st) (hb : b ∈ L) :
    TryOk L u₀ st₀ u (tryBndgToPreferredLocation st b u).1 st
      (tryBndgToPreferredLocation st b u).2 ∧
      Tried b (tryBndgToPreferredLocation st b u).1 (tryBndgToPreferredLocation st b u).2 := by
  unfold tryBndgToPreferredLocation
  cases hp : (st.bndg b).preferred with
  | nil =>
    refine ⟨TryOk.refl h hpref, ?_⟩
    unfold Tried
    rw [hp]
    trivial
  | register reg =>
    dsimp only
    split
    · next hcond =>
      refine ⟨TryOk.refl h hpref, ?_⟩
      unfold Tried
      rw [hp]
      exact hcond.symm
    · next hcond =>
      have hfree : registerInUse reg u = false := Bool.eq_false_iff.mpr fun h => hcond (Or.inl h)
      have huse : registerInUse reg (useRegister reg u) = true :=
        (registerInUse_useRegister ..).mpr (Or.inl rfl)
      have hmono : ∀ r, registerInUse r u = true → registerInUse r (useRegister reg u) = true :=
        fun r hr => (registerInUse_useRegister ..).mpr (Or.inr hr)
      refine ⟨⟨?_, ?_, hmono, ?_⟩, ?_⟩
      · apply h.modify hb (fun x => ⟨_, _, rfl⟩) hmono
        intro r hr
        cases hr
        exact ⟨huse, hfree⟩
      · exact preferring_modify hpref hp.symm
      · exact stays_modify hpref hb hp.symm
      · unfold Tried
        rw [bndg_modify]
        show match (st.bndg b).preferred with
          | .nil => True
          | .register reg' => reg' = noRegister ∨ registerInUse reg' (useRegister reg u) = true
          | preferred => _ = preferred
        rw [hp]
        exact Or.inr huse
  | frameRelative offset | absolute offset =>
    dsimp only
    refine ⟨⟨?_, ?_, fun _ h => h, ?_⟩, ?_⟩
    · apply h.modify hb (fun x => ⟨_, _, rfl⟩) (fun _ h => h)
      intro r hr
      cases hr
    · exact preferring_modify hpref hp.symm
    · exact stays_modify hpref hb hp.symm
    · unfold Tried
      rw [bndg_modify]
      show match (st.bndg b).preferred with
        | .nil => True
        | .register reg' => reg' = noRegister ∨ registerInUse reg' u = true
        | preferred => _ = preferred
      rw [hp]
      rfl

theorem tryPreferred_ok {bs : List BndgId} (hbs : bs ⊆ L) (depth : Nat)
    (h : Placing L u₀ st₀ u st) (hpref : Preferring L st) :
    TryOk L u₀ st₀ u (tryPreferred depth u st bs).1 st (tryPreferred depth u st bs).2 ∧
      ∀ b ∈ bs, depth ≤ st₀.bndgDepth b → (st₀.bndg b).isRead = true →
        Tried b (tryPreferred depth u st bs).1 (tryPreferred depth u st bs).2 := by
  induction bs generalizing u st with
  | nil =>
    refine ⟨TryOk.refl h hpref, ?_⟩
    intro b hb
    cases hb
  | cons b bs ih =>
    have hb : b ∈ L := hbs List.mem_cons_self
    have hround : TryOk L u₀ st₀ u (tryPreferredRound depth u st b).1 st
        (tryPreferredRound depth u st b).2 ∧
        (depth ≤ st₀.bndgDepth b → (st₀.bndg b).isRead = true →
          Tried b (tryPreferredRound depth u st b).1 (tryPreferredRound depth u st b).2) := by
      unfold tryPreferredRound
      rw [h.bndgDepth, h.isRead]
      split
      · obtain ⟨ht, htried⟩ := tryBndg_ok h hpref hb
        exact ⟨ht, fun _ _ => htried⟩
      · next hcond => exact ⟨TryOk.refl h hpref, fun h₁ h₂ => absurd ⟨h₁, h₂⟩ hcond⟩
    obtain ⟨hfirst, htried⟩ := hround
    obtain ⟨hrest, htriedRest⟩ :=
      ih (fun x hx => hbs (List.mem_cons_of_mem _ hx)) hfirst.placing hfirst.preferring
    refine ⟨hfirst.trans hrest, ?_⟩
    intro b' hb' hdepth hread
    rcases List.mem_cons.mp hb' with rfl | hb'
    · exact (htried hdepth hread).mono hrest hfirst.placing
    · exact htriedRest b' hb' hdepth hread

/-! ### What is left -/

/-- A location that is given out without a preference: a register that was free in `u`, or
the word at `offset` where all registers were in use. -/
def Fallback (u : RegUseVec) (offset : Word) (old new : BndgAug) : Prop :=
  new.size = wordSize ∧ ((∃ reg ∈ bindingToRegisterMemoryPrefs,
    new.storage = .register reg ∧ registerInUse reg u = false) ∨
    new.storage = memoryStorage old.context offset)

theorem memoryStorage_ne_nil (context : BndgContext) (offset : Word) :
    memoryStorage context offset ≠ .nil := by
  cases context with
  | intraFunction => exact nofun
  | extraFunction => exact nofun

theorem memoryStorage_ne_register (context : BndgContext) (offset : Word) (reg : Register) :
    memoryStorage context offset ≠ .register reg := by
  cases context with
  | intraFunction => exact nofun
  | extraFunction => exact nofun

theorem Fallback.ne_nil {offset : Word} {old new : BndgAug} (h : Fallback u offset old new) :
    new.storage ≠ .nil := by
  rcases h.2 with ⟨reg, _, h, _⟩ | h
  · rw [h]
    exact nofun
  · rw [h]
    exact memoryStorage_ne_nil _ _

theorem Fallback.mono {offset : Word} {old new : BndgAug} (h : Fallback u' offset old new)
    (hmono : ∀ reg, registerInUse reg u = true → registerInUse reg u' = true) :
    Fallback u offset old new := by
  refine ⟨h.1, h.2.imp_left ?_⟩
  rintro ⟨reg, hreg, hst, hfree⟩
  refine ⟨reg, hreg, hst, ?_⟩
  by_contra huse
  rw [hmono reg (Bool.not_eq_false _ ▸ huse)] at hfree
  cases hfree

/-- What `binding-to-register/memory` does. -/
theorem bindingToRegisterMemory_ok (h : Placing L u₀ st₀ u st) (hb : b ∈ L) {offset : Word}
    (heq : bindingToRegisterMemory st b offset u = some (u', st')) :
    Placing L u₀ st₀ u' st' ∧ (∀ reg, registerInUse reg u = true → registerInUse reg u' = true) ∧
      Fallback u offset (st₀.bndg b) (st'.bndg b) ∧ ∀ b', b' ≠ b → st'.bndg b' = st.bndg b' := by
  unfold bindingToRegisterMemory at heq
  split at heq
  · cases heq
    refine ⟨?_, fun _ h => h, ?_, fun b' hne => bndg_modify_of_ne hne ..⟩
    · apply h.modify hb (fun x => ⟨_, _, rfl⟩) (fun _ h => h)
      intro reg hreg
      exact absurd hreg (memoryStorage_ne_register _ _ _)
    · rw [bndg_modify]
      exact ⟨rfl, Or.inr (congrArg (memoryStorage · offset) (h.context b))⟩
  · obtain ⟨reg, hfind, heq⟩ := Option.map_eq_some_iff.mp heq
    cases heq
    have hfree : registerInUse reg u = false := by
      have hnot := List.find?_some hfind
      exact Bool.not_eq_true' _ ▸ hnot
    have huse : registerInUse reg (useRegister reg u) = true :=
      (registerInUse_useRegister ..).mpr (Or.inl rfl)
    have hmono : ∀ r, registerInUse r u = true → registerInUse r (useRegister reg u) = true :=
      fun r hr => (registerInUse_useRegister ..).mpr (Or.inr hr)
    refine ⟨?_, hmono, ?_, fun b' hne => bndg_modify_of_ne hne ..⟩
    · apply h.modify hb (fun x => ⟨_, _, rfl⟩) hmono
      intro r hr
      cases hr
      exact ⟨huse, hfree⟩
    · rw [bndg_modify]
      exact ⟨rfl, Or.inl ⟨reg, List.mem_of_find?_eq_some hfind, rfl, hfree⟩⟩

/-- The bindings of a list that are without a location get one, each at its own offset if it
comes to that. -/
structure AssignOk (L : List BndgId) (u₀ : RegUseVec) (st₀ : Store) (depth : Nat) (offset : Word)
    (bs : List BndgId) (u u' : RegUseVec) (st st' : Store) : Prop where
  placing : Placing L u₀ st₀ u' st'
  mono : ∀ reg, registerInUse reg u = true → registerInUse reg u' = true
  stays : ∀ b, (st.bndg b).storage ≠ .nil → st'.bndg b = st.bndg b
  assigned : ∀ b ∈ bs, depth ≤ st₀.bndgDepth b → (st₀.bndg b).isRead = true →
    (st'.bndg b).storage ≠ .nil
  cases : ∀ b, st'.bndg b = st.bndg b ∨ ((st.bndg b).storage = .nil ∧
    depth ≤ st₀.bndgDepth b ∧ (st₀.bndg b).isRead = true ∧
    ∃ i, bs[i]? = some b ∧ Fallback u (offset + words i) (st₀.bndg b) (st'.bndg b))

theorem words_add (i j : Nat) : words i + words j = words (i + j) := by
  unfold words
  rw [← BitVec.ofNat_add, Nat.add_mul]

theorem assignArgs_ok {bs : List BndgId} (hbs : bs ⊆ L) {depth : Nat} {offset : Word}
    (h : Placing L u₀ st₀ u st) (heq : assignArgs depth offset u st bs = some (u', st')) :
    AssignOk L u₀ st₀ depth offset bs u u' st st' := by
  induction bs generalizing offset u st with
  | nil =>
    cases heq
    refine ⟨h, fun _ h => h, fun _ _ => rfl, ?_, fun _ => Or.inl rfl⟩
    intro b hb
    cases hb
  | cons b bs ih =>
    have hb : b ∈ L := hbs List.mem_cons_self
    obtain ⟨⟨u₁, st₁⟩, hround, hrest⟩ := Option.bind_eq_some_iff.mp heq
    -- the round of `b` comes first
    have hfirst : Placing L u₀ st₀ u₁ st₁ ∧
        (∀ reg, registerInUse reg u = true → registerInUse reg u₁ = true) ∧
        (∀ b', b' ≠ b → st₁.bndg b' = st.bndg b') ∧
        ((st₁.bndg b = st.bndg b ∧ ((depth ≤ st₀.bndgDepth b → (st₀.bndg b).isRead = true →
            (st.bndg b).storage ≠ .nil))) ∨
          ((st.bndg b).storage = .nil ∧ depth ≤ st₀.bndgDepth b ∧ (st₀.bndg b).isRead = true ∧
            Fallback u offset (st₀.bndg b) (st₁.bndg b))) := by
      unfold assignArgsRound at hround
      rw [h.bndgDepth, h.isRead] at hround
      split at hround
      · next hcond =>
        obtain ⟨hp, hmono, hfall, hne⟩ := bindingToRegisterMemory_ok h hb hround
        have hnil : (st.bndg b).storage = .nil := by
          by_contra hst
          exact hcond.2.1 (decide_eq_true hst)
        exact ⟨hp, hmono, hne, Or.inr ⟨hnil, hcond.1, hcond.2.2, hfall⟩⟩
      · next hcond =>
        cases hround
        refine ⟨h, fun _ h => h, fun _ _ => rfl, Or.inl ⟨rfl, ?_⟩⟩
        intro hdepth hread hnil
        exact hcond ⟨hdepth, fun hst => of_decide_eq_true hst hnil, hread⟩
    obtain ⟨hp₁, hmono₁, hne₁, hcases₁⟩ := hfirst
    have hr := ih (fun x hx => hbs (List.mem_cons_of_mem _ hx)) hp₁ hrest
    have hstays₁ : ∀ b', (st.bndg b').storage ≠ .nil → st₁.bndg b' = st.bndg b' := by
      intro b' hst
      by_cases hbb : b' = b
      · subst hbb
        rcases hcases₁ with ⟨hsame, _⟩ | ⟨hnil, _⟩
        · exact hsame
        · exact absurd hnil hst
      · exact hne₁ b' hbb
    refine ⟨hr.placing, fun reg hin => hr.mono reg (hmono₁ reg hin), ?_, ?_, ?_⟩
    · intro b' hst
      have h₁ := hstays₁ b' hst
      rw [← h₁] at hst
      exact (hr.stays b' hst).trans h₁
    · intro b' hb' hdepth hread
      rcases List.mem_cons.mp hb' with rfl | hb'
      · have hst : (st₁.bndg b').storage ≠ .nil := by
          rcases hcases₁ with ⟨hsame, hst⟩ | ⟨_, _, _, hfall⟩
          · rw [hsame]
            exact hst hdepth hread
          · exact hfall.ne_nil
        rw [hr.stays b' hst]
        exact hst
      · exact hr.assigned b' hb' hdepth hread
    · intro b'
      rcases hr.cases b' with hsame | ⟨hnil, hdepth, hread, i, hi, hfall⟩
      · by_cases hbb : b' = b
        · subst hbb
          rcases hcases₁ with ⟨h₁, _⟩ | ⟨hnil, hdepth, hread, hfall⟩
          · exact Or.inl (hsame.trans h₁)
          · refine Or.inr ⟨hnil, hdepth, hread, 0, rfl, ?_⟩
            rw [hsame]
            have hzero : offset + words 0 = offset := by
              unfold words
              simp
            rw [hzero]
            exact hfall
        · exact Or.inl (hsame.trans (hne₁ b' hbb))
      · have hnil' : (st.bndg b').storage = .nil := by
          by_contra hst
          rw [hstays₁ b' hst] at hnil
          exact hst hnil
        refine Or.inr ⟨hnil', hdepth, hread, i + 1, hi, ?_⟩
        have hoff : offset + words 1 + words i = offset + words (i + 1) := by
          rw [BitVec.add_assoc, words_add, Nat.add_comm 1 i]
        rw [hoff] at hfall
        exact hfall.mono hmono₁

/-! ## Both lists -/

/-- A binding that is given a location: it is read, and at least as deep as what is
initialized. -/
def Eligible (exprs bndgs : List BndgId) (depth : Nat) (st : Store) (b : BndgId) : Prop :=
  (b ∈ exprs ∧ depth + 1 ≤ st.bndgDepth b ∨ b ∈ bndgs ∧ depth ≤ st.bndgDepth b) ∧
    (st.bndg b).isRead = true

/-- The part of `initialize-expressions` after the loop `init-subs`, for the values `exprs` and
the bindings `bndgs`. -/
structure Allocated (exprs bndgs : List BndgId) (depth : Nat) (offset : Word) (u₀ : RegUseVec)
    (st₀ : Store) (u : RegUseVec) (st : Store) : Prop where
  placing : Placing (exprs ++ bndgs) u₀ st₀ u st
  assigned : ∀ b, Eligible exprs bndgs depth st₀ b → (st.bndg b).storage ≠ .nil
  memory : ∀ b, Eligible exprs bndgs depth st₀ b → ∀ m, (st₀.bndg b).preferred = m →
    m ≠ .nil → (∀ reg, m ≠ .register reg) → (st.bndg b).storage = m
  register : ∀ b, Eligible exprs bndgs depth st₀ b → ∀ reg,
    (st₀.bndg b).preferred = .register reg → reg ≠ noRegister →
    ∀ x ∈ exprs ++ bndgs, ∀ reg', (st.bndg x).storage = .register reg' →
      number reg' = number reg → (st₀.bndg x).preferred = .register reg'
  sites : ∀ b ∈ exprs ++ bndgs, (st.bndg b).storage = .nil ∨
    (st.bndg b).storage = (st₀.bndg b).preferred ∨
    ∃ i, (bndgs ++ exprs)[i]? = some b ∧
      Fallback u₀ (offset - words (exprs.length + bndgs.length) + words i)
        (st₀.bndg b) (st.bndg b)

theorem bndg_clear_of_notMem {bs : List BndgId} (h : b ∉ bs) (st : Store) :
    (clear st bs).bndg b = st.bndg b := by
  induction bs generalizing st with
  | nil => rfl
  | cons b' bs ih =>
    have h := not_or.mp (fun h' => h (List.mem_cons.mpr h'))
    show (clear _ bs).bndg b = _
    rw [ih h.2, bndg_modify_of_ne h.1]

theorem bndg_clear {bs : List BndgId} (h : b ∈ bs) (st : Store) :
    (clear st bs).bndg b = { st.bndg b with storage := .nil } := by
  induction bs generalizing st with
  | nil => cases h
  | cons b' bs ih =>
    show (clear (st.modify b' (setStorage .nil)) bs).bndg b = _
    by_cases hbb : b = b'
    · subst hbb
      by_cases hmem : b ∈ bs
      · rw [ih hmem, bndg_modify]
        rfl
      · rw [bndg_clear_of_notMem hmem, bndg_modify]
        rfl
    · rw [ih ((List.mem_cons.mp h).resolve_left hbb), bndg_modify_of_ne hbb]

/-- Nothing has a location in the beginning. -/
theorem placing_clear (exprs bndgs : List BndgId) (u₀ : RegUseVec) (st₀ : Store) :
    Placing (exprs ++ bndgs) u₀ st₀ u₀ (clear (clear st₀ exprs) bndgs) ∧
      ∀ b ∈ exprs ++ bndgs, ((clear (clear st₀ exprs) bndgs).bndg b).storage = .nil := by
  have hclear : clear (clear st₀ exprs) bndgs = clear st₀ (exprs ++ bndgs) := by
    unfold clear Store.modifyAll
    rw [List.foldl_append]
  rw [hclear]
  have hnil : ∀ b ∈ exprs ++ bndgs, ((clear st₀ (exprs ++ bndgs)).bndg b).storage = .nil := by
    intro b hb
    rw [bndg_clear hb]
  refine ⟨⟨sameFields_modifyAll .., fun b hb => bndg_clear_of_notMem hb st₀, ?_, fun _ h => h,
    ?_, ?_⟩, hnil⟩
  · intro b
    by_cases hb : b ∈ exprs ++ bndgs
    · exact ⟨_, _, bndg_clear hb st₀⟩
    · exact ⟨_, _, bndg_clear_of_notMem hb st₀⟩
  · intro b hb reg hst
    rw [hnil b hb] at hst
    cases hst
  · intro b hb _ _ _ _ hst
    rw [hnil b hb] at hst
    cases hst

theorem locate_ok {call : InitCall} {offset : Word} {depth : Nat} {r r' : Initialized}
    (h : locate call offset depth r = some r') :
    Allocated (call.exprs.map r.store.aug) call.bndgs depth offset r.inUse r.store r'.inUse
      r'.store ∧ r'.bottomOffset = r.bottomOffset := by
  unfold locate at h
  dsimp only at h
  obtain ⟨hplace, hnil⟩ := placing_clear (call.exprs.map r.store.aug) call.bndgs r.inUse r.store
  have hlen : call.exprs.length = (call.exprs.map r.store.aug).length := (List.length_map ..).symm
  rw [hlen] at h
  generalize call.exprs.map r.store.aug = exprs at *
  generalize call.bndgs = bndgs at *
  generalize clear (clear r.store exprs) bndgs = st₁ at *
  have hpref₁ : Preferring (exprs ++ bndgs) st₁ := fun b hb => Or.inl (hnil b hb)
  obtain ⟨htry₁, htried₁⟩ := tryPreferred_ok (List.subset_append_left _ _) (depth + 1)
    hplace hpref₁
  generalize tryPreferred (depth + 1) r.inUse st₁ exprs = s₂ at *
  obtain ⟨htry₂, htried₂⟩ := tryPreferred_ok (List.subset_append_right _ _) depth
    htry₁.placing htry₁.preferring
  have htried : ∀ b, Eligible exprs bndgs depth r.store b →
      Tried b (tryPreferred depth s₂.1 s₂.2 bndgs).1 (tryPreferred depth s₂.1 s₂.2 bndgs).2 := by
    intro b ⟨hb, hread⟩
    rcases hb with ⟨hb, hdepth⟩ | ⟨hb, hdepth⟩
    · exact (htried₁ b hb hdepth hread).mono htry₂ htry₁.placing
    · exact htried₂ b hb hdepth hread
  generalize tryPreferred depth s₂.1 s₂.2 bndgs = s₃ at *
  obtain ⟨⟨u₄, st₄⟩, hassign₁, h⟩ := Option.bind_eq_some_iff.mp h
  obtain ⟨⟨u₅, st₅⟩, hassign₂, h⟩ := Option.map_eq_some_iff.mp h
  cases h
  have hok₁ := assignArgs_ok (List.subset_append_left _ _) htry₂.placing hassign₁
  have hok₂ := assignArgs_ok (List.subset_append_right _ _) hok₁.placing hassign₂
  have hstays : ∀ b, (s₃.2.bndg b).storage ≠ .nil → st₅.bndg b = s₃.2.bndg b := by
    intro b hst
    have h₁ := hok₁.stays b hst
    rw [← h₁] at hst
    exact (hok₂.stays b hst).trans h₁
  -- what is placed in the end had what it prefers, or has been placed without that
  have hcases : ∀ b, st₅.bndg b = s₃.2.bndg b ∨ ((s₃.2.bndg b).storage = .nil ∧
      ∃ i, (bndgs ++ exprs)[i]? = some b ∧
        Fallback s₃.1 (offset - words (exprs.length + bndgs.length) + words i)
          (r.store.bndg b) (st₅.bndg b)) := by
    intro b
    rcases hok₂.cases b with h₂ | ⟨hnil₂, _, _, i, hi, hfall⟩
    · rcases hok₁.cases b with h₁ | ⟨hnil₁, _, _, i, hi, hfall⟩
      · exact Or.inl (h₂.trans h₁)
      · refine Or.inr ⟨hnil₁, bndgs.length + i, ?_, ?_⟩
        · rw [List.getElem?_append_right (Nat.le_add_right _ _), Nat.add_sub_cancel_left]
          exact hi
        · rw [h₂, ← words_add bndgs.length i, ← words_add exprs.length bndgs.length]
          have hoff : offset - (words exprs.length + words bndgs.length) +
              (words bndgs.length + words i) = offset - words exprs.length + words i := by
            generalize words exprs.length = a
            generalize words bndgs.length = b
            bv_omega
          rw [hoff]
          exact hfall
    · have hnil₁ : (s₃.2.bndg b).storage = .nil := by
        by_contra hst
        rw [hok₁.stays b hst] at hnil₂
        exact hst hnil₂
      refine Or.inr ⟨hnil₁, i, ?_, hfall.mono hok₁.mono⟩
      obtain ⟨hlt, _⟩ := List.getElem?_eq_some_iff.mp hi
      rw [List.getElem?_append_left hlt]
      exact hi
  have hpreferred : ∀ b, (s₃.2.bndg b).preferred = (r.store.bndg b).preferred :=
    htry₂.placing.preferred
  refine ⟨⟨hok₂.placing, ?_, ?_, ?_, ?_⟩, rfl⟩
  · intro b ⟨hb, hread⟩
    rcases hb with ⟨hb, hdepth⟩ | ⟨hb, hdepth⟩
    · have hst := hok₁.assigned b hb hdepth hread
      rw [hok₂.stays b hst]
      exact hst
    · exact hok₂.assigned b hb hdepth hread
  · intro b he m hm hnil' hreg
    have ht := htried b he
    unfold Tried at ht
    rw [hpreferred b, hm] at ht
    have hst : (s₃.2.bndg b).storage = m := by
      cases m with
      | nil => exact absurd rfl hnil'
      | register reg => exact absurd rfl (hreg reg)
      | frameRelative offset => exact ht
      | absolute offset => exact ht
    rw [hstays b (hst ▸ hnil'), hst]
  · intro b he reg hp hno x hx reg' hst hnum
    have ht := htried b he
    unfold Tried at ht
    rw [hpreferred b, hp] at ht
    have huse : registerInUse reg s₃.1 = true := ht.resolve_left hno
    rcases hcases x with hsame | ⟨_, i, hi, hfall⟩
    · rw [hsame] at hst
      rcases htry₂.preferring x hx with hnil' | hpref
      · rw [hnil'] at hst
        cases hst
      · rw [← hpreferred x, ← hpref, hst]
    · rcases hfall.2 with ⟨reg'', _, hst', hfree⟩ | hst'
      · have hrr : reg'' = reg' := Storage.register.inj (hst'.symm.trans hst)
        rw [hrr, registerInUse_eq, hnum, ← registerInUse_eq, huse] at hfree
        cases hfree
      · exact absurd (hst'.symm.trans hst) (memoryStorage_ne_register _ _ _)
  · intro b hb
    rcases hcases b with hsame | ⟨_, i, hi, hfall⟩
    · rw [hsame, ← hpreferred b]
      exact (htry₂.preferring b hb).imp_right Or.inl
    · exact Or.inr (Or.inr ⟨i, hi, hfall.mono fun reg hin => htry₂.placing.mono reg hin⟩)

end L2.SelfHost
