import L2.SelfHost.Coverage
import L2.SelfHost.Locations
import L2.SelfHost.RegisterSearch

/-!
# Where the initializers have put things

No binding is placed in a register of the stack, and what is in a frame is at its words.  When
an expression has been initialized, the binding for its value has the size of a word, and the
intrinsic that it was found to be is the one that it still is.
-/

namespace L2.SelfHost

open X86 (Word Reg)
open Graph

variable {p : Program} {inits : List Intrinsics} {e n : Code} {b : BndgId}
  {st st' st'' F : Store}

/-! ## Intrinsics stay intrinsics -/

theorem state_value (h : b.mode = .value) : b.state = .defined := by
  unfold BndgId.mode at h
  split at h
  · rfl
  · rfl
  · cases h

theorem SameReference.state {b b' : BndgId} (h : SameReference b b') :
    b'.state = b.state ∧ (b.state = .undefined → b' = b) := by
  rcases h with rfl | ⟨hb, hb'⟩
  · exact ⟨rfl, fun _ => rfl⟩
  · rw [state_value hb, state_value hb']
    exact ⟨rfl, nofun⟩

/-- Symbols refer to the same bindings, or to other values. -/
def SameReferences (st st' : Store) : Prop :=
  ∀ m, SameReference (st.symbolReference m) (st'.symbolReference m)

section

variable (href : SameReferences st st')

include href

theorem matchUndefinedInvoke_view (e : Code) :
    (matchUndefinedInvoke (e.view st) = none ∧ matchUndefinedInvoke (e.view st') = none) ∨
      ∃ name es, matchUndefinedInvoke (e.view st) = some (name, viewArguments st es) ∧
        matchUndefinedInvoke (e.view st') = some (name, viewArguments st' es) := by
  cases e with
  | invoke k target arguments =>
    cases target with
    | symbol m binding =>
      obtain ⟨hstate, hsame⟩ := (href m).state
      show ((if (st.symbolReference m).state = .undefined then _ else _) = none ∧
        (if (st'.symbolReference m).state = .undefined then _ else _) = none) ∨
        ∃ name es, (if (st.symbolReference m).state = .undefined then _ else _) = _ ∧
          (if (st'.symbolReference m).state = .undefined then _ else _) = _
      rw [hstate]
      by_cases h : (st.symbolReference m).state = .undefined
      · rw [if_pos h, if_pos h]
        refine .inr ⟨(st.symbolReference m).name, arguments, rfl, ?_⟩
        show some ((st'.symbolReference m).name, _) = _
        rw [hsame h]
      · rw [if_neg h, if_neg h]
        exact .inl ⟨rfl, rfl⟩
    | literal _ _ | storage _ _ _ | function _ _ _ _ | continuation _ _ _ _ | withExpr _ _ _
    | invoke _ _ _ | jump _ _ _ | ifExpr _ _ _ _ | constrain _ _ => exact .inl ⟨rfl, rfl⟩
  | literal _ _ | symbol _ _ | storage _ _ _ | function _ _ _ _ | continuation _ _ _ _
  | withExpr _ _ _ | jump _ _ _ | ifExpr _ _ _ _ | constrain _ _ => exact .inl ⟨rfl, rfl⟩

theorem matchBaseOffset_view (e : Code) : (matchBaseOffset (e.view st')).map Prod.snd =
    (matchBaseOffset (e.view st)).map Prod.snd := by
  unfold matchBaseOffset
  rcases matchUndefinedInvoke_view href e with ⟨h, h'⟩ | ⟨name, es, h, h'⟩
  · rw [h, h']
  · rw [h, h']
    by_cases hname : name = "+"
    · subst hname
      match es with
      | [] => rfl
      | [a] => cases a <;> rfl
      | [a, b] | a :: b :: _ :: _ => cases a <;> cases b <;> rfl
    · simp [hname]

theorem initializeGetBaseOffset_view (e : Code) :
    initializeGetBaseOffset (e.view st') = initializeGetBaseOffset (e.view st) := by
  unfold initializeGetBaseOffset matchGetBaseOffset
  rcases matchUndefinedInvoke_view href e with ⟨h, h'⟩ | ⟨name, es, h, h'⟩
  · rw [h, h']
  · rw [h, h']
    match es with
    | [] | _ :: _ :: _ => rfl
    | [a] =>
      have ha := matchBaseOffset_view href a
      simp only [viewArguments]
      cases hb : matchBaseOffset (a.view st) <;> cases hb' : matchBaseOffset (a.view st') <;>
        rw [hb, hb'] at ha
      · cases ha
      · cases ha
      · have hoffset := Option.some.inj ha
        simp [hoffset]

theorem matchSetBaseOffset_view (e : Code) :
    (matchSetBaseOffset (e.view st')).map (fun q => (q.1, q.2.2.1)) =
      (matchSetBaseOffset (e.view st)).map fun q => (q.1, q.2.2.1) := by
  unfold matchSetBaseOffset
  rcases matchUndefinedInvoke_view href e with ⟨h, h'⟩ | ⟨name, es, h, h'⟩
  · rw [h, h']
  · rw [h, h']
    match es with
    | [] | [_] | _ :: _ :: _ :: _ => rfl
    | [a, b] =>
      have hpair := congrArg (Option.map fun offset => (name, offset)) (matchBaseOffset_view href a)
      simpa [viewArguments, Function.comp_def] using hpair

theorem initializeSetBaseOffset_view (e : Code) :
    initializeSetBaseOffset (e.view st') = initializeSetBaseOffset (e.view st) := by
  have h := matchSetBaseOffset_view href e
  unfold initializeSetBaseOffset
  cases hq : matchSetBaseOffset (e.view st) with
  | none =>
    rw [hq] at h
    rw [Option.map_eq_none_iff.mp h]
  | some q =>
    rw [hq] at h
    obtain ⟨q', hq', heq⟩ := Option.map_eq_some_iff.mp h
    have hname : q'.1 = q.1 := (Prod.mk.inj heq).1
    simp [hq', hname]

theorem initializeUnary_view (e : Code) :
    initializeUnary (e.view st') = initializeUnary (e.view st) := by
  unfold initializeUnary matchUndefinedUnaryInvoke
  rcases matchUndefinedInvoke_view href e with ⟨h, h'⟩ | ⟨name, es, h, h'⟩
  · rw [h, h']
  · rw [h, h']
    match es with
    | [] | [_] | _ :: _ :: _ => rfl

theorem initializeRightImm_view (e : Code) :
    initializeRightImm (e.view st') = initializeRightImm (e.view st) := by
  unfold initializeRightImm matchUndefinedBinaryRightImmInvoke
  rcases matchUndefinedInvoke_view href e with ⟨h, h'⟩ | ⟨name, es, h, h'⟩
  · rw [h, h']
  · rw [h, h']
    match es with
    | [] | [_] => rfl
    | _ :: b :: es => cases b <;> cases es <;> rfl

theorem initializeBinary_view (e : Code) :
    initializeBinary (e.view st') = initializeBinary (e.view st) := by
  unfold initializeBinary matchUndefinedBinaryInvoke
  rcases matchUndefinedInvoke_view href e with ⟨h, h'⟩ | ⟨name, es, h, h'⟩
  · rw [h, h']
  · rw [h, h']
    match es with
    | [] | [_] | [_, _] | _ :: _ :: _ :: _ => rfl

/-- The generator of an intrinsic depends on the symbols only through these references. -/
theorem initializeArithmeticIntrinsics_view (e : Code) :
    initializeArithmeticIntrinsics (e.view st') = initializeArithmeticIntrinsics (e.view st) := by
  unfold initializeArithmeticIntrinsics
  rw [initializeGetBaseOffset_view href, initializeSetBaseOffset_view href,
    initializeUnary_view href, initializeRightImm_view href, initializeBinary_view href]

end

/-! ## The invariant -/

/-- The locations are sound; what has been initialized has a word for its value, and is the
intrinsic that it was found to be. -/
structure Located (p : Program) (st : Store) : Prop where
  sound : SoundStore st
  size : ∀ n ∈ p.nodes, st.generator n.id ≠ none → (st.bndg (st.aug n)).size = wordSize
  intrinsic : ∀ n ∈ p.nodes, ∀ g, st.generator n.id = some (.intrinsic g) →
    initializeArithmeticIntrinsics (n.view st) = some g

/-- What stays of a store. -/
structure Retains (st st' : Store) : Prop where
  size : ∀ b, (st.bndg b).size = wordSize → (st'.bndg b).size = wordSize
  references : SameReferences st st'

theorem Retains.refl (st : Store) : Retains st st := ⟨fun _ h => h, fun _ => .inl rfl⟩

theorem Retains.trans (h : Retains st st') (h' : Retains st' st'') : Retains st st'' :=
  ⟨fun b hb => h'.size b (h.size b hb), fun m => (h.references m).trans (h'.references m)⟩

theorem Tuned.retains (h : Tuned st st') : Retains st st' :=
  ⟨fun b hb => (h.size b).trans hb, h.reference⟩

/-- Nothing is initialized in the step. -/
theorem Located.retains (h : Located p st) (hs : SoundStore st') (hl : Retains st st')
    (hkeeps : ∀ v ∈ p.nodes, st'.generator v.id ≠ none →
      st'.generator v.id = st.generator v.id ∧ st'.aug v = st.aug v) : Located p st' where
  sound := hs
  size v hv hgen := by
    obtain ⟨hsame, haug⟩ := hkeeps v hv hgen
    rw [haug]
    exact hl.size _ (h.size v hv (hsame ▸ hgen))
  intrinsic v hv g hg := by
    obtain ⟨hsame, _⟩ := hkeeps v hv (hg ▸ Option.some_ne_none _)
    rw [initializeArithmeticIntrinsics_view hl.references]
    exact h.intrinsic v hv g (hsame ▸ hg)

theorem Located.called (hp : p.WellFormed) (h : Located p st) (hr : Ready p e n st)
    {g : ExprGenerator} {call : InitCall} (hcall : callOf p inits st n = some (g, call)) :
    Located p call.store := by
  have hok := callOf_ok hp hr hcall
  have htuned := tuned_callOf hp hr hcall
  apply h.retains (htuned.sound h.sound) htuned.retains
  intro v hv hgen
  rw [hok.generator] at hgen
  refine ⟨congrFun hok.generator v.id, ?_⟩
  apply aug_of_fields
  apply hok.step.frame.fields
  intro c hc hid
  have hcv : c = v := hp.eq_of_id (Program.mem_of_mem_nodes hr.mem_nodes hc) hv hid
  exact hgen (hcv ▸ hr.pristine.generator c hc)

/-! ### Giving out locations -/

theorem size_modify {f : BndgAug → BndgAug} (hf : ∀ x, (f x).size = x.size ∨
    (f x).size = wordSize) (b b' : BndgId) (st : Store) (h : (st.bndg b').size = wordSize) :
    ((st.modify b f).bndg b').size = wordSize := by
  by_cases hb : b' = b
  · rw [hb, bndg_modify]
    rcases hf (st.bndg b) with hs | hs
    · rw [hs, ← hb]
      exact h
    · exact hs
  · rw [bndg_modify_of_ne hb]
    exact h

theorem retains_modify {f : BndgAug → BndgAug} (hf : ∀ x, (f x).size = x.size ∨
    (f x).size = wordSize) (b : BndgId) (st : Store) : Retains st (st.modify b f) :=
  ⟨fun b' h => size_modify hf b b' st h, fun _ => .inl rfl⟩

theorem retains_clear (bs : List BndgId) (st : Store) : Retains st (clear st bs) := by
  induction bs generalizing st with
  | nil => exact Retains.refl st
  | cons b bs ih =>
    have hb : Retains st (st.modify b (setStorage .nil)) :=
      retains_modify (f := setStorage .nil) (fun _ => .inl rfl) b st
    exact hb.trans (ih _)

theorem retains_tryBndg (st : Store) (b : BndgId) (u : RegUseVec) :
    Retains st (tryBndgToPreferredLocation st b u).2 := by
  unfold tryBndgToPreferredLocation
  split
  · exact Retains.refl st
  · split
    · exact Retains.refl st
    · next reg _ _ =>
      exact retains_modify (f := setStorage (.register reg) ∘ setSize wordSize)
        (fun _ => .inr rfl) b st
  · exact retains_modify (f := setStorage (st.bndg b).preferred) (fun _ => .inl rfl) b st

theorem retains_tryPreferred (depth : Nat) (bs : List BndgId) (u : RegUseVec) (st : Store) :
    Retains st (tryPreferred depth u st bs).2 := by
  induction bs generalizing u st with
  | nil => exact Retains.refl st
  | cons b bs ih =>
    have hround : Retains st (tryPreferredRound depth u st b).2 := by
      unfold tryPreferredRound
      split
      · exact retains_tryBndg st b u
      · exact Retains.refl st
    exact hround.trans (ih _ _)

theorem retains_assignArgs {depth : Nat} {offset : Word} {bs : List BndgId} {u : RegUseVec}
    {r : RegUseVec × Store} (h : assignArgs depth offset u st bs = some r) : Retains st r.2 := by
  induction bs generalizing offset u st with
  | nil =>
    cases h
    exact Retains.refl st
  | cons b bs ih =>
    obtain ⟨r₁, hround, hrest⟩ := Option.bind_eq_some_iff.mp h
    have hfirst : Retains st r₁.2 := by
      unfold assignArgsRound bindingToRegisterMemory at hround
      split at hround
      · split at hround
        · cases hround
          exact retains_modify (f := fun x =>
              { x with size := wordSize, storage := memoryStorage x.context offset })
            (fun _ => .inr rfl) b st
        · obtain ⟨reg, -, rfl⟩ := Option.map_eq_some_iff.mp hround
          exact retains_modify (f := setStorage (.register reg) ∘ setSize wordSize)
            (fun _ => .inr rfl) b st
      · cases hround
        exact Retains.refl st
    exact hfirst.trans (ih hrest)

theorem retains_locate {call : InitCall} {offset : Word} {depth : Nat} {r r' : Initialized}
    (h : locate call offset depth r = some r') : Retains r.store r'.store := by
  unfold locate at h
  dsimp only at h
  obtain ⟨r₁, h₁, h⟩ := Option.bind_eq_some_iff.mp h
  obtain ⟨r₂, h₂, rfl⟩ := Option.map_eq_some_iff.mp h
  have hclear := (retains_clear (call.exprs.map r.store.aug) r.store).trans
    (retains_clear call.bndgs _)
  have htry := (retains_assignArgs h₁).trans (retains_assignArgs h₂)
  exact ((hclear.trans (retains_tryPreferred ..)).trans (retains_tryPreferred ..)).trans htry

theorem sound_fallback {u : RegUseVec} (hu : Reserves u) {offset : Word} (ho : OnWord offset)
    {old new : BndgAug} (h : Fallback u offset old new) : new.storage.Sound := by
  have hprefs : bindingToRegisterMemoryPrefs =
      ([10, 11, 0, 9, 8, 1, 2, 6, 7, 12, 13, 14, 15, 3, 4, 5] : List Reg).map
        fun i : Reg => reg64 i.val := by decide
  rcases h.2 with ⟨reg, hreg, hst, hfree⟩ | hst
  · rw [hst]
    rw [hprefs] at hreg
    obtain ⟨i, -, rfl⟩ := List.mem_map.mp hreg
    apply sound_register
    intro hi
    have hbit : u.getLsbD (number (reg64 i)) = true := by
      rcases List.mem_pair.mp hi with rfl | rfl
      · exact hu 4 (by omega) (by omega)
      · exact hu 5 (by omega) (by omega)
    rw [registerInUse_eq, hbit] at hfree
    cases hfree
  · rw [hst]
    exact sound_memoryStorage ho _

theorem sound_locate {call : InitCall} {offset : Word} {depth : Nat} {r r' : Initialized}
    (hs : SoundStore r.store) (ho : OnWord offset) (hu : Reserves r.inUse)
    (h : locate call offset depth r = some r') : SoundStore r'.store := by
  obtain ⟨hok, _⟩ := locate_ok h
  refine ⟨?_, ?_, ?_⟩
  · intro b
    by_cases hb : b ∈ call.exprs.map r.store.aug ++ call.bndgs
    · rcases hok.sites b hb with hst | hst | ⟨i, -, hfall⟩
      · rw [hst]
        trivial
      · rw [hst]
        exact hs.preferred b
      · exact sound_fallback hu ((ho.sub (onWord_words _)).add (onWord_words i)) hfall
    · rw [hok.placing.other b hb]
      exact hs.storage b
  · intro b
    rw [hok.placing.preferred b]
    exact hs.preferred b
  · intro n
    rw [hok.placing.same]
    exact hs.frameSize n

theorem Located.placed {call : InitCall} {offset : Word} {depth : Nat} {r r' : Initialized}
    (hl : Located p r.store) (ho : OnWord offset) (hu : Reserves r.inUse)
    (h : locate call offset depth r = some r') : Located p r'.store := by
  have hsame := (locate_ok h).1.placing.same
  apply hl.retains (sound_locate hl.sound ho hu h) (retains_locate h)
  intro v _ _
  rw [hsame]
  exact ⟨rfl, rfl⟩

/-! ### Runs -/

/-- What a run of an initializer leaves. -/
structure Ran (p : Program) (st : Store) (r : Initialized) : Prop where
  located : Located p r.store
  retains : Retains st r.store
  bottom : OnWord r.bottomOffset

/-- The run of an initializer, with what is known of its own call. -/
def RunsSoundly (p : Program) (e : Code)
    (init : Word → Store → Code → Option Initialized) : Prop :=
  ∀ offset st n r, OnWord offset → Located p st → Ready p e n st →
    init offset st n = some r → Ran p st r

theorem ran_initSubs (hp : p.WellFormed) {init : Word → Store → Code → Option Initialized}
    (hinit : RunsSoundly p e init)
    (hruns : ∀ offset st n r, Ready p e n st → init offset st n = some r →
      RunOk p inits e n st r.store)
    {offset : Word} (ho : OnWord offset) {es : List Code} {r r' : Initialized}
    (hw : Waiting p e n es r.store) (hl : Located p r.store) (hb : OnWord r.bottomOffset)
    (h : initSubs init offset r es = some r') : Ran p r.store r' := by
  induction es generalizing r with
  | nil =>
    cases h
    exact ⟨hl, Retains.refl _, hb⟩
  | cons c es ih =>
    obtain ⟨r₁, h₁, hrest⟩ := Option.bind_eq_some_iff.mp h
    have hready := hw.ready List.mem_cons_self
    have hran := hinit _ _ _ _ ho hl hready h₁
    have hrun := hruns _ _ _ _ hready h₁
    have htail := ih
      (r := ⟨minWord r.bottomOffset r₁.bottomOffset, r.inUse ||| r₁.inUse, r₁.store⟩)
      (hw.tail hp hrun) hran.located (hb.min hran.bottom) hrest
    exact ⟨htail.located, hran.retains.trans htail.retains, htail.bottom⟩

/-- The end of an initializer. -/
theorem ran_setGenerated (hp : p.WellFormed) (hn : n ∈ p.nodes) (hl : Located p st)
    {g : ExprGenerator} (hg : ∀ g', g = .intrinsic g' →
      initializeArithmeticIntrinsics (n.view st) = some g') :
    Located p (setGenerated g n st) ∧ Retains st (setGenerated g n st) := by
  have hretains : Retains st (setGenerated g n st) :=
    ⟨fun b h => size_modify (fun _ => .inr rfl) (st.aug n) b st h, fun _ => .inl rfl⟩
  have hself : (setGenerated g n st).generator n.id = some g := Function.update_self ..
  have hother : ∀ v : Code, v.id ≠ n.id →
      (setGenerated g n st).generator v.id = st.generator v.id :=
    fun v hv => Function.update_of_ne hv _ _
  have hmodify : SoundStore (st.modify (st.aug n) (setSize wordSize)) :=
    hl.sound.modify (hl.sound.storage _) (hl.sound.preferred _)
  refine ⟨⟨⟨hmodify.storage, hmodify.preferred, hmodify.frameSize⟩, ?_, ?_⟩, hretains⟩
  · intro v hv hgen
    by_cases hid : v.id = n.id
    · have hvn : v = n := hp.eq_of_id hv hn hid
      show ((st.modify (st.aug n) (setSize wordSize)).bndg (st.aug v)).size = wordSize
      rw [hvn, bndg_modify]
      rfl
    · rw [hother v hid] at hgen
      exact hretains.size _ (hl.size v hv hgen)
  · intro v hv g' hg'
    rw [initializeArithmeticIntrinsics_view hretains.references]
    by_cases hid : v.id = n.id
    · have hvn : v = n := hp.eq_of_id hv hn hid
      rw [hid, hself] at hg'
      rw [hvn]
      exact hg g' (Option.some.inj hg')
    · rw [hother v hid] at hg'
      exact hl.intrinsic v hv g' hg'

theorem retains_setSizes (bs : List BndgId) (st : Store) :
    Retains st (st.modifyAll bs (setSize wordSize)) := by
  induction bs generalizing st with
  | nil => exact Retains.refl st
  | cons b bs ih =>
    have hb : Retains st (st.modify b (setSize wordSize)) := retains_modify (fun _ => .inr rfl) b st
    exact hb.trans (ih _)

theorem sound_setSizes (bs : List BndgId) (hs : SoundStore st) :
    SoundStore (st.modifyAll bs (setSize wordSize)) := by
  induction bs generalizing st with
  | nil => exact hs
  | cons b bs ih => exact ih (hs.modify (hs.storage b) (hs.preferred b))

/-- The frame of a function is known, and its parameters are words. -/
theorem located_setFrame (hl : Located p st) {bottom : Word} (hb : OnWord bottom) (k : NodeId)
    (used : RegUseVec) (bs : List BndgId) :
    Located p ((st.setFrame k bottom used).modifyAll bs (setSize wordSize)) ∧
      Retains st ((st.setFrame k bottom used).modifyAll bs (setSize wordSize)) := by
  have hframe : SoundStore (st.setFrame k bottom used) := by
    refine ⟨hl.sound.storage, hl.sound.preferred, ?_⟩
    intro m
    show OnWord (Function.update st.frameSize k bottom m)
    by_cases hm : m = k
    · rw [hm, Function.update_self]
      exact hb
    · rw [Function.update_of_ne hm]
      exact hl.sound.frameSize m
  have hsame := sameFields_modifyAll (st.setFrame k bottom used) bs (setSize wordSize)
  have hretains : Retains st ((st.setFrame k bottom used).modifyAll bs (setSize wordSize)) := by
    have h := retains_setSizes bs (st.setFrame k bottom used)
    exact ⟨h.size, h.references⟩
  refine ⟨hl.retains (sound_setSizes bs hframe) hretains ?_, hretains⟩
  intro v _ _
  rw [hsame]
  exact ⟨rfl, rfl⟩

theorem ran_finish (hp : p.WellFormed) (hn : n ∈ p.nodes) {r : Initialized}
    (hl : Located p r.store) (hb : OnWord r.bottomOffset) {offset : Word} (ho : OnWord offset)
    {g : ExprGenerator} (hg : ∀ g', g = .intrinsic g' →
      initializeArithmeticIntrinsics (n.view r.store) = some g') :
    Ran p r.store (finish g n offset r) := by
  unfold finish
  split
  · obtain ⟨hframe, hretains⟩ := located_setFrame hl hb n.id r.inUse
      ((r.store.setFrame n.id r.bottomOffset r.inUse).parameters n.id)
    obtain ⟨hlocated, hretains'⟩ := ran_setGenerated (g := .function) hp hn hframe nofun
    exact ⟨hlocated, hretains.trans hretains', ho⟩
  · obtain ⟨hlocated, hretains⟩ := ran_setGenerated (g := .invoke) hp hn hl nofun
    exact ⟨hlocated, hretains, hb⟩
  · obtain ⟨hlocated, hretains⟩ := ran_setGenerated hp hn hl hg
    exact ⟨hlocated, hretains, hb⟩
  · obtain ⟨hlocated, hretains⟩ := ran_setGenerated hp hn hl hg
    exact ⟨hlocated, hretains, hb⟩

theorem intrinsicOf_some {g : Generator} (h : intrinsicOf inits st n = some g) :
    initializeArithmeticIntrinsics (n.view st) = some g := by
  obtain ⟨init, _, hinit⟩ := List.exists_of_findSome?_eq_some h
  cases init with
  | arithmetic => exact hinit

theorem callOf_intrinsic {g : Generator} {call : InitCall}
    (h : callOf p inits st n = some (.intrinsic g, call)) :
    initializeArithmeticIntrinsics (n.view st) = some g := by
  cases n with
  | invoke k target arguments =>
    unfold callOf at h
    dsimp only at h
    split at h
    · next g' hg' =>
      obtain ⟨_, _, heq⟩ := Option.map_eq_some_iff.mp h
      cases heq
      exact intrinsicOf_some hg'
    · cases h
  | withExpr k ref body | jump k target arguments =>
    obtain ⟨_, _, heq⟩ := Option.map_eq_some_iff.mp h
    cases heq
  | function _ _ _ _ | continuation _ _ _ _ | storage _ _ _ | ifExpr _ _ _ _ | constrain _ _
  | symbol _ _ | literal _ _ => cases h

theorem ran_initializeExpression (hp : p.WellFormed) (fuel : Nat) :
    RunsSoundly p e (initializeExpression p inits fuel) := by
  induction fuel with
  | zero =>
    intro offset st n r _ _ _ h
    cases h
  | succ fuel ih =>
    intro offset st n r ho hl hr heq
    unfold initializeExpression at heq
    split at heq
    · cases heq
      obtain ⟨hlocated, hretains⟩ := ran_setGenerated (g := .symbol) hp hr.mem_nodes hl nofun
      exact ⟨hlocated, hretains, ho⟩
    · cases heq
      obtain ⟨hlocated, hretains⟩ := ran_setGenerated (g := .literal) hp hr.mem_nodes hl nofun
      exact ⟨hlocated, hretains, ho⟩
    · obtain ⟨⟨g, call⟩, hcall, heq⟩ := Option.bind_eq_some_iff.mp heq
      obtain ⟨placed, hcalled, hfinish⟩ := Option.bind_eq_some_iff.mp heq
      cases hfinish
      obtain ⟨subs, hsubs, hlocate⟩ := Option.bind_eq_some_iff.mp hcalled
      have hok := callOf_ok hp hr hcall
      have hcalledLocated := hl.called hp hr hcall
      have hoffset : OnWord (callOffset n offset st) := by
        unfold callOffset
        split
        · exact hl.sound.frameSize n.id
        · exact ho
      have hsub : OnWord (callOffset n offset st - words (call.exprs.length + call.bndgs.length)) :=
        hoffset.sub (onWord_words _)
      have hran := ran_initSubs (r := ⟨_, call.mask, call.store⟩) hp ih
        (initializeExpression_ok hp fuel) hsub (hr.waiting hp hok) hcalledLocated hsub hsubs
      have huse : Reserves subs.inUse :=
        (callConfined_callOf hcall).mask.initSubs (r := ⟨_, call.mask, call.store⟩) hsubs
      have hplaced := hran.located.placed hoffset huse hlocate
      have hretains := ((tuned_callOf hp hr hcall).retains.trans hran.retains).trans
        (retains_locate hlocate)
      have hbottom : OnWord placed.bottomOffset := by
        rw [(locate_ok hlocate).2]
        exact hran.bottom
      have hfin := ran_finish (g := g) hp hr.mem_nodes hplaced hbottom ho (by
        rintro g' rfl
        rw [initializeArithmeticIntrinsics_view hretains.references]
        exact callOf_intrinsic hcall)
      exact ⟨hfin.located, hretains.trans hfin.retains, hfin.bottom⟩

/-! ### Programs -/

/-- What is higher up than the depth that is asked for gets no place. -/
theorem place_shallow {depth : Nat} (h : st.bndgDepth b < depth) (offset : Word) (u : RegUseVec) :
    tryPreferred depth u st [b] = (u, st) ∧ assignArgs depth offset u st [b] = some (u, st) := by
  have hround : tryPreferredRound depth u st b = (u, st) := if_neg fun hd => by omega
  have hassign : assignArgsRound depth offset u st b = some (u, st) := if_neg fun hd => by omega
  constructor
  · unfold tryPreferred
    rw [hround]
    rfl
  · unfold assignArgs
    rw [hassign]
    rfl

theorem locate_root {call : InitCall} (hexprs : call.exprs = [e]) (hbndgs : call.bndgs = [])
    {offset : Word} {r r' : Initialized} (hdepth : r.store.bndgDepth (r.store.aug e) = 0)
    (h : locate call offset 0 r = some r') : r'.store = clear r.store [r.store.aug e] := by
  have hlow : (clear r.store [r.store.aug e]).bndgDepth (r.store.aug e) < 0 + 1 := by
    show r.store.bndgDepth (r.store.aug e) < 0 + 1
    omega
  obtain ⟨htry, hassign⟩ := place_shallow hlow (offset - words 1) r.inUse
  unfold locate at h
  rw [hexprs, hbndgs] at h
  have htry : tryPreferred (0 + 1) r.inUse (clear (clear r.store ([e].map r.store.aug)) [])
      ([e].map r.store.aug) = (r.inUse, clear r.store [r.store.aug e]) := htry
  dsimp only at h
  rw [htry] at h
  have hassign : assignArgs (0 + 1) (offset - words [e].length) (tryPreferred 0
      (r.inUse, clear r.store [r.store.aug e]).1 (r.inUse, clear r.store [r.store.aug e]).2 []).1
      (tryPreferred 0 (r.inUse, clear r.store [r.store.aug e]).1
        (r.inUse, clear r.store [r.store.aug e]).2 []).2 ([e].map r.store.aug) = _ := hassign
  rw [hassign] at h
  cases h
  rfl

theorem Located.depth (h : Located p st) (d : NodeId → Nat) :
    Located p { st with depth := d } := by
  have hs : SoundStore { st with depth := d } :=
    ⟨h.sound.storage, h.sound.preferred, h.sound.frameSize⟩
  have hretains : Retains st { st with depth := d } := ⟨fun _ hb => hb, fun _ => .inl rfl⟩
  exact h.retains hs hretains fun _ _ _ => ⟨rfl, rfl⟩

theorem located_initializeAll (hp : p.WellFormed) {fuel : Nat} {offset : Word} {es : List Code}
    (ho : OnWord offset) (h : Pending p es st) (hl : Located p st)
    (heq : initializeAll p inits fuel offset st es = some F) : Located p F := by
  induction es generalizing st with
  | nil =>
    cases heq
    exact hl
  | cons e es ih =>
    obtain ⟨r, hround, hrest⟩ := Option.bind_eq_some_iff.mp heq
    apply ih (h.tail hp (roundOk hp h hround)) _ hrest
    have he := h.roots e List.mem_cons_self
    have hnum := numbered_assignDepths e 0 st (nodup_ids_of_mem hp.nodup he)
    have hready := h.ready hp
    have hnumbered : Located p (assignDepths 0 st e) := by
      rw [hnum.same]
      exact hl.depth _
    obtain ⟨r₁, hsubs, hlocate⟩ := Option.bind_eq_some_iff.mp hround
    obtain ⟨r₂, hrun, hsubs⟩ := Option.bind_eq_some_iff.mp hsubs
    cases hsubs
    have hok := initializeExpression_ok hp fuel _ _ _ _ hready hrun
    have hran := ran_initializeExpression hp fuel _ _ _ _ (ho.sub (onWord_words 1)) hnumbered
      hready hrun
    have haug : r₂.store.aug e = .value e.id := by
      rw [hok.aug, hnum.same]
      exact h.aug e List.mem_cons_self
    have hdepth : r₂.store.bndgDepth (r₂.store.aug e) = 0 := by
      rw [haug]
      show r₂.store.depth e.id = 0
      rw [hok.step.frame.depth]
      exact hnum.roots e (List.mem_singleton.mpr rfl)
    have hretains := retains_locate hlocate
    have hplacing := (locate_ok hlocate).1.placing.same
    have hstore := locate_root rfl rfl (by exact hdepth) hlocate
    apply hran.located.retains _ hretains
    · intro v _ _
      rw [hplacing]
      exact ⟨rfl, rfl⟩
    · rw [hstore]
      exact hran.located.sound.modify (f := setStorage .nil) trivial
        (hran.located.sound.preferred _)

theorem located_initializeProgram (hp : p.WellFormed) {fuel : Nat}
    (h : initializeProgram p inits fuel = some F) : Located p F := by
  have hf := fields_prepared hp
  have hs : SoundPlaced (prepare p (-words 1) (Store.initial p) p.exprs) :=
    sound_prepare p p.exprs (r := (_, _)) ⟨(onWord_words 1).neg, sound_initial p⟩
  have hl : Located p (prepared p) := by
    refine ⟨hs.2, ?_, ?_⟩
    · intro n hn hgen
      exact absurd (hf.generator n hn) hgen
    · intro n hn g hg
      rw [hf.generator n hn] at hg
      cases hg
  exact located_initializeAll hp (hs.1.sub (onWord_words 1)) (pending_prepared hp) hl h

end L2.SelfHost
