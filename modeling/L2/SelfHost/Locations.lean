import L2.SelfHost.Initialized
import L2.SelfHost.Layouts

/-!
# Which locations are sound

A location is sound if it is not a register of the stack's and, in a frame, is a whole number of
words from its base.  The passes before the initializers leave only such locations, and what
initializers prefer is sound, too.
-/

namespace L2.SelfHost

open X86 (Word Reg)
open Graph

variable {p : Program} {inits : List Intrinsics} {e n : Code} {b : BndgId} {st st' st'' : Store}

/-! ## Words of a frame -/

def OnWord (offset : Word) : Prop := offset.toNat % 8 = 0

theorem onWord_words (n : Nat) : OnWord (words n) := by
  unfold OnWord words wordSize
  rw [BitVec.toNat_ofNat]
  omega

namespace OnWord

variable {x y : Word}

theorem add (hx : OnWord x) (hy : OnWord y) : OnWord (x + y) := by
  unfold OnWord at hx hy ⊢
  rw [BitVec.toNat_add]
  omega

theorem sub (hx : OnWord x) (hy : OnWord y) : OnWord (x - y) := by
  unfold OnWord at hx hy ⊢
  rw [BitVec.toNat_sub]
  omega

theorem neg (hx : OnWord x) : OnWord (-x) := by
  unfold OnWord at hx ⊢
  rw [BitVec.toNat_neg]
  omega

theorem min (hx : OnWord x) (hy : OnWord y) : OnWord (minWord x y) := by
  unfold minWord
  split
  · exact hx
  · exact hy

end OnWord

/-! ## Locations -/

/-- A register outside of the stack's, a word of the frame, or a place in static memory. -/
def Storage.Sound : Storage → Prop
  | .register reg => ∃ i : Reg, reg = reg64 i ∧ i ∉ stackRegisters
  | .frameRelative offset => OnWord offset
  | .nil | .absolute _ => True

theorem sound_memoryStorage {offset : Word} (h : OnWord offset) (context : BndgContext) :
    (memoryStorage context offset).Sound := by
  cases context with
  | intraFunction => exact h
  | extraFunction => trivial

theorem sound_register {i : Reg} (h : i ∉ stackRegisters) : (Storage.register (reg64 i)).Sound :=
  ⟨i, rfl, h⟩

/-- The locations that bindings have and those that they prefer are sound. -/
structure SoundStore (st : Store) : Prop where
  storage : ∀ b, (st.bndg b).storage.Sound
  preferred : ∀ b, (st.bndg b).preferred.Sound
  frameSize : ∀ n, OnWord (st.frameSize n)

namespace SoundStore

theorem modify (h : SoundStore st) {f : BndgAug → BndgAug}
    (hs : (f (st.bndg b)).storage.Sound) (hp : (f (st.bndg b)).preferred.Sound) :
    SoundStore (st.modify b f) := by
  refine ⟨?_, ?_, h.frameSize⟩
  · intro b'
    by_cases hb : b' = b
    · rw [hb, bndg_modify]
      exact hs
    · rw [bndg_modify_of_ne hb]
      exact h.storage b'
  · intro b'
    by_cases hb : b' = b
    · rw [hb, bndg_modify]
      exact hp
    · rw [bndg_modify_of_ne hb]
      exact h.preferred b'

theorem setContext (h : SoundStore st) (b : BndgId) (context : BndgContext) :
    SoundStore (st.modify b (L2.SelfHost.setContext context)) :=
  h.modify (h.storage b) (h.preferred b)

theorem setIsRead (h : SoundStore st) (b : BndgId) (val : Bool) :
    SoundStore (st.modify b (L2.SelfHost.setIsRead val)) :=
  h.modify (h.storage b) (h.preferred b)

theorem setContexts (h : SoundStore st) (bs : List BndgId) (context : BndgContext) :
    SoundStore (st.modifyAll bs (L2.SelfHost.setContext context)) := by
  induction bs generalizing st with
  | nil => exact h
  | cons b bs ih => exact ih (h.setContext b context)

theorem setIsReads (h : SoundStore st) (bs : List BndgId) (val : Bool) :
    SoundStore (st.modifyAll bs (L2.SelfHost.setIsRead val)) := by
  induction bs generalizing st with
  | nil => exact h
  | cons b bs ih => exact ih (h.setIsRead b val)

theorem placeAt (h : SoundStore st) {offset : Word} (ho : OnWord offset) (b : BndgId)
    (size : Nat) : SoundStore (st.modify b (L2.SelfHost.placeAt size offset)) :=
  h.modify (sound_memoryStorage ho _) (h.preferred b)

theorem preferWords (h : SoundStore st) {offset : Word} (ho : OnWord offset)
    (bs : List BndgId) : SoundStore (L2.SelfHost.preferWords st offset bs) := by
  induction bs generalizing offset st with
  | nil => exact h
  | cons b bs ih =>
    exact ih (h.modify (h.storage b) (sound_memoryStorage ho _)) (ho.add (onWord_words 1))

end SoundStore

/-! ### The passes before -/

mutual

theorem sound_classify : ∀ (e : Code) {st : Store}, SoundStore st →
    SoundStore (classifyProgramBindings st e)
  | .literal _ _, _, h | .symbol _ _, _, h | .function _ _ _ _, _, h => h.setContext _ _
  | .constrain _ e, _, h => sound_classify e (h.setContext _ _)
  | .storage _ _ arguments, _, h =>
    sound_classifyArguments arguments ((h.setContext _ _).setContext _ _)
  | .invoke _ target arguments, _, h | .jump _ target arguments, _, h =>
    sound_classifyArguments arguments (sound_classify target (h.setContext _ _))
  | .continuation _ _ _ e, _, h | .withExpr _ _ e, _, h =>
    sound_classify e (((h.setContext _ _).setContext _ _).setContexts _ _)
  | .ifExpr _ condition consequent alternate, _, h =>
    sound_classify alternate (sound_classify consequent (sound_classify condition
      (h.setContext _ _)))

theorem sound_classifyArguments : ∀ (es : List Code) {st : Store}, SoundStore st →
    SoundStore (classifyArguments st es)
  | [], _, h => h
  | e :: es, _, h => sound_classifyArguments es (sound_classify e h)

end

mutual

theorem sound_assignExprIsReads : ∀ (e : Code) {st : Store}, SoundStore st →
    SoundStore (assignExprIsReads st e)
  | .literal _ _, _, h => h
  | .symbol _ _, _, h => h.setIsRead _ _
  | .ifExpr _ cond consq alte, _, h =>
    (sound_assignExprIsReads alte ((sound_assignExprIsReads consq
      ((sound_assignExprIsReads cond h).setIsRead _ _)).setIsRead _ _)).setIsRead _ _
  | .constrain _ body, _, h => (sound_assignExprIsReads body h).setIsRead _ _
  | .function _ _ _ body, _, h =>
    (sound_assignExprIsReads body (h.setIsRead _ _)).setIsRead _ _
  | .withExpr _ _ body, _, h =>
    (sound_assignExprIsReads body ((h.setIsRead _ _).setIsReads _ _)).setIsRead _ _
  | .continuation _ _ _ body, _, h =>
    (sound_assignExprIsReads body ((h.setIsReads _ _).setIsRead _ _)).setIsRead _ _
  | .storage _ _ args, _, h => sound_assignArgumentReads args (h.setIsRead _ _)
  | .jump _ target args, _, h | .invoke _ target args, _, h =>
    sound_assignArgumentReads args ((sound_assignExprIsReads target h).setIsRead _ _)

theorem sound_assignArgumentReads : ∀ (es : List Code) {st : Store}, SoundStore st →
    SoundStore (assignArgumentReads st es)
  | [], _, h => h
  | e :: es, _, h =>
    sound_assignArgumentReads es ((sound_assignExprIsReads e h).setIsRead _ _)

end

/-- The offset below what has been placed, and the store. -/
def SoundPlaced (r : Word × Store) : Prop := OnWord r.1 ∧ SoundStore r.2

theorem sound_placeContinuation (escapes : NodeId → Bool) {r : Word × Store}
    (h : SoundPlaced r) (n : NodeId) (b : BndgId) :
    SoundPlaced (placeContinuation escapes r.1 r.2 n b) := by
  obtain ⟨ho, hs⟩ := h
  unfold placeContinuation
  split
  · have hparams := ho.sub (onWord_words (r.2.parameters n).length)
    have hcont : OnWord (r.1 - words (r.2.parameters n).length - BitVec.ofNat 64 contSize) :=
      hparams.sub (onWord_words 7)
    exact ⟨hcont, (hs.preferWords hparams _).placeAt hcont b contSize⟩
  · exact ⟨ho, hs.placeAt ho b 0⟩

mutual

theorem sound_placePermBindings (escapes : NodeId → Bool) : ∀ (e : Code) {r : Word × Store},
    SoundPlaced r → SoundPlaced (placePermBindings escapes r.1 r.2 e)
  | .literal _ _, _, h | .symbol _ _, _, h => h
  | .function n _ _ e, r, h => by
    obtain ⟨hbody, hs⟩ := sound_placePermBindings escapes e (r := (-words calleeSavedLen, r.2))
      ⟨(onWord_words calleeSavedLen).neg, h.2⟩
    refine ⟨h.1, hs.storage, hs.preferred, ?_⟩
    intro m
    show OnWord (Function.update (_ : NodeId → Word) n _ m)
    by_cases hm : m = n
    · rw [hm, Function.update_self]
      exact hbody
    · rw [Function.update_of_ne hm]
      exact hs.frameSize m
  | .constrain _ e, _, h => sound_placePermBindings escapes e h
  | .invoke _ target arguments, _, h | .jump _ target arguments, _, h =>
    sound_placeArguments escapes arguments (sound_placePermBindings escapes target h)
  | .ifExpr _ condition consequent alternate, _, h =>
    sound_placePermBindings escapes alternate (sound_placePermBindings escapes consequent
      (sound_placePermBindings escapes condition h))
  | .continuation _ _ _ e, _, h | .withExpr _ _ e, _, h =>
    sound_placePermBindings escapes e (sound_placeContinuation escapes h _ _)
  | .storage _ _ arguments, _, h => by
    have ho := h.1.sub (onWord_words arguments.length)
    exact sound_placeArguments escapes arguments (r := (_, _))
      ⟨ho, (h.2.placeAt ho _ _).preferWords ho _⟩

theorem sound_placeArguments (escapes : NodeId → Bool) : ∀ (es : List Code) {r : Word × Store},
    SoundPlaced r → SoundPlaced (placeArguments escapes r.1 r.2 es)
  | [], _, h => h
  | e :: es, _, h => sound_placeArguments escapes es (sound_placePermBindings escapes e h)

end

theorem sound_prepare (p : Program) (es : List Code) {r : Word × Store} (h : SoundPlaced r) :
    SoundPlaced (prepare p r.1 r.2 es) := by
  induction es generalizing r with
  | nil => exact h
  | cons e es ih =>
    have he : SoundPlaced (r.1, assignExprIsReads (classifyProgramBindings r.2 e) e) :=
      ⟨h.1, sound_assignExprIsReads e (sound_classify e h.2)⟩
    exact ih (sound_placePermBindings p.escapes e he)

theorem sound_initial (p : Program) : SoundStore (Store.initial p) := by
  refine ⟨?_, ?_, fun _ => rfl⟩
  · intro b
    show b.make.storage.Sound
    unfold BndgId.make
    split <;> trivial
  · intro b
    show b.make.preferred.Sound
    unfold BndgId.make
    split <;> trivial


/-! ## What initializers pass on -/

/-- A symbol refers to what it has referred to, or to another binding for a value. -/
def SameReference (b b' : BndgId) : Prop := b' = b ∨ b.mode = .value ∧ b'.mode = .value

theorem SameReference.trans {b b' b'' : BndgId} (h : SameReference b b')
    (h' : SameReference b' b'') : SameReference b b'' := by
  rcases h with rfl | h
  · exact h'
  · rcases h' with rfl | h'
    · exact .inr h
    · exact .inr ⟨h.1, h'.2⟩

/-- Places are the same, and what is preferred now is sound. -/
structure Tuned (st st' : Store) : Prop where
  storage : ∀ b, (st'.bndg b).storage = (st.bndg b).storage
  size : ∀ b, (st'.bndg b).size = (st.bndg b).size
  preferred : ∀ b, (st'.bndg b).preferred = (st.bndg b).preferred ∨ (st'.bndg b).preferred.Sound
  frameSize : st'.frameSize = st.frameSize
  reference : ∀ m, SameReference (st.symbolReference m) (st'.symbolReference m)

namespace Tuned

theorem refl (st : Store) : Tuned st st :=
  ⟨fun _ => rfl, fun _ => rfl, fun _ => .inl rfl, rfl, fun _ => .inl rfl⟩

theorem of_fields (hb : st'.bndg = st.bndg) (hf : st'.frameSize = st.frameSize)
    (hr : st'.symbolReference = st.symbolReference) : Tuned st st' where
  storage _ := by rw [hb]
  size _ := by rw [hb]
  preferred _ := .inl (by rw [hb])
  frameSize := hf
  reference _ := .inl (by rw [hr])

theorem trans (h : Tuned st st') (h' : Tuned st' st'') : Tuned st st'' where
  storage b := (h'.storage b).trans (h.storage b)
  size b := (h'.size b).trans (h.size b)
  preferred b := by
    rcases h'.preferred b with hb | hb
    · rw [hb]
      exact h.preferred b
    · exact .inr hb
  frameSize := h'.frameSize.trans h.frameSize
  reference m := (h.reference m).trans (h'.reference m)

theorem sound (h : Tuned st st') (hs : SoundStore st) : SoundStore st' where
  storage b := h.storage b ▸ hs.storage b
  preferred b := by
    rcases h.preferred b with hb | hb
    · exact hb ▸ hs.preferred b
    · exact hb
  frameSize n := h.frameSize ▸ hs.frameSize n

theorem modify {f : BndgAug → BndgAug} (hf : ∀ x, (f x).storage = x.storage ∧
      (f x).size = x.size ∧ ((f x).preferred = x.preferred ∨ (f x).preferred.Sound))
    (b : BndgId) (st : Store) : Tuned st (st.modify b f) := by
  have hcases : ∀ b', (st.modify b f).bndg b' = st.bndg b' ∨
      (st.modify b f).bndg b' = f (st.bndg b') := by
    intro b'
    by_cases hb : b' = b
    · rw [hb]
      exact .inr (bndg_modify ..)
    · exact .inl (bndg_modify_of_ne hb ..)
  refine ⟨fun b' => ?_, fun b' => ?_, fun b' => ?_, rfl, fun _ => .inl rfl⟩
  · rcases hcases b' with heq | heq <;> rw [heq]
    exact (hf _).1
  · rcases hcases b' with heq | heq <;> rw [heq]
    exact (hf _).2.1
  · rcases hcases b' with heq | heq <;> rw [heq]
    · exact .inl rfl
    · exact (hf _).2.2

theorem setPreferred {storage : Storage} (h : storage.Sound) (b : BndgId) (st : Store) :
    Tuned st (st.modify b (L2.SelfHost.setPreferred storage)) :=
  modify (f := L2.SelfHost.setPreferred storage) (fun _ => ⟨rfl, rfl, .inr h⟩) b st

theorem setIsCondition (b : BndgId) (st : Store) :
    Tuned st (st.modify b L2.SelfHost.setIsCondition) :=
  modify (f := L2.SelfHost.setIsCondition) (fun _ => ⟨rfl, rfl, .inl rfl⟩) b st

theorem setBindingAug (n : NodeId) (b : BndgId) (st : Store) : Tuned st (st.setBindingAug n b) :=
  of_fields rfl rfl rfl

theorem setParameters (n : NodeId) (bs : List BndgId) (st : Store) :
    Tuned st (st.setParameters n bs) := of_fields rfl rfl rfl

end Tuned

theorem sound_callRegs : ∀ reg ∈ callRegs, (Storage.register reg).Sound := by
  have hcall : callRegs = ([7, 6, 2, 1, 8, 9] : List Reg).map fun i : Reg => reg64 i.val := by
    decide
  have hfree : ∀ i ∈ ([7, 6, 2, 1, 8, 9] : List Reg), i ∉ stackRegisters := by decide
  intro reg hreg
  rw [hcall] at hreg
  obtain ⟨i, hi, rfl⟩ := List.mem_map.mp hreg
  exact sound_register (hfree i hi)

theorem tuned_setPrefs {regs : List Register}
    (hregs : ∀ reg ∈ regs, (Storage.register reg).Sound) (bs : List BndgId) (st : Store) :
    Tuned st (setPrefs st bs regs) := by
  induction bs generalizing regs st with
  | nil => exact Tuned.refl st
  | cons b bs ih =>
    cases regs with
    | nil => exact Tuned.refl st
    | cons reg regs =>
      obtain ⟨hreg, hregs⟩ := List.forall_mem_cons.mp hregs
      exact (Tuned.setPreferred hreg b st).trans (ih hregs _)

theorem tuned_assignParams {offset : Word} (ho : OnWord offset) (bs : List BndgId) (st : Store) :
    Tuned st (assignParams st offset bs) := by
  induction bs generalizing offset st with
  | nil => exact Tuned.refl st
  | cons b bs ih =>
    have hsound : (Storage.frameRelative offset).Sound := ho
    have hb := Tuned.setPreferred hsound b st
    exact hb.trans (ih (ho.add (onWord_words 1)) _)

theorem tuned_setBindingAugs (us : List Code) (bs : List BndgId) (st : Store) :
    Tuned st (setBindingAugs st us bs) := by
  rw [setBindingAugs_same]
  exact Tuned.of_fields rfl rfl rfl

theorem tuned_coalesceExprBndg (u : Code) (st : Store) : Tuned st (coalesceExprBndg st u) := by
  rw [coalesceExprBndg_same]
  exact Tuned.of_fields rfl rfl rfl

theorem tuned_assignConditionJump (st : Store) (n : Code) :
    Tuned st (assignConditionJump st n) := by
  unfold assignConditionJump
  split
  · next code _ =>
    exact Tuned.modify (f := setConditionJump code) (fun _ => ⟨rfl, rfl, .inl rfl⟩) _ st
  · exact Tuned.refl st

theorem tuned_genConds (conds : List Code) (st : Store) (c : Code) :
    Tuned st (genConds conds st c).1 := by
  fun_induction genConds conds st c with
  | case1 conds st n condition consequent alternate _ ih =>
    exact (Tuned.setIsCondition _ st).trans ih
  | case2 conds st n condition consequent alternate _ _ ih =>
    exact (Tuned.setIsCondition _ st).trans ih
  | case3 conds st n condition consequent alternate _ _ => exact Tuned.setIsCondition _ st
  | case4 conds st c _ => exact Tuned.setIsCondition _ st

theorem tuned_vreplaceValueBindings {replTarget replacement : BndgId}
    (ht : replTarget.mode = .value) (hr : replacement.mode = .value) (st : Store) (w : Code) :
    Tuned st (vreplaceValueBindings replTarget replacement st w) := by
  have hfirst : Tuned st
      (if st.aug w = replTarget then st.setBindingAug w.id replacement else st) := by
    split
    · exact Tuned.setBindingAug _ _ st
    · exact Tuned.refl st
  unfold vreplaceValueBindings
  generalize (if st.aug w = replTarget then st.setBindingAug w.id replacement else st) = st₁ at *
  cases w with
  | continuation _ _ _ _ | withExpr _ _ _ | function _ _ _ _ =>
    exact hfirst.trans (Tuned.setParameters _ _ st₁)
  | symbol m binding =>
    apply hfirst.trans
    dsimp only
    split
    · next heq =>
      refine ⟨fun _ => rfl, fun _ => rfl, fun _ => .inl rfl, rfl, ?_⟩
      intro k
      show SameReference _ (Function.update st₁.symbolReference m replacement k)
      by_cases hk : k = m
      · rw [hk, Function.update_self]
        exact .inr ⟨heq ▸ ht, hr⟩
      · rw [Function.update_of_ne hk]
        exact .inl rfl
    · exact Tuned.refl st₁
  | literal _ _ | storage _ _ _ | invoke _ _ _ | jump _ _ _ | ifExpr _ _ _ _ | constrain _ _ =>
    exact hfirst

theorem tuned_replaceValueBindings {replTarget replacement : BndgId}
    (ht : replTarget.mode = .value) (hr : replacement.mode = .value) (st : Store) (e : Code) :
    Tuned st (replaceValueBindings replTarget replacement st e) := by
  unfold replaceValueBindings
  generalize e.nodes = l
  induction l generalizing st with
  | nil => exact Tuned.refl st
  | cons w l ih => exact (tuned_vreplaceValueBindings ht hr st w).trans (ih _)

theorem Scoped.mode_parameter (hs : Scoped p st) (hn : n ∈ p.nodes)
    (hb : b ∈ st.parameters n.id) : b.mode = .value := by
  rcases hs.parameters n hn b hb with h | h
  · obtain ⟨_, _, hmode, _⟩ := Code.mem_parameters h
    exact hmode
  · exact h.1

theorem tuned_initializeWith (hp : p.WellFormed) {k : NodeId} {ref : Option Scope.Name}
    {body : Code} {call : InitCall} (hr : Ready p e (.withExpr k ref body) st)
    (h : initializeWith p st k body = some call) : Tuned st call.store := by
  have hscoped := (callOk_withParameter hp hr).step.inv hr.inv
  have hfirst : Tuned st (withParameter p (withBody st k body) k) := by
    rw [(withParameter_same p (withBody st k body) k).1]
    exact Tuned.of_fields rfl rfl rfl
  unfold initializeWith at h
  simp only [Option.bind_eq_bind] at h
  obtain ⟨st₃, h₃, hcall⟩ := Option.bind_eq_some_iff.mp h
  cases hcall
  rcases searchJumps_cases h₃ with rfl | ⟨_, _, _, _, _, hmode, _, _, param, hparam, rfl⟩
  · exact hfirst
  · have hvalue : param.mode = .value :=
      Scoped.mode_parameter (n := .withExpr k ref body) hscoped hr.mem_nodes hparam
    exact hfirst.trans (tuned_replaceValueBindings hmode hvalue _ _)

theorem tuned_initializeJump {k : NodeId} {target : Code} {arguments : List Code}
    {call : InitCall} (h : initializeJump p st k target arguments = some call) :
    Tuned st call.store := by
  unfold initializeJump at h
  split at h
  · cases h
    exact tuned_setBindingAugs _ _ st
  · split at h
    · obtain ⟨arg, -, rfl⟩ := Option.map_eq_some_iff.mp h
      exact Tuned.setBindingAug _ _ st
    · cases h
      exact Tuned.refl st

theorem tuned_initializeIntrinsic {g : Generator} {arguments : List Code} {call : InitCall}
    (h : initializeIntrinsic st n g arguments = some call) : Tuned st call.store := by
  have hrax : (Storage.register rax).Sound := sound_register (i := 0) (by decide)
  have hrcx : (Storage.register rcx).Sound := sound_register (i := 1) (by decide)
  unfold initializeIntrinsic at h
  split at h
  · split at h
    · obtain ⟨base, -, rfl⟩ := Option.map_eq_some_iff.mp h
      exact tuned_coalesceExprBndg _ st
    · cases h
      exact tuned_coalesceExprBndg _ st
    · cases h
  · split at h
    · obtain ⟨base, -, rfl⟩ := Option.map_eq_some_iff.mp h
      exact (tuned_coalesceExprBndg _ st).trans (tuned_coalesceExprBndg _ _)
    · cases h
      exact (tuned_assignConditionJump st n).trans (tuned_coalesceExprBndg _ _)
    · cases h
      unfold initializeBinaryOperator
      dsimp only
      split
      · exact Tuned.setPreferred hrax _ st
      · split
        · exact Tuned.setPreferred hrax _ st
        · split
          · exact Tuned.setPreferred hrcx _ st
          · exact ((tuned_assignConditionJump st n).trans (tuned_coalesceExprBndg _ _)).trans
              (tuned_coalesceExprBndg _ _)
    · cases h
  · cases h

theorem tuned_callOf (hp : p.WellFormed) {g : ExprGenerator} {call : InitCall}
    (hr : Ready p e n st) (h : callOf p inits st n = some (g, call)) : Tuned st call.store := by
  cases n with
  | function k ref ps body =>
    cases h
    exact ((tuned_setPrefs sound_callRegs _ st).trans
      (tuned_assignParams (onWord_words 2) _ _)).trans
        (Tuned.setPreferred (sound_register (i := 0) (by decide)) _ _)
  | continuation k ref ps body =>
    cases h
    exact Tuned.refl st
  | withExpr k ref body =>
    obtain ⟨call, hcall, heq⟩ := Option.map_eq_some_iff.mp h
    cases heq
    exact tuned_initializeWith hp hr hcall
  | storage k ref arguments =>
    cases h
    exact Tuned.refl st
  | jump k target arguments =>
    obtain ⟨call, hcall, heq⟩ := Option.map_eq_some_iff.mp h
    cases heq
    exact tuned_initializeJump hcall
  | invoke k target arguments =>
    unfold callOf at h
    dsimp only at h
    split at h
    · obtain ⟨call, hcall, heq⟩ := Option.map_eq_some_iff.mp h
      cases heq
      exact tuned_initializeIntrinsic hcall
    · cases h
      exact tuned_setPrefs sound_callRegs _ st
  | ifExpr k condition consequent alternate =>
    cases h
    exact ((tuned_genConds [] st condition).trans (Tuned.setBindingAug _ _ _)).trans
      (Tuned.setBindingAug _ _ _)
  | constrain k body =>
    cases h
    exact Tuned.setBindingAug _ _ st
  | symbol _ _ | literal _ _ => cases h

end L2.SelfHost
