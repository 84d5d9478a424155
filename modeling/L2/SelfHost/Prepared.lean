import L2.SelfHost.Runs

/-!
# What the passes before leave

The passes before locations are assigned only change bindings and the sizes of frames.
What they do to the bindings is a matter of a few functions, so a relation that each of
these keeps to holds between the bindings before and after.
-/

namespace L2.SelfHost

open X86 (Word)
open Graph

variable {p : Program} {e n m u v w c : Code} {b : BndgId} {st st' st'' : Store}

/-! ## Relations between bindings -/

/-- The bindings are related, and nothing else but sizes of frames is different. -/
structure Passed (R : BndgAug → BndgAug → Prop) (st st' : Store) : Prop where
  names : st' = { st with bndg := st'.bndg, frameSize := st'.frameSize }
  bndg : ∀ b, R (st.bndg b) (st'.bndg b)

section

variable {R : BndgAug → BndgAug → Prop}

theorem Passed.refl (hrefl : ∀ x, R x x) (st : Store) : Passed R st st := ⟨rfl, fun _ => hrefl _⟩

theorem Passed.trans (htrans : ∀ x y z, R x y → R y z → R x z) (h : Passed R st st')
    (h' : Passed R st' st'') : Passed R st st'' := by
  refine ⟨?_, fun b => htrans _ _ _ (h.bndg b) (h'.bndg b)⟩
  rw [h'.names, h.names]

theorem passed_modify (hrefl : ∀ x, R x x) {f : BndgAug → BndgAug} (hf : ∀ x, R x (f x))
    (st : Store) (b : BndgId) : Passed R st (st.modify b f) := by
  refine ⟨rfl, ?_⟩
  intro b'
  by_cases hb : b' = b
  · rw [hb, bndg_modify]
    exact hf _
  · rw [bndg_modify_of_ne hb]
    exact hrefl _

theorem passed_frameSize (hrefl : ∀ x, R x x) (st : Store) (f : NodeId → Word) :
    Passed R st { st with frameSize := f } := ⟨rfl, fun _ => hrefl _⟩

variable (hrefl : ∀ x, R x x) (htrans : ∀ x y z, R x y → R y z → R x z)

include hrefl htrans

theorem passed_modifyAll {f : BndgAug → BndgAug} (hf : ∀ x, R x (f x)) (bs : List BndgId)
    (st : Store) : Passed R st (st.modifyAll bs f) := by
  induction bs generalizing st with
  | nil => exact Passed.refl hrefl st
  | cons b bs ih => exact (passed_modify hrefl hf st b).trans htrans (ih _)

mutual

theorem passed_classify (hcontext : ∀ context x, R x (setContext context x)) :
    ∀ (e : Code) (st : Store), Passed R st (classifyProgramBindings st e)
  | .literal _ _, st | .symbol _ _, st | .function _ _ _ _, st =>
    passed_modify hrefl (hcontext _) st _
  | .constrain _ e, st =>
    (passed_modify hrefl (hcontext _) st _).trans htrans (passed_classify hcontext e _)
  | .storage _ _ arguments, st =>
    ((passed_modify hrefl (hcontext _) st _).trans htrans
      (passed_modify hrefl (hcontext _) _ _)).trans htrans
        (passed_classifyArguments hcontext arguments _)
  | .invoke _ target arguments, st | .jump _ target arguments, st =>
    ((passed_modify hrefl (hcontext _) st _).trans htrans
      (passed_classify hcontext target _)).trans htrans
        (passed_classifyArguments hcontext arguments _)
  | .continuation _ _ _ e, st =>
    (((passed_modify hrefl (hcontext _) st _).trans htrans
      (passed_modify hrefl (hcontext _) _ _)).trans htrans
        (passed_modifyAll hrefl htrans (hcontext _) _ _)).trans htrans
          (passed_classify hcontext e _)
  | .withExpr _ _ e, st =>
    (((passed_modify hrefl (hcontext _) st _).trans htrans
      (passed_modify hrefl (hcontext _) _ _)).trans htrans
        (passed_modifyAll hrefl htrans (hcontext _) _ _)).trans htrans
          (passed_classify hcontext e _)
  | .ifExpr _ condition consequent alternate, st =>
    (((passed_modify hrefl (hcontext _) st _).trans htrans
      (passed_classify hcontext condition _)).trans htrans
        (passed_classify hcontext consequent _)).trans htrans
          (passed_classify hcontext alternate _)

theorem passed_classifyArguments (hcontext : ∀ context x, R x (setContext context x)) :
    ∀ (es : List Code) (st : Store), Passed R st (classifyArguments st es)
  | [], st => Passed.refl hrefl st
  | t :: arguments, st =>
    (passed_classify hcontext t st).trans htrans (passed_classifyArguments hcontext arguments _)

end

section

variable (hread : ∀ val x, R x (setIsRead val x))

include hread

mutual

theorem passed_assignExprIsReads : ∀ (e : Code) (st : Store), Passed R st (assignExprIsReads st e)
  | .literal _ _, st => Passed.refl hrefl st
  | .symbol _ _, st => passed_modify hrefl (hread _) st _
  | .ifExpr _ cond consq alte, st =>
    (((((passed_assignExprIsReads cond st).trans htrans
      (passed_modify hrefl (hread _) _ _)).trans htrans (passed_assignExprIsReads consq _)).trans
        htrans (passed_modify hrefl (hread _) _ _)).trans htrans
          (passed_assignExprIsReads alte _)).trans htrans (passed_modify hrefl (hread _) _ _)
  | .constrain _ body, st =>
    (passed_assignExprIsReads body st).trans htrans (passed_modify hrefl (hread _) _ _)
  | .function _ _ _ body, st =>
    ((passed_modify hrefl (hread _) st _).trans htrans
      (passed_assignExprIsReads body _)).trans htrans (passed_modify hrefl (hread _) _ _)
  | .withExpr _ _ body, st =>
    (((passed_modify hrefl (hread _) st _).trans htrans
      (passed_modifyAll hrefl htrans (hread _) _ _)).trans htrans
        (passed_assignExprIsReads body _)).trans htrans (passed_modify hrefl (hread _) _ _)
  | .continuation _ _ _ body, st =>
    (((passed_modifyAll hrefl htrans (hread _) _ st).trans htrans
      (passed_modify hrefl (hread _) _ _)).trans htrans
        (passed_assignExprIsReads body _)).trans htrans (passed_modify hrefl (hread _) _ _)
  | .storage _ _ args, st =>
    (passed_modify hrefl (hread _) st _).trans htrans (passed_assignArgumentReads args _)
  | .jump _ target args, st | .invoke _ target args, st =>
    ((passed_assignExprIsReads target st).trans htrans
      (passed_modify hrefl (hread _) _ _)).trans htrans (passed_assignArgumentReads args _)

theorem passed_assignArgumentReads : ∀ (es : List Code) (st : Store),
    Passed R st (assignArgumentReads st es)
  | [], st => Passed.refl hrefl st
  | u :: args, st =>
    ((passed_assignExprIsReads u st).trans htrans
      (passed_modify hrefl (hread _) _ _)).trans htrans (passed_assignArgumentReads args _)

end

end

theorem passed_preferWords (hprefer : ∀ offset x, R x (preferMemory offset x))
    (bs : List BndgId) (offset : Word) (st : Store) :
    Passed R st (preferWords st offset bs) := by
  induction bs generalizing offset st with
  | nil => exact Passed.refl hrefl st
  | cons b bs ih => exact (passed_modify hrefl (hprefer _) st b).trans htrans (ih _ _)

theorem passed_placeContinuation (hprefer : ∀ offset x, R x (preferMemory offset x))
    (hplace : ∀ size offset x, R x (placeAt size offset x)) (escapes : NodeId → Bool)
    (offset : Word) (st : Store) (n : NodeId) (b : BndgId) :
    Passed R st (placeContinuation escapes offset st n b).2 := by
  unfold placeContinuation
  split
  · exact (passed_preferWords hrefl htrans hprefer _ _ _).trans htrans
      (passed_modify hrefl (hplace _ _) _ _)
  · exact passed_modify hrefl (hplace _ _) _ _

mutual

theorem passed_placePermBindings (hprefer : ∀ offset x, R x (preferMemory offset x))
    (hplace : ∀ size offset x, R x (placeAt size offset x)) (escapes : NodeId → Bool) :
    ∀ (e : Code) (offset : Word) (st : Store),
    Passed R st (placePermBindings escapes offset st e).2
  | .literal _ _, _, st => Passed.refl hrefl st
  | .symbol _ _, _, st => Passed.refl hrefl st
  | .function _ _ _ e, _, st =>
    (passed_placePermBindings hprefer hplace escapes e (-words calleeSavedLen) st).trans htrans
      (passed_frameSize hrefl _ _)
  | .constrain _ e, offset, st => passed_placePermBindings hprefer hplace escapes e offset st
  | .invoke _ target arguments, offset, st | .jump _ target arguments, offset, st =>
    (passed_placePermBindings hprefer hplace escapes target offset st).trans htrans
      (passed_placeArguments hprefer hplace escapes arguments _ _)
  | .ifExpr _ condition consequent alternate, offset, st =>
    ((passed_placePermBindings hprefer hplace escapes condition offset st).trans htrans
      (passed_placePermBindings hprefer hplace escapes consequent _ _)).trans htrans
        (passed_placePermBindings hprefer hplace escapes alternate _ _)
  | .continuation n _ _ e, offset, st =>
    (passed_placeContinuation hrefl htrans hprefer hplace escapes offset st n _).trans htrans
      (passed_placePermBindings hprefer hplace escapes e _ _)
  | .withExpr n _ e, offset, st =>
    (passed_placeContinuation hrefl htrans hprefer hplace escapes offset st n _).trans htrans
      (passed_placePermBindings hprefer hplace escapes e _ _)
  | .storage _ _ arguments, _, st =>
    ((passed_modify hrefl (hplace _ _) st _).trans htrans
      (passed_preferWords hrefl htrans hprefer _ _ _)).trans htrans
        (passed_placeArguments hprefer hplace escapes arguments _ _)

theorem passed_placeArguments (hprefer : ∀ offset x, R x (preferMemory offset x))
    (hplace : ∀ size offset x, R x (placeAt size offset x)) (escapes : NodeId → Bool) :
    ∀ (es : List Code) (offset : Word) (st : Store),
    Passed R st (placeArguments escapes offset st es).2
  | [], _, st => Passed.refl hrefl st
  | u :: arguments, offset, st =>
    (passed_placePermBindings hprefer hplace escapes u offset st).trans htrans
      (passed_placeArguments hprefer hplace escapes arguments _ _)

end

end

section

variable {R : BndgAug → BndgAug → Prop} (hrefl : ∀ x, R x x)
  (htrans : ∀ x y z, R x y → R y z → R x z)
  (hcontext : ∀ context x, R x (setContext context x)) (hread : ∀ val x, R x (setIsRead val x))
  (hprefer : ∀ offset x, R x (preferMemory offset x))
  (hplace : ∀ size offset x, R x (placeAt size offset x))

include hrefl htrans hcontext hread hprefer hplace

theorem passed_prepare (p : Program) (es : List Code) (offset : Word) (st : Store) :
    Passed R st (prepare p offset st es).2 := by
  induction es generalizing offset st with
  | nil => exact Passed.refl hrefl st
  | cons e es ih =>
    exact (((passed_classify hrefl htrans hcontext e st).trans htrans
      (passed_assignExprIsReads hrefl htrans hread e _)).trans htrans
        (passed_placePermBindings hrefl htrans hprefer hplace p.escapes e offset _)).trans htrans
          (ih _ _)

end

/-! ## Preferences and places -/

/-- No register is preferred. -/
def PrefersMemory (x : BndgAug) : Prop := ∀ reg, x.preferred ≠ .register reg

/-- Before locations are assigned, no binding prefers a register. -/
theorem prepare_preferred (p : Program) (es : List Code) (offset : Word) (st : Store)
    (h : ∀ b, PrefersMemory (st.bndg b)) (b : BndgId) :
    PrefersMemory ((prepare p offset st es).2.bndg b) := by
  have hpassed := passed_prepare (R := fun x y => PrefersMemory x → PrefersMemory y)
    (fun _ h => h) (fun _ _ _ h h' hx => h' (h hx)) (fun _ _ h => h) (fun _ _ h => h)
    (fun offset x _ reg => memoryStorage_ne_register x.context offset reg) (fun _ _ _ h => h)
    p es offset st
  exact hpassed.bndg b (h b)

/-- What has a place keeps one. -/
def KeepsPlace (x y : BndgAug) : Prop := x.storage ≠ .nil → y.storage ≠ .nil

theorem keepsPlace_refl (x : BndgAug) : KeepsPlace x x := id

theorem keepsPlace_trans (x y z : BndgAug) (h : KeepsPlace x y) (h' : KeepsPlace y z) :
    KeepsPlace x z := fun hx => h' (h hx)

theorem keepsPlace_place (size : Nat) (offset : Word) (x : BndgAug) :
    KeepsPlace x (placeAt size offset x) := fun _ => memoryStorage_ne_nil x.context offset

/-- The storage expressions, the continuations and the `with` expressions. -/
def Code.isPlaced : Code → Bool
  | .storage _ _ _ | .continuation _ _ _ _ | .withExpr _ _ _ => true
  | _ => false

/-- Everything in the list that has a place of its own has got it. -/
def AllPlaced (ns : List Code) (st : Store) : Prop :=
  ∀ n ∈ ns, n.isPlaced = true → (st.bndg n.reference).storage ≠ .nil

theorem AllPlaced.passed {ns : List Code} (h : AllPlaced ns st) (hp : Passed KeepsPlace st st') :
    AllPlaced ns st' := fun n hn hplaced => hp.bndg _ (h n hn hplaced)

theorem AllPlaced.append {ns ns' : List Code} (h : AllPlaced ns st) (h' : AllPlaced ns' st) :
    AllPlaced (ns ++ ns') st := by
  intro n hn hplaced
  rcases List.mem_append.mp hn with hn | hn
  · exact h n hn hplaced
  · exact h' n hn hplaced

theorem allPlaced_singleton (h : (st.bndg n.reference).storage ≠ .nil) : AllPlaced [n] st := by
  intro m hm _
  rw [List.mem_singleton.mp hm]
  exact h

theorem allPlaced_of_not (h : n.isPlaced = false) : AllPlaced [n] st := by
  intro m hm hplaced
  rw [List.mem_singleton.mp hm, h] at hplaced
  cases hplaced

section

variable (escapes : NodeId → Bool)

theorem keepsPlace_pass (e : Code) (offset : Word) (st : Store) :
    Passed KeepsPlace st (placePermBindings escapes offset st e).2 :=
  passed_placePermBindings keepsPlace_refl keepsPlace_trans (fun _ _ => id) keepsPlace_place
    escapes e offset st

theorem keepsPlace_arguments (es : List Code) (offset : Word) (st : Store) :
    Passed KeepsPlace st (placeArguments escapes offset st es).2 :=
  passed_placeArguments keepsPlace_refl keepsPlace_trans (fun _ _ => id) keepsPlace_place
    escapes es offset st

theorem placed_placeAt (b : BndgId) (size : Nat) (offset : Word) (st : Store) :
    ((st.modify b (placeAt size offset)).bndg b).storage ≠ .nil := by
  rw [bndg_modify]
  exact memoryStorage_ne_nil _ _

theorem placed_placeContinuation (offset : Word) (st : Store) (n : NodeId) (b : BndgId) :
    (((placeContinuation escapes offset st n b).2).bndg b).storage ≠ .nil := by
  unfold placeContinuation
  split
  · exact placed_placeAt b contSize _ _
  · exact placed_placeAt b 0 offset st

mutual

theorem allPlaced_placePermBindings : ∀ (e : Code) (offset : Word) (st : Store),
    AllPlaced e.nodes (placePermBindings escapes offset st e).2
  | .literal _ _, _, _ => allPlaced_of_not rfl
  | .symbol _ _, _, _ => allPlaced_of_not rfl
  | .function _ _ _ e, _, st => by
    apply AllPlaced.append _ (allPlaced_of_not rfl)
    exact (allPlaced_placePermBindings e _ st).passed (passed_frameSize keepsPlace_refl _ _)
  | .constrain _ e, offset, st =>
    (allPlaced_placePermBindings e offset st).append (allPlaced_of_not rfl)
  | .invoke _ target arguments, offset, st | .jump _ target arguments, offset, st => by
    apply AllPlaced.append _ (allPlaced_of_not rfl)
    apply AllPlaced.append _ (allPlaced_placeArguments arguments _ _)
    exact (allPlaced_placePermBindings target offset st).passed
      (keepsPlace_arguments escapes arguments _ _)
  | .ifExpr _ condition consequent alternate, offset, st => by
    apply AllPlaced.append _ (allPlaced_of_not rfl)
    apply AllPlaced.append _ (allPlaced_placePermBindings alternate _ _)
    apply AllPlaced.append _ ((allPlaced_placePermBindings consequent _ _).passed
      (keepsPlace_pass escapes alternate _ _))
    exact ((allPlaced_placePermBindings condition offset st).passed
      (keepsPlace_pass escapes consequent _ _)).passed (keepsPlace_pass escapes alternate _ _)
  | .continuation n reference parameters e, offset, st => by
    apply AllPlaced.append (allPlaced_placePermBindings e _ _)
    exact (allPlaced_singleton (n := .continuation n reference parameters e)
      (placed_placeContinuation escapes offset st n _)).passed (keepsPlace_pass escapes e _ _)
  | .withExpr n reference e, offset, st => by
    apply AllPlaced.append (allPlaced_placePermBindings e _ _)
    exact (allPlaced_singleton (n := .withExpr n reference e)
      (placed_placeContinuation escapes offset st n _)).passed (keepsPlace_pass escapes e _ _)
  | .storage n reference arguments, offset, st => by
    apply AllPlaced.append (allPlaced_placeArguments arguments _ _)
    have hplaced := placed_placeAt (Code.storage n reference arguments).reference
      (arguments.length * wordSize) (offset - words arguments.length) st
    exact ((allPlaced_singleton (n := .storage n reference arguments) hplaced).passed
      (passed_preferWords keepsPlace_refl keepsPlace_trans (fun _ _ => id) _ _ _)).passed
        (keepsPlace_arguments escapes arguments _ _)

theorem allPlaced_placeArguments : ∀ (es : List Code) (offset : Word) (st : Store),
    AllPlaced (Code.nodesOf es) (placeArguments escapes offset st es).2
  | [], _, _ => fun _ hn => absurd hn List.not_mem_nil
  | u :: arguments, offset, st => by
    apply AllPlaced.append _ (allPlaced_placeArguments arguments _ _)
    exact (allPlaced_placePermBindings u offset st).passed (keepsPlace_arguments escapes _ _ _)

end

end

theorem keepsPlace_prepare (p : Program) (es : List Code) (offset : Word) (st : Store) :
    Passed KeepsPlace st (prepare p offset st es).2 :=
  passed_prepare keepsPlace_refl keepsPlace_trans (fun _ _ => id) (fun _ _ => id) (fun _ _ => id)
    keepsPlace_place p es offset st

theorem allPlaced_prepare (p : Program) (es : List Code) (offset : Word) (st : Store) :
    AllPlaced (Forest.nodesOf es) (prepare p offset st es).2 := by
  induction es generalizing offset st with
  | nil => exact fun _ hn => absurd hn List.not_mem_nil
  | cons e es ih =>
    rw [Forest.nodesOf_cons]
    exact ((allPlaced_placePermBindings p.escapes e _ _).passed
      (keepsPlace_prepare p es _ _)).append (ih _ _)

/-- Before locations are assigned, every construct has its place. -/
theorem prepare_construct (hw : w ∈ p.nodes) (hc : w.isConstruct = true)
    (offset : Word) :
    ((prepare p offset (Store.initial p) p.exprs).2.bndg w.reference).storage ≠ .nil := by
  cases w with
  | function n reference parameters e =>
    apply (keepsPlace_prepare p p.exprs offset (Store.initial p)).bndg
    exact nofun
  | storage _ _ _ | continuation _ _ _ _ | withExpr _ _ _ =>
    exact allPlaced_prepare p p.exprs offset (Store.initial p) _ hw rfl
  | literal _ _ | symbol _ _ | invoke _ _ _ | jump _ _ _ | ifExpr _ _ _ _ | constrain _ _ =>
    cases hc

/-- And so has everything that a symbol refers to, a name without definition included. -/
theorem prepare_symbol (hp : p.WellFormed) {binding : Scope.Binding} {k : NodeId}
    (hm : .symbol k binding ∈ p.nodes) (hmode : (BndgId.named binding).mode = .reference)
    (offset : Word) :
    ((prepare p offset (Store.initial p) p.exprs).2.bndg (.named binding)).storage ≠ .nil := by
  rcases hp.references k binding hm hmode with ⟨name, rfl⟩ | ⟨w, hw, hc, heq⟩
  · apply (keepsPlace_prepare p p.exprs offset (Store.initial p)).bndg
    exact nofun
  · rw [← heq]
    exact prepare_construct hw hc offset

end L2.SelfHost
