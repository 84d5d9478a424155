import L2.SelfHost.Regions

/-!
# What an initializer may change

An initializer changes the fields of the expressions at and below its own, and bindings
that may be used there.  It never changes whether a binding is read, nor its context.
`Step` has this together with the invariant that every expression only has bindings that
it may use.
-/

namespace L2.SelfHost

open Scope (Binding)
open Graph

/-- Every expression has bindings that it may use, and a construct its own parameters or
bindings that it may use in their place. -/
structure Scoped (p : Program) (st : Store) : Prop where
  aug : ∀ n ∈ p.nodes, p.Usable (st.aug n) n
  reference : ∀ n b, Code.symbol n b ∈ p.nodes → (st.symbolReference n).mode = .value →
    p.Usable (st.symbolReference n) (.symbol n b)
  arity : ∀ w ∈ p.nodes, (st.parameters w.id).length = w.parameters.length
  parameters : ∀ w ∈ p.nodes, ∀ b ∈ st.parameters w.id, b ∈ w.parameters ∨ p.Usable b w

/-- The fields of the expression `v` that change. -/
def Store.fields (st : Store) (v : NodeId) :
    BndgId × BndgId × List BndgId × Option ExprGenerator × X86.Word × RegUseVec :=
  (st.bindingAug v, st.symbolReference v, st.parameters v, st.generator v, st.frameSize v,
    st.registersUsed v)

/-- What is the same after the initializer of `n`. -/
structure Frame (p : Program) (n : Code) (st st' : Store) : Prop where
  fields : ∀ v, (∀ c ∈ n.nodes, c.id ≠ v) → st'.fields v = st.fields v
  depth : st'.depth = st.depth
  isRead : ∀ b, (st'.bndg b).isRead = (st.bndg b).isRead
  context : ∀ b, (st'.bndg b).context = (st.bndg b).context
  bndg : ∀ b, (∀ c ∈ n.nodes, ¬ p.Usable b c) → st'.bndg b = st.bndg b

theorem Frame.refl (p : Program) (n : Code) (st : Store) : Frame p n st st :=
  ⟨fun _ _ => rfl, rfl, fun _ => rfl, fun _ => rfl, fun _ _ => rfl⟩

variable {p : Program} {n v w : Code} {b : BndgId} {st st' st'' : Store}

theorem Frame.trans (h : Frame p n st st') (h' : Frame p n st' st'') : Frame p n st st'' where
  fields v hv := (h'.fields v hv).trans (h.fields v hv)
  depth := h'.depth.trans h.depth
  isRead b := (h'.isRead b).trans (h.isRead b)
  context b := (h'.context b).trans (h.context b)
  bndg b hb := (h'.bndg b hb).trans (h.bndg b hb)

theorem Frame.mono (h : Frame p v st st') (hv : v ∈ n.nodes) : Frame p n st st' where
  fields x hx := h.fields x fun c hc => hx c (Forest.nodes_subset hv hc)
  depth := h.depth
  isRead := h.isRead
  context := h.context
  bndg b hb := h.bndg b fun c hc => hb c (Forest.nodes_subset hv hc)

/-- A change that keeps the invariant and what is outside of `n`. -/
structure Step (p : Program) (n : Code) (st st' : Store) : Prop where
  frame : Frame p n st st'
  inv : Scoped p st → Scoped p st'

theorem Step.refl (p : Program) (n : Code) (st : Store) : Step p n st st :=
  ⟨Frame.refl p n st, id⟩

theorem Step.trans (h : Step p n st st') (h' : Step p n st' st'') : Step p n st st'' :=
  ⟨h.frame.trans h'.frame, fun hs => h'.inv (h.inv hs)⟩

theorem Step.mono (h : Step p v st st') (hv : v ∈ n.nodes) : Step p n st st' :=
  ⟨h.frame.mono hv, h.inv⟩

/-! ## The changes of bindings -/

/-- A change that concerns neither who reads the binding nor its context. -/
def Keeps (f : BndgAug → BndgAug) : Prop :=
  ∀ x, (f x).isRead = x.isRead ∧ (f x).context = x.context

theorem Step.of_fields (h : ∀ b, (st'.bndg b).isRead = (st.bndg b).isRead ∧
    (st'.bndg b).context = (st.bndg b).context) (hf : st' = { st with bndg := st'.bndg })
    (hb : ∀ b, (∀ c ∈ n.nodes, ¬ p.Usable b c) → st'.bndg b = st.bndg b) : Step p n st st' := by
  rw [hf]
  refine ⟨⟨fun _ _ => rfl, rfl, fun b => (h b).1, fun b => (h b).2, hb⟩, ?_⟩
  intro hs
  exact ⟨hs.aug, hs.reference, hs.arity, hs.parameters⟩

theorem Step.modify {f : BndgAug → BndgAug} (hf : Keeps f) (hc : v ∈ n.nodes)
    (hu : p.Usable b v) (st : Store) : Step p n st (st.modify b f) := by
  apply Step.of_fields
  · intro b'
    show ((Function.update st.bndg b (f (st.bndg b))) b').isRead = _ ∧
      ((Function.update st.bndg b (f (st.bndg b))) b').context = _
    by_cases h : b' = b
    · subst h
      rw [Function.update_self]
      exact hf _
    · rw [Function.update_of_ne h]
      exact ⟨rfl, rfl⟩
  · rfl
  · intro b' hb'
    have hne : b' ≠ b := by
      rintro rfl
      exact hb' v hc hu
    exact Function.update_of_ne hne _ _

theorem keeps_setSize (size : Nat) : Keeps (setSize size) := fun _ => ⟨rfl, rfl⟩

theorem keeps_setPreferred (preferred : Storage) : Keeps (setPreferred preferred) :=
  fun _ => ⟨rfl, rfl⟩

theorem keeps_setIsCondition : Keeps setIsCondition := fun _ => ⟨rfl, rfl⟩

theorem keeps_setConditionJump (code : JumpCode) : Keeps (setConditionJump code) :=
  fun _ => ⟨rfl, rfl⟩

/-! ## The changes of expressions -/

theorem Step.setGenerator (hn : v ∈ n.nodes) (g : ExprGenerator) (st : Store) :
    Step p n st (st.setGenerator v.id g) := by
  refine ⟨⟨?_, rfl, fun _ => rfl, fun _ => rfl, fun _ _ => rfl⟩, ?_⟩
  · intro x hx
    show (_, _, _, Function.update st.generator v.id (some g) x, _, _) = _
    rw [Function.update_of_ne (Ne.symm (hx v hn))]
    rfl
  · intro hs
    exact ⟨hs.aug, hs.reference, hs.arity, hs.parameters⟩

theorem Step.setBindingAug (hp : p.WellFormed) (hv : v ∈ n.nodes) (hm : v ∈ p.nodes)
    (hu : p.Usable b v) (st : Store) : Step p n st (st.setBindingAug v.id b) := by
  refine ⟨⟨?_, rfl, fun _ => rfl, fun _ => rfl, fun _ _ => rfl⟩, ?_⟩
  · intro x hx
    show (Function.update st.bindingAug v.id b x, _, _, _, _, _) = _
    rw [Function.update_of_ne (Ne.symm (hx v hv))]
    rfl
  · intro hs
    refine ⟨?_, hs.reference, hs.arity, hs.parameters⟩
    intro c hc
    show p.Usable (Function.update st.bindingAug v.id b c.id) c
    by_cases h : c.id = v.id
    · have hcv : c = v := hp.eq_of_id hc hm h
      subst hcv
      rw [Function.update_self]
      exact hu
    · rw [Function.update_of_ne h]
      exact hs.aug c hc

theorem Step.setParameters (hp : p.WellFormed) (hw : w ∈ n.nodes) (hm : w ∈ p.nodes)
    {bs : List BndgId} (hlen : bs.length = w.parameters.length)
    (hu : ∀ b ∈ bs, b ∈ w.parameters ∨ p.Usable b w) (st : Store) :
    Step p n st (st.setParameters w.id bs) := by
  refine ⟨⟨?_, rfl, fun _ => rfl, fun _ => rfl, fun _ _ => rfl⟩, ?_⟩
  · intro x hx
    show (_, _, Function.update st.parameters w.id bs x, _, _, _) = _
    rw [Function.update_of_ne (Ne.symm (hx w hw))]
    rfl
  · intro hs
    have hcases : ∀ c ∈ p.nodes, (c = w ∧ Function.update st.parameters w.id bs c.id = bs) ∨
        Function.update st.parameters w.id bs c.id = st.parameters c.id := by
      intro c hc
      by_cases h : c.id = w.id
      · rw [h, Function.update_self]
        exact Or.inl ⟨hp.eq_of_id hc hm h, rfl⟩
      · exact Or.inr (Function.update_of_ne h _ _)
    refine ⟨hs.aug, hs.reference, ?_, ?_⟩
    · intro c hc
      show (Function.update st.parameters w.id bs c.id).length = _
      rcases hcases c hc with ⟨rfl, h⟩ | h
      · rw [h]
        exact hlen
      · rw [h]
        exact hs.arity c hc
    · intro c hc b hb
      have hb : b ∈ Function.update st.parameters w.id bs c.id := hb
      rcases hcases c hc with ⟨rfl, h⟩ | h
      · exact hu b (h ▸ hb)
      · exact hs.parameters c hc b (h ▸ hb)

theorem Step.setSymbolReference (hp : p.WellFormed) {m : NodeId} {binding : Binding}
    (hw : .symbol m binding ∈ n.nodes) (hm : .symbol m binding ∈ p.nodes)
    (hu : p.Usable b (.symbol m binding)) (st : Store) :
    Step p n st (st.setSymbolReference m b) := by
  refine ⟨⟨?_, rfl, fun _ => rfl, fun _ => rfl, fun _ _ => rfl⟩, ?_⟩
  · intro x hx
    show (_, Function.update st.symbolReference m b x, _, _, _, _) = _
    have hne : x ≠ m := Ne.symm (hx _ hw)
    rw [Function.update_of_ne hne]
    rfl
  · intro hs
    refine ⟨hs.aug, ?_, hs.arity, hs.parameters⟩
    intro x c hc hmode
    have hmode : (Function.update st.symbolReference m b x).mode = .value := hmode
    show p.Usable (Function.update st.symbolReference m b x) _
    by_cases h : x = m
    · subst h
      rw [Function.update_self]
      have hcm : Code.symbol x c = .symbol x binding := hp.eq_of_id hc hm rfl
      rw [hcm]
      exact hu
    · rw [Function.update_of_ne h] at hmode ⊢
      exact hs.reference x c hc hmode

end L2.SelfHost
