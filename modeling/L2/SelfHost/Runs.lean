import L2.SelfHost.Calls
import L2.SelfHost.Allocation

/-!
# Runs of initializers

An expression is initialized once, in the course of the call for what is above it.  After
that nothing is changed that belongs to it, so at the end of everything it is as its own
initializer left it, but for the location of its value, which is given out above.
-/

namespace L2.SelfHost

open X86 (Word)
open Graph

variable {p : Program} {inits : List Intrinsics} {e n m u v w c : Code} {b : BndgId}
  {st st' st'' : Store}

/-! ## What stays -/

/-- What is at and below `n` has not changed, apart from the value of `n` and from what
belongs to things outside. -/
structure SameBelow (n : Code) (st st' : Store) : Prop where
  fields : ∀ v ∈ n.nodes, st'.fields v.id = st.fields v.id
  depth : ∀ v ∈ n.nodes, st'.depth v.id = st.depth v.id
  isRead : ∀ b, (st'.bndg b).isRead = (st.bndg b).isRead
  context : ∀ b, (st'.bndg b).context = (st.bndg b).context
  bndg : ∀ b, b.mode = .value → Owned n b → b ≠ .value n.id → st'.bndg b = st.bndg b
  reference : ∀ b, b.mode = .reference → st'.bndg b = st.bndg b

theorem SameBelow.refl (n : Code) (st : Store) : SameBelow n st st :=
  ⟨fun _ _ => rfl, fun _ _ => rfl, fun _ => rfl, fun _ => rfl, fun _ _ _ _ => rfl, fun _ _ => rfl⟩

theorem SameBelow.trans (h : SameBelow n st st') (h' : SameBelow n st' st'') :
    SameBelow n st st'' where
  fields v hv := (h'.fields v hv).trans (h.fields v hv)
  depth v hv := (h'.depth v hv).trans (h.depth v hv)
  isRead b := (h'.isRead b).trans (h.isRead b)
  context b := (h'.context b).trans (h.context b)
  bndg b hm hb hne := (h'.bndg b hm hb hne).trans (h.bndg b hm hb hne)
  reference b hm := (h'.reference b hm).trans (h.reference b hm)

theorem SameBelow.mono (hp : p.WellFormed) (hn : n ∈ p.nodes) (h : SameBelow n st st')
    (hm : m ∈ n.nodes) : SameBelow m st st' where
  fields v hv := h.fields v (Forest.nodes_subset hm hv)
  depth v hv := h.depth v (Forest.nodes_subset hm hv)
  isRead := h.isRead
  context := h.context
  bndg b hmode hb hne := by
    apply h.bndg b hmode (hb.mono hm)
    rintro rfl
    obtain ⟨c, hc, hbc⟩ := hb
    have hcn : n = c :=
      hp.eq_of_id hn (Program.mem_of_mem_nodes hn (Forest.nodes_subset hm hc)) (Option.some.inj hbc)
    have hmn : n = m := Forest.antisymm hm (hcn ▸ hc)
    exact hne (hmn ▸ rfl)
  reference := h.reference

/-- Something apart from `n` is initialized. -/
theorem SameBelow.of_frame (hp : p.WellFormed) (hn : n ∈ p.nodes) (hdirect : ¬ p.IsDirect n)
    (hc : c ∈ p.nodes) (h : Frame p c st st') (hdisj : ∀ v ∈ c.nodes, v ∉ n.nodes) :
    SameBelow n st st' where
  fields v hv := by
    apply h.fields
    intro x hx hid
    have hxv : x = v :=
      hp.eq_of_id (Program.mem_of_mem_nodes hc hx) (Program.mem_of_mem_nodes hn hv) hid
    exact hdisj x hx (hxv ▸ hv)
  depth v _ := congrFun h.depth v.id
  isRead := h.isRead
  context := h.context
  bndg b _ hb _ := by
    apply h.bndg
    intro x hx hu
    obtain ⟨o, ho, hbo⟩ := hb
    exact hdisj x hx (hu.mem hn hdirect ho hbo)
  reference b hmode := by
    apply h.bndg
    intro x _ hu
    have hvalue := hu.1
    rw [hmode] at hvalue
    cases hvalue

/-- Nothing inside of what is apart from that is come to. -/
theorem Pristine.of_agree (hp : p.WellFormed) (hn : n ∈ p.nodes) (h : Pristine n st)
    (ha : SameBelow n st st') : Pristine n st' := by
  have hfields : ∀ v ∈ n.nodes, st'.bindingAug v.id = st.bindingAug v.id ∧
      st'.symbolReference v.id = st.symbolReference v.id ∧
      st'.parameters v.id = st.parameters v.id ∧ st'.generator v.id = st.generator v.id := by
    intro v hv
    have hf := ha.fields v hv
    unfold Store.fields at hf
    simp only [Prod.mk.injEq] at hf
    exact ⟨hf.1, hf.2.1, hf.2.2.1, hf.2.2.2.1⟩
  refine h.congr ?_ ?_ ?_ ?_ ?_
  · exact fun v hv => (hfields v (Code.inside_subset hv)).1
  · exact fun v hv => (hfields v hv).2.2.1
  · exact fun v hv => (hfields v hv).2.1
  · exact fun v hv => (hfields v hv).2.2.2
  · intro v hv
    rw [ha.bndg _ rfl ((owned_value v).mono (Code.inside_subset hv))]
    intro hvn
    exact Forest.ne_of_below hv
      (hp.eq_of_id (Program.mem_of_inside hn hv) hn (BndgId.value.inj hvn))

/-! ## What a run of an initializer does -/

/-- The expression `n` has been initialized in the course of the run that has led to `F`, and
is as it was then. -/
def LocalRun (p : Program) (inits : List Intrinsics) (e n : Code) (F : Store) : Prop :=
  ∃ fuel offset st r, Ready p e n st ∧ initializeExpression p inits fuel offset st n = some r ∧
    SameBelow n r.store F

structure RunOk (p : Program) (inits : List Intrinsics) (e n : Code) (st st' : Store) : Prop where
  step : Step p n st st'
  aug : st'.aug n = st.aug n
  live : Live p st'
  generated : st'.generator n.id ≠ none
  runs : ∀ m ∈ n.nodes, st'.generator m.id ≠ none → LocalRun p inits e m st'

theorem LocalRun.agree (hp : p.WellFormed) (hc : c ∈ p.nodes) (h : LocalRun p inits e m st)
    (ha : SameBelow c st st') (hm : m ∈ c.nodes) : LocalRun p inits e m st' := by
  obtain ⟨fuel, offset, st₀, r, hr, heq, hagree⟩ := h
  exact ⟨fuel, offset, st₀, r, hr, heq, hagree.trans (ha.mono hp hc hm)⟩

theorem generator_of_fields (h : st'.fields v.id = st.fields v.id) :
    st'.generator v.id = st.generator v.id := by
  unfold Store.fields at h
  simp only [Prod.mk.injEq] at h
  exact h.2.2.2.1

theorem aug_of_fields (h : st'.fields v.id = st.fields v.id) : st'.aug v = st.aug v := by
  unfold Store.fields at h
  simp only [Prod.mk.injEq] at h
  exact h.1

theorem parameters_of_fields (h : st'.fields v.id = st.fields v.id) :
    st'.parameters v.id = st.parameters v.id := by
  unfold Store.fields at h
  simp only [Prod.mk.injEq] at h
  exact h.2.2.1

/-- What the loop `init-subs` does for the expressions `es` below `n`. -/
structure SubsOk (p : Program) (inits : List Intrinsics) (e n : Code) (es : List Code)
    (st st' : Store) : Prop where
  step : Step p n st st'
  fields : ∀ v, (∀ c ∈ Forest.nodesOf es, c.id ≠ v) → st'.fields v = st.fields v
  agree : ∀ m ∈ p.nodes, ¬ p.IsDirect m → (∀ v ∈ Forest.nodesOf es, v ∉ m.nodes) →
    SameBelow m st st'
  aug : ∀ c ∈ es, st'.aug c = st.aug c
  live : Live p st'
  generated : ∀ c ∈ es, st'.generator c.id ≠ none
  runs : ∀ m ∈ Forest.nodesOf es, st'.generator m.id ≠ none → LocalRun p inits e m st'

/-- The expressions that a call initializes, when it comes to them. -/
structure Waiting (p : Program) (e n : Code) (es : List Code) (st : Store) : Prop where
  root : e ∈ p.exprs
  mem : n ∈ e.nodes
  deep : Deepens st e
  inv : Scoped p st
  live : Live p st
  nodup : (Forest.nodesOf es).Nodup
  inside : ∀ c ∈ es, c ∈ n.inside
  direct : ∀ c ∈ es, ¬ p.IsDirect c
  pristine : ∀ c ∈ es, Pristine c st

theorem Waiting.ready {es : List Code} (h : Waiting p e n es st) (hc : c ∈ es) :
    Ready p e c st :=
  ⟨h.root, Forest.nodes_subset h.mem (Code.inside_subset (h.inside c hc)), h.direct c hc, h.deep,
    h.inv, h.live, h.pristine c hc⟩

theorem Waiting.nodup_cons {es : List Code} (h : Waiting p e n (c :: es) st) :
    (Forest.nodesOf es).Nodup ∧ ∀ v ∈ c.nodes, v ∉ Forest.nodesOf es := by
  have hnd := h.nodup
  rw [Forest.nodesOf_cons] at hnd
  obtain ⟨_, hes, hdisj⟩ := List.nodup_append.mp hnd
  exact ⟨hes, fun v hv hvs => hdisj v hv v hvs rfl⟩

/-- The rest still waits after the first has been initialized. -/
theorem Waiting.tail (hp : p.WellFormed) {es : List Code} (h : Waiting p e n (c :: es) st)
    (hrun : RunOk p inits e c st st') : Waiting p e n es st' := by
  have hc : c ∈ p.nodes := (h.ready List.mem_cons_self).mem_nodes
  obtain ⟨hnd, hdisj⟩ := h.nodup_cons
  refine ⟨h.root, h.mem, ?_, hrun.step.inv h.inv, hrun.live, hnd, ?_, ?_, ?_⟩
  · unfold Deepens
    rw [hrun.step.frame.depth]
    exact h.deep
  · exact fun x hx => h.inside x (List.mem_cons_of_mem _ hx)
  · exact fun x hx => h.direct x (List.mem_cons_of_mem _ hx)
  · intro x hx
    have hready := h.ready (List.mem_cons_of_mem _ hx)
    apply hready.pristine.of_agree hp hready.mem_nodes
    apply SameBelow.of_frame hp hready.mem_nodes hready.direct hc hrun.step.frame
    exact fun v hv hvx => hdisj v hv (Forest.mem_nodesOf.mpr ⟨x, hx, hvx⟩)

theorem initSubs_ok (hp : p.WellFormed) {init : Word → Store → Code → Option Initialized}
    (hinit : ∀ offset st n r, Ready p e n st → init offset st n = some r →
      RunOk p inits e n st r.store)
    {offset : Word} {es : List Code} {r r' : Initialized} (hw : Waiting p e n es r.store)
    (h : initSubs init offset r es = some r') : SubsOk p inits e n es r.store r'.store := by
  induction es generalizing r with
  | nil =>
    cases h
    refine ⟨Step.refl .., fun _ _ => rfl, fun _ _ _ _ => SameBelow.refl .., ?_, hw.live, ?_, ?_⟩
    · exact fun _ hc => absurd hc List.not_mem_nil
    · exact fun _ hc => absurd hc List.not_mem_nil
    · exact fun _ hm => absurd hm List.not_mem_nil
  | cons c es ih =>
    obtain ⟨r₁, h₁, h₂⟩ := Option.bind_eq_some_iff.mp h
    have hready := hw.ready List.mem_cons_self
    have hrun := hinit _ _ _ _ hready h₁
    have hc := hready.mem_nodes
    obtain ⟨hnd, hdisj⟩ := hw.nodup_cons
    have hrest := ih (r := ⟨minWord r.bottomOffset r₁.bottomOffset, r.inUse ||| r₁.inUse, r₁.store⟩)
      (hw.tail hp hrun) h₂
    have hcn : c ∈ n.nodes := Code.inside_subset (hw.inside c List.mem_cons_self)
    -- nothing happens to the first while the rest is initialized
    have hagree : SameBelow c r₁.store r'.store := by
      apply hrest.agree c hc hready.direct
      exact fun v hv hvc => hdisj v hvc hv
    have hself := hagree.fields c (Forest.mem_nodes_self c)
    refine ⟨(hrun.step.mono hcn).trans hrest.step, ?_, ?_, ?_, hrest.live, ?_, ?_⟩
    · intro v hv
      rw [Forest.nodesOf_cons] at hv
      rw [hrest.fields v fun x hx => hv x (List.mem_append_right _ hx)]
      exact hrun.step.frame.fields v fun x hx => hv x (List.mem_append_left _ hx)
    · intro m hm hdirect hout
      rw [Forest.nodesOf_cons] at hout
      have hfirst : SameBelow m r.store r₁.store := by
        apply SameBelow.of_frame hp hm hdirect hc hrun.step.frame
        exact fun v hv => hout v (List.mem_append_left _ hv)
      exact hfirst.trans (hrest.agree m hm hdirect fun v hv => hout v (List.mem_append_right _ hv))
    · intro x hx
      rcases List.mem_cons.mp hx with rfl | hx
      · exact (aug_of_fields hself).trans hrun.aug
      · rw [hrest.aug x hx]
        apply aug_of_fields
        apply hrun.step.frame.fields
        intro y hy hid
        have hxp := (hw.ready (List.mem_cons_of_mem _ hx)).mem_nodes
        have hyx : y = x := hp.eq_of_id (Program.mem_of_mem_nodes hc hy) hxp hid
        exact hdisj y hy (Forest.mem_nodesOf.mpr ⟨x, hx, hyx ▸ Forest.mem_nodes_self y⟩)
    · intro x hx
      rcases List.mem_cons.mp hx with rfl | hx
      · rw [generator_of_fields hself]
        exact hrun.generated
      · exact hrest.generated x hx
    · intro m hm hgen
      rw [Forest.nodesOf_cons] at hm
      rcases List.mem_append.mp hm with hm | hm
      · rw [generator_of_fields (hagree.fields m hm)] at hgen
        exact (hrun.runs m hm hgen).agree hp hc hagree hm
      · exact hrest.runs m hm hgen

/-! ## Giving out locations -/

/-- The store is `st` with other locations for bindings that `n` has, or that values right
below it have. -/
structure MovedAt (n : Code) (es : List Code) (st st' : Store) : Prop where
  fields : ∀ v, v ≠ n.id → st'.fields v = st.fields v
  names : st'.bindingAug = st.bindingAug ∧ st'.symbolReference = st.symbolReference ∧
    st'.parameters = st.parameters
  depth : st'.depth = st.depth
  kept : ∀ b, ∃ storage size, st'.bndg b = { st.bndg b with storage := storage, size := size }
  bndg : ∀ b, b ∉ es.map st.aug → b ≠ st.aug n → b ∉ st.parameters n.id → st'.bndg b = st.bndg b

theorem MovedAt.trans {es : List Code} (h : MovedAt n es st st') (h' : MovedAt n es st' st'') :
    MovedAt n es st st'' where
  fields v hv := (h'.fields v hv).trans (h.fields v hv)
  names := ⟨h'.names.1.trans h.names.1, h'.names.2.1.trans h.names.2.1,
    h'.names.2.2.trans h.names.2.2⟩
  depth := h'.depth.trans h.depth
  kept b := by
    obtain ⟨storage, size, hb⟩ := h.kept b
    obtain ⟨storage', size', hb'⟩ := h'.kept b
    exact ⟨storage', size', by rw [hb', hb]⟩
  bndg b hes hn hparams := by
    have haug : ∀ v : Code, st'.aug v = st.aug v := fun v => congrFun h.names.1 v.id
    have hmap : es.map st'.aug = es.map st.aug := List.map_congr_left fun v _ => haug v
    rw [h'.bndg b (hmap ▸ hes) (haug n ▸ hn) (h.names.2.2 ▸ hparams)]
    exact h.bndg b hes hn hparams

/-- What is moved may be used at or below `n`. -/
theorem MovedAt.step (hp : p.WellFormed) (hs : Scoped p st) (hn : n ∈ p.nodes) {es : List Code}
    (hes : ∀ c ∈ es, c ∈ n.inside) (hchild : st.parameters n.id ≠ [] → n.inside ≠ [])
    (h : MovedAt n es st st') : Step p n st st' := by
  obtain ⟨haug, href, hparams⟩ := h.names
  have hself := Forest.mem_nodes_self n
  refine ⟨⟨?_, h.depth, ?_, ?_, ?_⟩, ?_⟩
  · exact fun v hv => h.fields v (Ne.symm (hv n hself))
  · intro b
    obtain ⟨storage, size, hb⟩ := h.kept b
    rw [hb]
  · intro b
    obtain ⟨storage, size, hb⟩ := h.kept b
    rw [hb]
  · intro b hb
    apply h.bndg
    · intro hmem
      obtain ⟨c, hc, rfl⟩ := List.mem_map.mp hmem
      have hcn := hes c hc
      exact hb c (Code.inside_subset hcn) (hs.aug c (Program.mem_of_inside hn hcn))
    · rintro rfl
      exact hb n hself (hs.aug n hn)
    · intro hmem
      obtain ⟨v, hv⟩ := List.exists_mem_of_ne_nil _ (hchild (List.ne_nil_of_mem hmem))
      exact hb v (Code.inside_subset hv)
        (hp.usable_under hn (hs.parameters n hn b hmem) (Or.inl hv))
  · intro hs
    refine ⟨?_, ?_, ?_, ?_⟩
    · intro v hv
      show p.Usable (st'.bindingAug v.id) v
      rw [haug]
      exact hs.aug v hv
    · intro m binding hm hmode
      rw [href] at hmode ⊢
      exact hs.reference m binding hm hmode
    · intro w hw
      rw [hparams]
      exact hs.arity w hw
    · intro w hw b hb
      rw [hparams] at hb
      exact hs.parameters w hw b hb

theorem MovedAt.live {es : List Code} (h : MovedAt n es st st') (hl : Live p st) : Live p st' := by
  obtain ⟨haug, href, hparams⟩ := h.names
  intro v hv b hmode huse o ho hbo
  have haug : ∀ v : Code, st'.aug v = st.aug v := fun v => congrFun haug v.id
  have huse' : Uses st b v := by
    rcases huse with huse | ⟨hsym, huse⟩ | huse
    · exact Or.inl (haug v ▸ huse)
    · exact Or.inr (Or.inl ⟨hsym, href ▸ huse⟩)
    · exact Or.inr (Or.inr (hparams ▸ huse))
  rw [haug, hparams]
  exact hl v hv b hmode huse' o ho hbo

/-- What is below one of the expressions stays. -/
theorem MovedAt.agree (hp : p.WellFormed) (hs : Scoped p st) (hn : n ∈ p.nodes)
    (hdirect : ¬ p.IsDirect n) {es : List Code} (hnd : (Forest.nodesOf es).Nodup)
    (hes : ∀ c ∈ es, c ∈ n.inside) (hed : ∀ c ∈ es, ¬ p.IsDirect c) (h : MovedAt n es st st')
    (hc : c ∈ es) : SameBelow c st st' where
  fields v hv := by
    apply h.fields
    intro hid
    have hvn : v = n :=
      hp.eq_of_id (Program.mem_of_mem_nodes (Program.mem_of_inside hn (hes c hc)) hv) hn hid
    exact Forest.notMem_below (hes c hc) (hvn ▸ hv)
  depth v _ := congrFun h.depth v.id
  isRead b := by
    obtain ⟨storage, size, hb⟩ := h.kept b
    rw [hb]
  context b := by
    obtain ⟨storage, size, hb⟩ := h.kept b
    rw [hb]
  bndg b hmode hb hne := by
    have hcp := Program.mem_of_inside hn (hes c hc)
    apply h.bndg
    · intro hmem
      obtain ⟨x, hx, rfl⟩ := List.mem_map.mp hmem
      have hxp := Program.mem_of_inside hn (hes x hx)
      have hxc := hs.uses_mem hp hcp (hed c hc) hxp hmode (Or.inl rfl) hb
      have hxc : x = c := Forest.eq_of_mem_of_mem hnd hx hc (Forest.mem_nodes_self x) hxc
      subst hxc
      obtain ⟨o, ho, hbo⟩ := hb
      exact hne ((hs.aug x hxp).eq_value hxp (hed x hx) ho hbo)
    · rintro rfl
      exact hs.not_owned_below hp hn hdirect hmode (Or.inl rfl) (hes c hc) hb
    · intro hmem
      exact hs.not_owned_below hp hn hdirect hmode (Or.inr (Or.inr hmem)) (hes c hc) hb
  reference b hmode := by
    apply h.bndg
    · intro hmem
      obtain ⟨x, hx, rfl⟩ := List.mem_map.mp hmem
      have hvalue := (hs.aug x (Program.mem_of_inside hn (hes x hx))).1
      rw [hmode] at hvalue
      cases hvalue
    · rintro rfl
      have hvalue := (hs.aug n hn).1
      rw [hmode] at hvalue
      cases hvalue
    · intro hmem
      have hvalue : b.mode = .value := by
        rcases hs.parameters n hn b hmem with hb | hb
        · obtain ⟨_, _, hvalue, _⟩ := Code.mem_parameters hb
          exact hvalue
        · exact hb.1
      rw [hmode] at hvalue
      cases hvalue

theorem Scoped.inside_ne_nil (hs : Scoped p st) (hn : n ∈ p.nodes)
    (h : st.parameters n.id ≠ []) : n.inside ≠ [] := by
  have hlen := hs.arity n hn
  have hself : ∀ body : Code, Forest.nodesOf [body] ≠ [] := by
    intro body hnil
    have hmem := Forest.mem_nodesOf.mpr
      ⟨body, List.mem_singleton.mpr rfl, Forest.mem_nodes_self body⟩
    rw [hnil] at hmem
    exact List.not_mem_nil hmem
  cases n with
  | function _ _ _ body | continuation _ _ _ body | withExpr _ _ body => exact hself body
  | literal _ _ | symbol _ _ | storage _ _ _ | invoke _ _ _ | jump _ _ _ | ifExpr _ _ _ _
  | constrain _ _ => exact absurd (List.eq_nil_of_length_eq_zero hlen) h

/-- The locations of a call are given to what `n` has and to the values below it. -/
theorem movedAt_locate {call : InitCall} {offset : Word} {depth : Nat} {r r' : Initialized}
    (hb : call.bndgs = [] ∨ call.bndgs = r.store.parameters n.id)
    (h : locate call offset depth r = some r') : MovedAt n call.exprs r.store r'.store := by
  obtain ⟨hok, _⟩ := locate_ok h
  have hsame := hok.placing.same
  refine ⟨?_, ⟨?_, ?_, ?_⟩, ?_, hok.placing.kept, ?_⟩
  · intro v _
    rw [hsame]
    rfl
  · rw [hsame]
  · rw [hsame]
  · rw [hsame]
  · rw [hsame]
  · intro b hes _ hparams
    apply hok.placing.other
    intro hmem
    rcases List.mem_append.mp hmem with hmem | hmem
    · exact hes hmem
    · rcases hb with hb | hb
      · rw [hb] at hmem
        exact List.not_mem_nil hmem
      · exact hparams (hb ▸ hmem)

theorem modifyAll_setSize {bs : List BndgId} {size : Nat} (st : Store) (b : BndgId) :
    (st.modifyAll bs (setSize size)).bndg b =
      if b ∈ bs then { st.bndg b with size := size } else st.bndg b := by
  induction bs generalizing st with
  | nil => rfl
  | cons b' bs ih =>
    show ((st.modify b' (setSize size)).modifyAll bs (setSize size)).bndg b = _
    rw [ih]
    by_cases hbb : b = b'
    · subst hbb
      rw [bndg_modify, if_pos List.mem_cons_self]
      split
      · rfl
      · rfl
    · rw [bndg_modify_of_ne hbb]
      by_cases hb : b ∈ bs
      · rw [if_pos hb, if_pos (List.mem_cons_of_mem _ hb)]
      · rw [if_neg hb, if_neg fun h => hb ((List.mem_cons.mp h).resolve_left hbb)]

/-- Setting the size and the generator. -/
theorem movedAt_setGenerated (g : ExprGenerator) (n : Code) (es : List Code) (st : Store) :
    MovedAt n es st (setGenerated g n st) ∧ (setGenerated g n st).generator n.id = some g := by
  refine ⟨⟨?_, ⟨rfl, rfl, rfl⟩, rfl, ?_, ?_⟩, Function.update_self ..⟩
  · intro v hv
    show (_, _, _, Function.update st.generator n.id (some g) v, _, _) = _
    rw [Function.update_of_ne hv]
    rfl
  · intro b
    show ∃ storage size, (st.modify (st.aug n) (setSize wordSize)).bndg b = _
    by_cases hb : b = st.aug n
    · rw [hb, bndg_modify]
      exact ⟨_, _, rfl⟩
    · rw [bndg_modify_of_ne hb]
      exact ⟨_, _, rfl⟩
  · intro b _ hb _
    exact bndg_modify_of_ne hb ..

theorem movedAt_setFrame (n : Code) (es : List Code) (frameSize : Word) (used : RegUseVec)
    (st : Store) : MovedAt n es st ((st.setFrame n.id frameSize used).modifyAll
      ((st.setFrame n.id frameSize used).parameters n.id) (setSize wordSize)) := by
  have hsame := sameFields_modifyAll (st.setFrame n.id frameSize used)
    ((st.setFrame n.id frameSize used).parameters n.id) (setSize wordSize)
  refine ⟨?_, ⟨?_, ?_, ?_⟩, ?_, ?_, ?_⟩
  · intro v hv
    rw [hsame]
    show (_, _, _, _, Function.update st.frameSize n.id frameSize v,
      Function.update st.registersUsed n.id used v) = _
    rw [Function.update_of_ne hv, Function.update_of_ne hv]
    rfl
  · rw [hsame]
    rfl
  · rw [hsame]
    rfl
  · rw [hsame]
    rfl
  · rw [hsame]
    rfl
  · intro b
    rw [modifyAll_setSize]
    split
    · exact ⟨_, _, rfl⟩
    · exact ⟨_, _, rfl⟩
  · intro b _ _ hb
    rw [modifyAll_setSize]
    exact if_neg hb

theorem movedAt_finish (g : ExprGenerator) (n : Code) (es : List Code) (offset : Word)
    (r : Initialized) : MovedAt n es r.store (finish g n offset r).store ∧
      (finish g n offset r).store.generator n.id = some g := by
  unfold finish
  split
  · obtain ⟨hmoved, hgen⟩ := movedAt_setGenerated .function n es
      ((r.store.setFrame n.id r.bottomOffset r.inUse).modifyAll
        ((r.store.setFrame n.id r.bottomOffset r.inUse).parameters n.id) (setSize wordSize))
    exact ⟨(movedAt_setFrame n es _ _ _).trans hmoved, hgen⟩
  · exact movedAt_setGenerated .invoke n es r.store
  · exact movedAt_setGenerated (.intrinsic .binary) n es r.store
  · exact movedAt_setGenerated g n es r.store

/-! ## Runs -/

theorem Code.nodes_leaf (h : n.children = []) : n.nodes = [n] := by
  rw [Code.nodes_eq, h]
  rfl

/-- The call of an initializer, from the call on. -/
theorem runOk_call (hp : p.WellFormed) {fuel : Nat} {offset : Word} {g : ExprGenerator}
    {call : InitCall} {r : Initialized}
    (ih : ∀ offset st n r, Ready p e n st →
      initializeExpression p inits fuel offset st n = some r → RunOk p inits e n st r.store)
    (hr : Ready p e n st) (hcall : callOf p inits st n = some (g, call))
    (h : initializeExpressions (initializeExpression p inits fuel) call
      (callOffset n offset st) (st.depth n.id) = some r)
    (heq : initializeExpression p inits (fuel + 1) offset st n = some (finish g n offset r)) :
    RunOk p inits e n st (finish g n offset r).store := by
  have hok := callOf_ok hp hr hcall
  have hn := hr.mem_nodes
  obtain ⟨r₁, hsubs, hlocate⟩ := Option.bind_eq_some_iff.mp h
  have hin : ∀ c ∈ call.exprs, c ∈ n.inside := fun c hc =>
    hok.exprs.subset (Forest.mem_nodesOf.mpr ⟨c, hc, Forest.mem_nodes_self c⟩)
  have hnd : (Forest.nodesOf call.exprs).Nodup := by
    obtain ⟨l, hl, hsub⟩ := hok.exprs
    exact hl.nodup_iff.mp (hsub.nodup (hr.nodup_inside hp))
  have hdeep : Deepens call.store e := by
    unfold Deepens
    rw [hok.step.frame.depth]
    exact hr.deep
  have hw : Waiting p e n call.exprs call.store :=
    ⟨hr.root, hr.mem, hdeep, hok.step.inv hr.inv, hok.live, hnd, hin, hok.direct, hok.pristine⟩
  have hs : SubsOk p inits e n call.exprs call.store r₁.store := initSubs_ok hp ih hw hsubs
  have hinv := hs.step.inv hw.inv
  have hself : r₁.store.fields n.id = call.store.fields n.id := by
    apply hs.fields
    intro c hc hid
    have hcn := hok.exprs.subset hc
    exact Forest.ne_of_below hcn (hp.eq_of_id (hr.inside_mem hcn) hn hid)
  have hb : call.bndgs = [] ∨ call.bndgs = r₁.store.parameters n.id := by
    rw [parameters_of_fields hself]
    exact hok.bndgs
  obtain ⟨hfin, hgen⟩ := movedAt_finish g n call.exprs offset r
  have hmoved := (movedAt_locate hb hlocate).trans hfin
  refine ⟨(hok.step.trans hs.step).trans (hmoved.step hp hinv hn hin (hinv.inside_ne_nil hn)), ?_,
    hmoved.live hs.live, ?_, ?_⟩
  · rw [← hok.aug, ← aug_of_fields hself]
    exact congrFun hmoved.names.1 n.id
  · rw [hgen]
    exact Option.some_ne_none g
  · intro m hm hgen
    rcases Code.mem_nodes_iff.mp hm with hmin | rfl
    · have hmp := hr.inside_mem hmin
      have hid : m.id ≠ n.id := fun hid => Forest.ne_of_below hmin (hp.eq_of_id hmp hn hid)
      by_cases hmem : m ∈ Forest.nodesOf call.exprs
      · obtain ⟨c, hc, hmc⟩ := Forest.mem_nodesOf.mp hmem
        rw [generator_of_fields (hmoved.fields m.id hid)] at hgen
        exact (hs.runs m hmem hgen).agree hp (hr.inside_mem (hin c hc))
          (hmoved.agree hp hinv hn hr.direct hnd hin hok.direct hc) hmc
      · -- nobody has come to what is not in the call
        exfalso
        apply hgen
        have hsame : r₁.store.fields m.id = call.store.fields m.id := by
          apply hs.fields
          intro c hc hid
          have hcm : c = m := hp.eq_of_id (hr.inside_mem (hok.exprs.subset hc)) hmp hid
          exact hmem (hcm ▸ hc)
        rw [generator_of_fields (hmoved.fields m.id hid), generator_of_fields hsame, hok.generator]
        exact hr.pristine.generator m hm
    · exact ⟨fuel + 1, offset, st, _, hr, heq, SameBelow.refl ..⟩

theorem runOk_leaf (hr : Ready p e n st) (hleaf : n.children = []) {g : ExprGenerator}
    {fuel : Nat} {offset : Word}
    (heq : initializeExpression p inits (fuel + 1) offset st n =
      some (initializeLeaf g n offset st)) :
    RunOk p inits e n st (initializeLeaf g n offset st).store := by
  obtain ⟨hmoved, hgen⟩ := movedAt_setGenerated g n [] st
  have hstep : Step p n st (initializeLeaf g n offset st).store := by
    have hself := Forest.mem_nodes_self n
    have hsize := Step.modify (keeps_setSize wordSize) hself (hr.inv.aug n hr.mem_nodes) st
    exact hsize.trans (Step.setGenerator hself g _)
  refine ⟨hstep, rfl, hmoved.live hr.live, ?_, ?_⟩
  · show (setGenerated g n st).generator n.id ≠ none
    rw [hgen]
    exact Option.some_ne_none g
  · intro m hm _
    rw [Code.nodes_leaf hleaf] at hm
    rw [List.mem_singleton.mp hm]
    exact ⟨fuel + 1, offset, st, _, hr, heq, SameBelow.refl ..⟩

/-- Every run of an initializer keeps the invariant, and what it has come to is as its own
run left it. -/
theorem initializeExpression_ok (hp : p.WellFormed) (fuel : Nat) : ∀ offset st n r,
    Ready p e n st → initializeExpression p inits fuel offset st n = some r →
      RunOk p inits e n st r.store := by
  induction fuel with
  | zero =>
    intro offset st n r _ h
    cases h
  | succ fuel ih =>
    intro offset st n r hr heq
    have h := heq
    unfold initializeExpression at h
    split at h
    · cases h
      exact runOk_leaf hr rfl heq
    · cases h
      exact runOk_leaf hr rfl heq
    · obtain ⟨⟨g, call⟩, hcall, h⟩ := Option.bind_eq_some_iff.mp h
      obtain ⟨r', hcalled, hfinish⟩ := Option.bind_eq_some_iff.mp h
      cases hfinish
      exact runOk_call hp ih hr hcall hcalled heq

end L2.SelfHost
