import L2.SelfHost.Prepared

/-!
# What initialization leaves

The expressions at the top of a program are numbered and initialized in turn.  In the end
the bindings are used where they may be and at home, and everything that has been
initialized is as its own run left it.
-/

namespace L2.SelfHost

open X86 (Word)
open Graph

variable {p : Program} {inits : List Intrinsics} {e n m u v w c : Code} {b : BndgId}
  {st st' F : Store}

/-! ## Numbering -/

theorem assignArgumentDepths_eq (depth : Nat) (st : Store) (es : List Code) :
    assignArgumentDepths depth st es = es.foldl (assignDepths depth) st := by
  induction es generalizing st with
  | nil => rfl
  | cons e es ih => exact ih _

theorem assignDepths_eq (depth : Nat) (st : Store) (n : Code) :
    assignDepths depth st n =
      n.children.foldl (assignDepths (depth + 1)) (st.setDepth n.id depth) := by
  cases n with
  | storage m ref arguments => exact assignArgumentDepths_eq _ _ _
  | invoke m target arguments => exact assignArgumentDepths_eq _ _ _
  | jump m target arguments => exact assignArgumentDepths_eq _ _ _
  | literal _ _ | symbol _ _ | function _ _ _ _ | continuation _ _ _ _ | withExpr _ _ _
  | ifExpr _ _ _ _ | constrain _ _ => rfl

/-- Only the depths of what is in the list are different. -/
structure Numbered (es : List Code) (depth : Nat) (st st' : Store) : Prop where
  same : st' = { st with depth := st'.depth }
  other : ∀ x, (∀ c ∈ Forest.nodesOf es, c.id ≠ x) → st'.depth x = st.depth x
  roots : ∀ c ∈ es, st'.depth c.id = depth
  deep : ∀ c ∈ es, Deepens st' c

theorem Deepens.congr (h : Deepens st e) (hd : ∀ v ∈ e.nodes, st'.depth v.id = st.depth v.id) :
    Deepens st' e := by
  intro n hn c hc
  rw [hd n hn, hd c (Forest.nodes_subset hn (Code.inside_subset (Code.child_inside hc)))]
  exact h n hn c hc

theorem numbered_foldl {depth : Nat} {es : List Code}
    (hes : ∀ c ∈ es, ∀ st, Numbered [c] depth st (assignDepths depth st c))
    (hnd : ((Forest.nodesOf es).map Code.id).Nodup) (st : Store) :
    Numbered es depth st (es.foldl (assignDepths depth) st) := by
  induction es generalizing st with
  | nil =>
    exact ⟨rfl, fun _ _ => rfl, fun _ hc => absurd hc List.not_mem_nil,
      fun _ hc => absurd hc List.not_mem_nil⟩
  | cons c es ih =>
    rw [Forest.nodesOf_cons, List.map_append] at hnd
    obtain ⟨_, hnd, hdisj⟩ := List.nodup_append.mp hnd
    have hfirst := hes c List.mem_cons_self st
    have hrest := ih (fun x hx => hes x (List.mem_cons_of_mem _ hx)) hnd (assignDepths depth st c)
    have hone : Forest.nodesOf [c] = c.nodes := List.append_nil _
    have hkeep : ∀ v ∈ c.nodes,
      (es.foldl (assignDepths depth) (assignDepths depth st c)).depth v.id =
        (assignDepths depth st c).depth v.id := by
      intro v hv
      apply hrest.other
      intro x hx hid
      exact hdisj _ (List.mem_map_of_mem hv) _ (List.mem_map_of_mem hx) hid.symm
    rw [List.foldl_cons]
    generalize es.foldl (assignDepths depth) (assignDepths depth st c) = st₂ at *
    generalize assignDepths depth st c = st₁ at *
    refine ⟨?_, ?_, ?_, ?_⟩
    · apply hrest.same.trans
      rw [hfirst.same]
    · intro x hx
      rw [Forest.nodesOf_cons] at hx
      rw [hrest.other x fun c hc => hx c (List.mem_append_right _ hc)]
      apply hfirst.other
      rw [hone]
      exact fun c hc => hx c (List.mem_append_left _ hc)
    · intro x hx
      rcases List.mem_cons.mp hx with rfl | hx
      · exact (hkeep x (Forest.mem_nodes_self x)).trans
          (hfirst.roots x (List.mem_singleton.mpr rfl))
      · exact hrest.roots x hx
    · intro x hx
      rcases List.mem_cons.mp hx with rfl | hx
      · exact (hfirst.deep x (List.mem_singleton.mpr rfl)).congr hkeep
      · exact hrest.deep x hx

/-- `assign-depths` numbers a tree from the given depth on. -/
theorem numbered_assignDepths (e : Code) : ∀ depth st, (e.nodes.map Code.id).Nodup →
    Numbered [e] depth st (assignDepths depth st e) := by
  induction e using Forest.induction with
  | step e ih =>
    intro depth st hnd
    have hone : Forest.nodesOf [e] = e.nodes := List.append_nil _
    have hnodes : e.nodes = e.inside ++ [e] := Forest.nodes_eq' e
    rw [hnodes, List.map_append] at hnd
    obtain ⟨hinside, _, hdisj⟩ := List.nodup_append.mp hnd
    have hsub : ∀ c ∈ e.children, (c.nodes.map Code.id).Nodup := by
      intro c hc
      exact ((Forest.nodes_infix_of_mem hc).sublist.map Code.id).nodup hinside
    have hfold : Numbered e.children (depth + 1) (st.setDepth e.id depth)
        (e.children.foldl (assignDepths (depth + 1)) (st.setDepth e.id depth)) :=
      numbered_foldl (fun c hc st => ih c hc (depth + 1) st (hsub c hc)) hinside _
    rw [← assignDepths_eq] at hfold
    have hself : (assignDepths depth st e).depth e.id = depth := by
      rw [hfold.other]
      · exact Function.update_self ..
      · intro c hc hid
        exact hdisj _ (List.mem_map_of_mem hc) _ (List.mem_singleton.mpr rfl) hid
    refine ⟨?_, ?_, ?_, ?_⟩
    · rw [hfold.same]
      rfl
    · intro x hx
      rw [hone, hnodes] at hx
      rw [hfold.other x fun c hc => hx c (List.mem_append_left _ hc)]
      exact Function.update_of_ne
        (hx e (List.mem_append_right _ (List.mem_singleton.mpr rfl))).symm _ _
    · intro c hc
      rw [List.mem_singleton.mp hc]
      exact hself
    · intro c hc
      rw [List.mem_singleton.mp hc]
      intro n hn x hx
      rcases Code.mem_nodes_iff.mp hn with hn | rfl
      · obtain ⟨y, hy, hny⟩ := Forest.mem_nodesOf.mp hn
        exact hfold.deep y hy n hny x hx
      · rw [hself]
        exact hfold.roots x hx

/-! ## The start -/

theorem Program.WellFormed.find_eq (hp : p.WellFormed) (hn : n ∈ p.nodes) :
    p.find n.id = some n := by
  unfold Program.find
  rw [Code.nodesOf_eq_flatMap]
  have hsome : (p.exprs.flatMap Code.nodes).find? (fun c => c.id = n.id) ≠ none := by
    intro h
    exact List.find?_eq_none.mp h n hn (decide_eq_true rfl)
  obtain ⟨c, hc⟩ := Option.ne_none_iff_exists'.mp hsome
  have hid := List.find?_some hc
  have hcn : c = n := hp.eq_of_id (List.mem_of_find?_eq_some hc) hn (of_decide_eq_true hid)
  rw [hc, hcn]

/-- Nothing has been shared. -/
structure Fields (p : Program) (st : Store) : Prop where
  aug : st.bindingAug = .value
  reference : ∀ n ∈ p.nodes, n.isSymbol = true → st.symbolReference n.id = n.reference
  parameters : ∀ n ∈ p.nodes, st.parameters n.id = n.parameters
  generator : ∀ n ∈ p.nodes, st.generator n.id = none

theorem fields_initial (hp : p.WellFormed) : Fields p (Store.initial p) := by
  refine ⟨rfl, ?_, ?_, fun _ _ => rfl⟩
  · intro n hn _
    show ((p.find n.id).map Code.reference).getD (.value n.id) = n.reference
    rw [hp.find_eq hn]
    rfl
  · intro n hn
    show ((p.find n.id).map Code.parameters).getD [] = n.parameters
    rw [hp.find_eq hn]
    rfl

theorem Fields.passed {R : BndgAug → BndgAug → Prop} (h : Fields p st) (hp : Passed R st st') :
    Fields p st' := by
  rw [hp.names]
  exact ⟨h.aug, h.reference, h.parameters, h.generator⟩

theorem Fields.scoped (hp : p.WellFormed) (h : Fields p st) : Scoped p st := by
  refine ⟨?_, ?_, ?_, ?_⟩
  · intro n hn
    show p.Usable (st.bindingAug n.id) n
    rw [h.aug]
    exact hp.usable_value hn
  · intro n b hn hmode
    have href : st.symbolReference n = .named b := h.reference _ hn rfl
    rw [href] at hmode ⊢
    obtain ⟨_, w, hw, hbw, hunder⟩ := hp.linked n b hn hmode
    obtain ⟨_, _, hvalue, hexp⟩ := Code.mem_parameters hbw
    exact hp.usable_parameter hw hvalue hexp hunder
  · intro w hw
    rw [h.parameters w hw]
  · intro w hw b hb
    rw [h.parameters w hw] at hb
    exact Or.inl hb

theorem Fields.live (hp : p.WellFormed) (h : Fields p st) : Live p st := by
  have hparam : ∀ w ∈ p.nodes, ∀ b ∈ w.parameters, Home p st b := by
    intro w hw b hb o ho hbo
    obtain ⟨binding, rfl, _, hexp⟩ := Code.mem_parameters hb
    have how : o = w := hp.eq_of_id ho hw (Option.some.inj (hbo.symm.trans hexp))
    rw [if_neg nofun, h.parameters o ho, how]
    exact hb
  have hval : ∀ x : Code, st.aug x = .value x.id := fun x => congrFun h.aug x.id
  intro v hv b hmode huse
  rcases huse with huse | ⟨hsym, huse⟩ | huse
  · intro o ho hbo
    rw [hval] at huse
    rw [← huse] at hbo
    have hov : o = v := hp.eq_of_id ho hv (Option.some.inj hbo).symm
    rw [hov, if_pos huse.symm, hval, huse]
  · obtain ⟨n, binding, rfl⟩ := Code.eq_symbol hsym
    rw [h.reference _ hv hsym] at huse
    have huse : .named binding = b := huse
    subst huse
    obtain ⟨_, w, hw, hbw, _⟩ := hp.linked n binding hv hmode
    exact hparam w hw _ hbw
  · rw [h.parameters v hv] at huse
    exact hparam v hv b huse

theorem Fields.pristine (h : Fields p st) (hpref : ∀ b, PrefersMemory (st.bndg b))
    (hn : n ∈ p.nodes) : Pristine n st := by
  refine ⟨?_, ?_, ?_, ?_, fun v _ reg => hpref _ reg⟩
  · exact fun v _ => congrFun h.aug v.id
  · intro v hv b hb
    rw [h.parameters v (Program.mem_of_mem_nodes hn hv)] at hb
    exact Or.inl hb
  · intro m b hm
    exact Or.inl (h.reference _ (Program.mem_of_mem_nodes hn hm) rfl)
  · exact fun v hv => h.generator v (Program.mem_of_mem_nodes hn hv)

/-! ## The loop over the program -/

/-- What does not depend on depths. -/
theorem Scoped.depth (h : Scoped p st) (d : NodeId → Nat) : Scoped p { st with depth := d } :=
  ⟨h.aug, h.reference, h.arity, h.parameters⟩

theorem Pristine.depth (h : Pristine n st) (d : NodeId → Nat) :
    Pristine n { st with depth := d } :=
  ⟨h.aug, h.parameters, h.reference, h.generator, h.preferred⟩

theorem SameFields.scoped (h : SameFields st st') (hs : Scoped p st) : Scoped p st' := by
  rw [h]
  exact ⟨hs.aug, hs.reference, hs.arity, hs.parameters⟩

/-- Some of the expressions at the top are still to be initialized. -/
structure Pending (p : Program) (es : List Code) (st : Store) : Prop where
  roots : ∀ e ∈ es, e ∈ p.exprs
  nodup : (Forest.nodesOf es).Nodup
  inv : Scoped p st
  live : Live p st
  aug : ∀ e ∈ es, st.aug e = .value e.id
  pristine : ∀ e ∈ es, Pristine e st

/-- What the rest of the loop does for them. -/
structure LoopOk (p : Program) (inits : List Intrinsics) (es : List Code) (st F : Store) :
    Prop where
  inv : Scoped p F
  live : Live p F
  agree : ∀ m ∈ p.nodes, ¬ p.IsDirect m → (∀ v ∈ Forest.nodesOf es, v ∉ m.nodes) → SameBelow m st F
  isRead : ∀ b, (F.bndg b).isRead = (st.bndg b).isRead
  context : ∀ b, (F.bndg b).context = (st.bndg b).context
  reference : ∀ b, b.mode = .reference → F.bndg b = st.bndg b
  aug : ∀ e ∈ es, F.aug e = .value e.id
  generated : ∀ e ∈ es, F.generator e.id ≠ none
  runs : ∀ m ∈ Forest.nodesOf es, F.generator m.id ≠ none →
    ∃ e ∈ es, m ∈ e.nodes ∧ LocalRun p inits e m F

/-- One round: the expression is numbered and initialized, and its own value gets no place. -/
structure RoundOk (p : Program) (inits : List Intrinsics) (e : Code) (st st' : Store) :
    Prop where
  inv : Scoped p st'
  live : Live p st'
  agree : ∀ m ∈ p.nodes, ¬ p.IsDirect m → (∀ v ∈ e.nodes, v ∉ m.nodes) → SameBelow m st st'
  isRead : ∀ b, (st'.bndg b).isRead = (st.bndg b).isRead
  context : ∀ b, (st'.bndg b).context = (st.bndg b).context
  reference : ∀ b, b.mode = .reference → st'.bndg b = st.bndg b
  aug : st'.aug e = .value e.id
  generated : st'.generator e.id ≠ none
  runs : ∀ m ∈ e.nodes, st'.generator m.id ≠ none → LocalRun p inits e m st'

theorem Pending.ready (hp : p.WellFormed) {es : List Code} (h : Pending p (e :: es) st) :
    Ready p e e (assignDepths 0 st e) := by
  have he := h.roots e List.mem_cons_self
  have hnd : (e.nodes.map Code.id).Nodup :=
    ((Forest.nodes_infix_of_mem he).sublist.map Code.id).nodup hp.nodup
  have hnum := numbered_assignDepths e 0 st hnd
  refine ⟨he, Forest.mem_nodes_self e, hp.root_not_direct he,
    hnum.deep e (List.mem_singleton.mpr rfl), ?_, ?_, ?_⟩
  · rw [hnum.same]
    exact h.inv.depth _
  · rw [hnum.same]
    exact h.live
  · rw [hnum.same]
    exact (h.pristine e List.mem_cons_self).depth _

theorem roundOk (hp : p.WellFormed) {fuel : Nat} {offset : Word} {es : List Code}
    (h : Pending p (e :: es) st) {r : Initialized}
    (heq : initializeExpressions (initializeExpression p inits fuel)
      ⟨assignDepths 0 st e, [e], [], 0⟩ offset 0 = some r) : RoundOk p inits e st r.store := by
  have he := h.roots e List.mem_cons_self
  have hep : e ∈ p.nodes := Program.mem_of_root he (Forest.mem_nodes_self e)
  have hnd : (e.nodes.map Code.id).Nodup :=
    ((Forest.nodes_infix_of_mem he).sublist.map Code.id).nodup hp.nodup
  have hnum := numbered_assignDepths e 0 st hnd
  have hone : Forest.nodesOf [e] = e.nodes := List.append_nil _
  have hready := h.ready hp
  generalize assignDepths 0 st e = st₁ at *
  obtain ⟨r₁, hsubs, hlocate⟩ := Option.bind_eq_some_iff.mp heq
  obtain ⟨r₂, hrun, hsubs⟩ := Option.bind_eq_some_iff.mp hsubs
  cases hsubs
  have hok := initializeExpression_ok hp fuel _ _ _ _ hready hrun
  obtain ⟨hloc, _⟩ := locate_ok hlocate
  have haug : r₂.store.aug e = .value e.id := by
    rw [hok.aug, hnum.same]
    exact h.aug e List.mem_cons_self
  have hexprs : List.map r₂.store.aug [e] = [.value e.id] := congrArg (· :: []) haug
  have hother : ∀ b, b ≠ .value e.id → r.store.bndg b = r₂.store.bndg b := by
    intro b hb
    apply hloc.placing.other
    intro hmem
    have hmem : b ∈ [r₂.store.aug e] := hmem
    rw [haug] at hmem
    exact hb (List.mem_singleton.mp hmem)
  have hsame := hloc.placing.same
  -- what is apart from `e` is not changed by the numbering either
  have hfirst : ∀ m ∈ p.nodes, (∀ v ∈ e.nodes, v ∉ m.nodes) → SameBelow m st st₁ := by
    intro m hm hdisj
    refine ⟨?_, ?_, ?_, ?_, ?_, ?_⟩
    · intro v _
      rw [hnum.same]
      rfl
    · intro v hv
      apply hnum.other
      rw [hone]
      intro c hc hid
      have hcv : c = v :=
        hp.eq_of_id (Program.mem_of_mem_nodes hep hc) (Program.mem_of_mem_nodes hm hv) hid
      exact hdisj c hc (hcv ▸ hv)
    · intro b
      rw [hnum.same]
    · intro b
      rw [hnum.same]
    · intro b _ _ _
      rw [hnum.same]
    · intro b _
      rw [hnum.same]
  have hlast : ∀ m : Code, (∀ b, Owned m b → b ≠ .value m.id → b ≠ .value e.id) →
      SameBelow m r₂.store r.store := by
    intro m hm
    refine ⟨?_, ?_, ?_, ?_, ?_, ?_⟩
    · intro v _
      rw [hsame]
      rfl
    · intro v _
      rw [hsame]
    · exact hloc.placing.isRead
    · exact hloc.placing.context
    · exact fun b _ hb hne => hother b (hm b hb hne)
    · intro b hmode
      apply hother
      rintro rfl
      cases hmode
  have hself : SameBelow e r₂.store r.store := hlast e fun b _ hne => hne
  have hst₁ : st₁.bndg = st.bndg := by rw [hnum.same]
  refine ⟨hsame.scoped (hok.step.inv hready.inv), hsame.live hok.live, ?_, ?_, ?_, ?_, ?_, ?_, ?_⟩
  · intro m hm hdirect hdisj
    refine ((hfirst m hm hdisj).trans
      (SameBelow.of_frame hp hm hdirect hep hok.step.frame hdisj)).trans (hlast m ?_)
    rintro b ⟨c, hc, hbc⟩ _ rfl
    have hce : e = c :=
      hp.eq_of_id hep (Program.mem_of_mem_nodes hm hc) (Option.some.inj hbc)
    exact hdisj e (Forest.mem_nodes_self e) (hce ▸ hc)
  · intro b
    rw [hloc.placing.isRead, hok.step.frame.isRead, hst₁]
  · intro b
    rw [hloc.placing.context, hok.step.frame.context, hst₁]
  · intro b hmode
    rw [hself.reference b hmode, ← hst₁]
    apply hok.step.frame.bndg
    intro c _ hu
    have hvalue := hu.1
    rw [hmode] at hvalue
    cases hvalue
  · exact (hsame.aug e).trans haug
  · rw [generator_of_fields (hself.fields e (Forest.mem_nodes_self e))]
    exact hok.generated
  · intro m hm hgen
    rw [generator_of_fields (hself.fields m hm)] at hgen
    exact (hok.runs m hm hgen).agree hp hep hself hm

/-- The other expressions at the top are apart from the first. -/
theorem Pending.tail (hp : p.WellFormed) {es : List Code} (h : Pending p (e :: es) st)
    (hone : RoundOk p inits e st st') : Pending p es st' := by
  have hnd := h.nodup
  rw [Forest.nodesOf_cons] at hnd
  obtain ⟨_, hnd, hdisj⟩ := List.nodup_append.mp hnd
  have hdisj : ∀ v ∈ e.nodes, v ∉ Forest.nodesOf es := fun v hv hvs => hdisj v hv v hvs rfl
  have hroots : ∀ e' ∈ es, e' ∈ p.exprs := fun e' he' => h.roots e' (List.mem_cons_of_mem _ he')
  have hapart : ∀ e' ∈ es, SameBelow e' st st' := by
    intro e' he'
    apply hone.agree e' (Program.mem_of_root (hroots e' he') (Forest.mem_nodes_self e'))
      (hp.root_not_direct (hroots e' he'))
    exact fun v hv hve' => hdisj v hv (Forest.mem_nodesOf.mpr ⟨e', he', hve'⟩)
  refine ⟨hroots, hnd, hone.inv, hone.live, ?_, ?_⟩
  · intro e' he'
    rw [aug_of_fields ((hapart e' he').fields e' (Forest.mem_nodes_self e'))]
    exact h.aug e' (List.mem_cons_of_mem _ he')
  · intro e' he'
    exact (h.pristine e' (List.mem_cons_of_mem _ he')).of_agree hp
      (Program.mem_of_root (hroots e' he') (Forest.mem_nodes_self e')) (hapart e' he')

theorem initializeAll_ok (hp : p.WellFormed) {fuel : Nat} {offset : Word} {es : List Code}
    (h : Pending p es st) (heq : initializeAll p inits fuel offset st es = some F) :
    LoopOk p inits es st F := by
  induction es generalizing st with
  | nil =>
    cases heq
    exact ⟨h.inv, h.live, fun m _ _ _ => SameBelow.refl m F, fun _ => rfl, fun _ => rfl,
      fun _ _ => rfl, fun _ he => absurd he List.not_mem_nil,
      fun _ he => absurd he List.not_mem_nil, fun _ hm => absurd hm List.not_mem_nil⟩
  | cons e es ih =>
    obtain ⟨r, hround, hrest⟩ := Option.bind_eq_some_iff.mp heq
    have hone := roundOk hp h hround
    have he := h.roots e List.mem_cons_self
    have hep : e ∈ p.nodes := Program.mem_of_root he (Forest.mem_nodes_self e)
    have hnd := h.nodup
    rw [Forest.nodesOf_cons] at hnd
    have hdisj : ∀ v ∈ e.nodes, v ∉ Forest.nodesOf es :=
      fun v hv hvs => (List.nodup_append.mp hnd).2.2 v hv v hvs rfl
    have hloop := ih (h.tail hp hone) hrest
    have hself : SameBelow e r.store F := by
      apply hloop.agree e hep (hp.root_not_direct he)
      exact fun v hv hve => hdisj v hve hv
    have hfields := hself.fields e (Forest.mem_nodes_self e)
    refine ⟨hloop.inv, hloop.live, ?_, ?_, ?_, ?_, ?_, ?_, ?_⟩
    · intro m hm hdirect hout
      rw [Forest.nodesOf_cons] at hout
      exact (hone.agree m hm hdirect fun v hv => hout v (List.mem_append_left _ hv)).trans
        (hloop.agree m hm hdirect fun v hv => hout v (List.mem_append_right _ hv))
    · exact fun b => (hloop.isRead b).trans (hone.isRead b)
    · exact fun b => (hloop.context b).trans (hone.context b)
    · exact fun b hmode => (hloop.reference b hmode).trans (hone.reference b hmode)
    · intro e' he'
      rcases List.mem_cons.mp he' with rfl | he'
      · exact (aug_of_fields hfields).trans hone.aug
      · exact hloop.aug e' he'
    · intro e' he'
      rcases List.mem_cons.mp he' with rfl | he'
      · rw [generator_of_fields hfields]
        exact hone.generated
      · exact hloop.generated e' he'
    · intro m hm hgen
      rw [Forest.nodesOf_cons] at hm
      rcases List.mem_append.mp hm with hm | hm
      · rw [generator_of_fields (hself.fields m hm)] at hgen
        exact ⟨e, List.mem_cons_self, hm, (hone.runs m hm hgen).agree hp hep hself hm⟩
      · obtain ⟨e', he', hme', hrun⟩ := hloop.runs m hm hgen
        exact ⟨e', List.mem_cons_of_mem _ he', hme', hrun⟩

/-- The store after the passes before. -/
def prepared (p : Program) : Store := (prepare p (-words 1) (Store.initial p) p.exprs).2

theorem fields_prepared (hp : p.WellFormed) : Fields p (prepared p) :=
  (fields_initial hp).passed (keepsPlace_prepare p p.exprs _ _)

theorem prefersMemory_prepared (p : Program) (b : BndgId) :
    PrefersMemory ((prepared p).bndg b) := by
  apply prepare_preferred
  intro b reg
  show b.make.preferred ≠ .register reg
  unfold BndgId.make
  split
  · exact nofun
  · exact nofun
  · exact nofun
  · exact nofun

theorem pending_prepared (hp : p.WellFormed) : Pending p p.exprs (prepared p) := by
  have hf := fields_prepared hp
  refine ⟨fun _ he => he, hp.nodup_nodes, hf.scoped hp, hf.live hp, ?_, ?_⟩
  · exact fun e _ => congrFun hf.aug e.id
  · intro e he
    exact hf.pristine (prefersMemory_prepared p)
      (Program.mem_of_root he (Forest.mem_nodes_self e))

/-- What `compile-program` has made of a program when it calls `generate-program`. -/
theorem initializeProgram_ok (hp : p.WellFormed) {fuel : Nat}
    (h : initializeProgram p inits fuel = some F) : LoopOk p inits p.exprs (prepared p) F :=
  initializeAll_ok hp (pending_prepared hp) h

end L2.SelfHost
