import L2.SelfHost.Reaching

/-!
# Initialization covers generation

The generators look at bindings of their own expressions and of those that they call.  Where
everything that they come to has been initialized, all of these have locations if they are read.
-/

namespace L2.SelfHost

open Graph

variable {p : Program} {inits : List Intrinsics} {e n m w c : Code} {b : BndgId} {st F : Store}

/-! ## The bindings of generators -/

/-- The bindings that `generate-jump` looks at. -/
def jumpBndgs (p : Program) (st : Store) (n : NodeId) (target : Code) (arguments : List Code) :
    List BndgId :=
  let direct : Option (List BndgId) := match target with
    | .continuation m _ _ _ =>
      if p.escapes m then none
      else some (instrBndg m :: arguments.map st.aug ++ st.parameters m)
    | _ => none
  match direct with
  | some bndgs => bndgs
  | none =>
    match (p.shortCircuit n).bind fun dest => enter n dest dest with
    | some withExpr => st.aug withExpr.withBody :: (arguments.head?.map st.aug).toList
    | none =>
      match p.shortCircuit n with
      | some dest => instrBndg dest.id :: arguments.map st.aug ++ st.parameters dest.id
      | none => st.aug target :: arguments.map st.aug

/-- The bindings that the generator of an expression reads from and writes to, apart from the
labels that it makes itself. -/
def bndgsOf (p : Program) (st : Store) (raw : Nat) (n : Code) (g : ExprGenerator) : List BndgId :=
  match g, n with
  | .function, .function m _ _ body =>
    st.bindingAug m :: n.reference :: st.aug body :: st.parameters m
  | .continuation, .continuation m _ _ _ =>
    instrBndg m :: if p.escapes m then [st.bindingAug m, n.reference] else []
  | .withExpr, .withExpr m _ body =>
    instrBndg m :: st.bindingAug m :: st.aug body :: (st.parameters m).head?.toList ++
      if p.escapes m then [n.reference] else []
  | .storage, .storage m _ _ => [st.bindingAug m, n.reference]
  | .jump, .jump m target arguments => jumpBndgs p st m target arguments
  | .invoke, .invoke m target arguments =>
    st.bindingAug m :: (if target.isSymbol then [st.symbolReference target.id] else []) ++
      (target :: arguments).map st.aug
  | .optimizedIf, .ifExpr m condition consequent alternate =>
    st.bindingAug m :: st.aug consequent :: st.aug alternate ::
      (expressionsOf (genCond st raw m condition)).map st.aug
  | .constrain, .constrain m e => [st.bindingAug m, st.aug e]
  | .symbol, .symbol m _ => [st.bindingAug m, st.symbolReference m]
  | .literal, .literal m _ => [st.bindingAug m]
  | .intrinsic g, .invoke m _ arguments =>
    st.bindingAug m :: (intrinsicOperands st g n arguments).map st.aug
  | _, _ => []

/-- The binding has a location if it is read. -/
def Assigned (st : Store) (b : BndgId) : Prop :=
  (st.bndg b).isRead = true → (st.bndg b).storage ≠ .nil

/-- Every expression that `generate-expression` comes to has a generator, and the bindings of that
have locations where they are read. -/
def Covers (p : Program) (raw : Nat) (st : Store) : Prop :=
  ∀ n, Reached p st raw n → ∃ g, st.generator n.id = some g ∧
    ∀ b ∈ bndgsOf p st raw n g, Assigned st b

/-! ### The place of a `with` expression -/

/-- What is on the way from a `with` expression to the jump `j` in the place of its value. -/
structure OnPath (j x : Code) : Prop where
  mem : j ∈ x.nodes
  isIf : x.isIf = false
  base : baseOf x = none
  isContinuation : x.isContinuation = false

theorem enter_spec (hp : p.WellFormed) {j cur w' : Code} (hj : j ∈ p.nodes) (hpath : OnPath j j)
    (hcur : cur ∈ p.nodes) (h : enter j.id w cur = some w') : OnPath j cur ∧
      (w' = w ∨ w' ∈ cur.nodes ∧ OnPath j w'.withBody) := by
  have hself : ∀ x ∈ p.nodes, x.id = j.id → OnPath j x := by
    intro x hx hid
    rw [hp.eq_of_id hx hj hid]
    exact hpath
  fun_induction enter j.id w cur with
  | case1 w ref e =>
    cases h
    exact ⟨hself _ hcur rfl, .inl rfl⟩
  | case2 w k ref e hne ih =>
    have hin : e ∈ (Code.withExpr k ref e).inside := Code.child_inside (List.mem_singleton.mpr rfl)
    obtain ⟨he, h⟩ := ih (Program.mem_of_inside hcur hin) h
    refine ⟨⟨Forest.nodes_subset (Code.inside_subset hin) he.mem, rfl, rfl, rfl⟩, .inr ?_⟩
    rcases h with rfl | ⟨hw, hbody⟩
    · exact ⟨Forest.mem_nodes_self _, he⟩
    · exact ⟨Forest.nodes_subset (Code.inside_subset hin) hw, hbody⟩
  | case3 w k ref params e arguments =>
    cases h
    exact ⟨hself _ hcur rfl, .inl rfl⟩
  | case4 w m k ref params e arguments hne ih =>
    have hin : e ∈ (Code.jump m (.continuation k ref params e) arguments).inside :=
      Forest.inside_of_mem (Code.inside_subset (Code.child_inside List.mem_cons_self))
        (Code.child_inside (List.mem_singleton.mpr rfl))
    obtain ⟨he, h⟩ := ih (Program.mem_of_inside hcur hin) h
    refine ⟨⟨Forest.nodes_subset (Code.inside_subset hin) he.mem, rfl, rfl, rfl⟩, ?_⟩
    exact h.imp_right fun ⟨hw, hbody⟩ =>
      ⟨Forest.nodes_subset (Code.inside_subset hin) hw, hbody⟩
  | case5 w cur _ _ hid =>
    cases h
    exact ⟨hself _ hcur hid, .inl rfl⟩
  | case6 => cases h

/-! ### Where they are -/

/-- The continuation or the `with` expression that an initialized jump goes to holds something that
has been initialized. -/
theorem LoopOk.exists_initialized_target (hp : p.WellFormed) (hok : LoopOk p inits p.exprs st F)
    (hn : n ∈ p.nodes) (hgen : F.generator n.id ≠ none) (hd : p.shortCircuit n.id = some w) :
    ∃ m ∈ w.nodes, F.generator m.id ≠ none := by
  have key : ∀ j ∈ p.nodes, F.generator j.id ≠ none → j.directTarget = some w →
      ∃ m ∈ w.nodes, F.generator m.id ≠ none := by
    intro j hj hgen hjw
    obtain ⟨e, st', g, call, offset, subs, placed, h⟩ :=
      hok.exists_callRun hp hj hgen (Code.child_inside (Code.directTarget_mem hjw))
    unfold Code.directTarget at hjw
    split at hjw
    · next m k ref params body arguments =>
      cases hjw
      have hcall := h.called
      cases hcall
      refine ⟨body, ?_, h.generated hp List.mem_cons_self⟩
      exact Code.inside_subset (Code.child_inside (List.mem_singleton.mpr rfl))
    · cases hjw
  rcases (hp.shortCircuit n hn w hd).2 with (hin | ⟨j, hj, hjw, hnj⟩) | hdirect
  · exact ⟨n, Code.inside_subset hin, hgen⟩
  · apply key j hj _ hjw
    obtain ⟨hif, hbase, hcont⟩ := Code.plain_of_directTarget hjw
    apply (hok.initialized_or_direct hp hj (Code.inside_subset (Code.arguments_subset hnj)) hgen hif
      hbase).resolve_right
    rintro ⟨i, _, hij⟩
    rw [Code.directTarget_isContinuation hij] at hcont
    cases hcont
  · exact key n hn hgen hdirect

section

variable (hp : p.WellFormed) (happ : p.Applied) {fuel : Nat}
  (hF : initializeProgram p inits fuel = some F)

include hp happ hF

theorem assigned_aug (hn : n ∈ p.nodes) (hgen : F.generator n.id ≠ none) :
    Assigned F (F.aug n) :=
  assigned_of_uses hp happ hF hn (Forest.mem_nodes_self n) hgen
    ((initializeProgram_ok hp hF).inv.aug n hn).1 (.inl ⟨rfl, hgen⟩)

theorem assigned_parameters (hw : w ∈ p.nodes) (hm : m ∈ w.nodes) (hgm : F.generator m.id ≠ none) :
    ∀ b ∈ F.parameters w.id, Assigned F b := by
  intro b hb
  have hmode : b.mode = .value := by
    rcases (initializeProgram_ok hp hF).inv.parameters w hw b hb with hb | hb
    · obtain ⟨_, _, hmode, _⟩ := Code.mem_parameters hb
      exact hmode
    · exact hb.1
  exact assigned_of_uses hp happ hF hw hm hgm hmode (.inr (.inr hb))

omit happ in
/-- What is in memory from the start stays there. -/
theorem assigned_prepared (hmode : b.mode = .reference)
    (h : ((prepared p).bndg b).storage ≠ .nil) : Assigned F b := by
  intro _
  rw [(initializeProgram_ok hp hF).reference b hmode]
  exact h

omit happ in
theorem assigned_label (k : NodeId) (i : Nat) : Assigned F (.label k i) := by
  apply assigned_prepared hp hF rfl
  apply (keepsPlace_prepare p p.exprs (-words 1) (Store.initial p)).bndg
  exact nofun

omit happ in
theorem assigned_construct (hw : w ∈ p.nodes) (hc : w.isConstruct = true) :
    Assigned F w.reference := by
  apply assigned_prepared hp hF _ (prepare_construct hw hc (-words 1))
  cases w with
  | storage _ _ _ | function _ _ _ _ | continuation _ _ _ _ | withExpr _ _ _ => rfl
  | literal _ _ | symbol _ _ | invoke _ _ _ | jump _ _ _ | ifExpr _ _ _ _ | constrain _ _ =>
    cases hc

theorem assigned_symbol {k : NodeId} {binding : Scope.Binding} (hn : .symbol k binding ∈ p.nodes)
    (hgen : F.generator k ≠ none) : Assigned F (F.symbolReference k) := by
  cases hmode : (F.symbolReference k).mode with
  | value =>
    exact assigned_of_uses (m := .symbol k binding) hp happ hF hn (Forest.mem_nodes_self _) hgen
      hmode (.inr (.inl ⟨rfl, rfl⟩))
  | reference =>
    have hnamed : (Store.initial p).symbolReference k = .named binding :=
      (fields_initial hp).reference _ hn rfl
    rcases (generator_invoke hp hF).1 k with heq | ⟨_, hvalue⟩
    · rw [heq, hnamed] at hmode ⊢
      exact assigned_prepared hp hF hmode (prepare_symbol hp hn hmode (-words 1))
    · rw [hmode] at hvalue
      cases hvalue

/-- The `with` expression in whose place a jump stands has a body that has been initialized. -/
theorem assigned_enter (hk : p.Known) {target : Code} {arguments : List Code} {k : NodeId}
    {dest w' : Code} (hn : .jump k target arguments ∈ p.nodes)
    (hgen : F.generator k ≠ none) (hd : p.shortCircuit k = some dest)
    (h : enter k dest dest = some w') : Assigned F (F.aug w'.withBody) := by
  have hdp := (hp.shortCircuit _ hn dest hd).1
  have hpath : OnPath (.jump k target arguments) (.jump k target arguments) :=
    ⟨Forest.mem_nodes_self _, rfl, rfl, rfl⟩
  have hbody : w'.withBody ∈ p.nodes ∧ OnPath (.jump k target arguments) w'.withBody := by
    have ht := (hk.target hn hd).1
    cases dest with
    | withExpr m ref e =>
      have hin : e ∈ (Code.withExpr m ref e).inside :=
        Code.child_inside (List.mem_singleton.mpr rfl)
      have hep := Program.mem_of_inside hdp hin
      have hne : m ≠ k := by
        intro hmk
        have heq : Code.withExpr m ref e = .jump k target arguments := hp.eq_of_id hdp hn hmk
        cases heq
      have h : enter k (.withExpr m ref e) e = some w' := by
        unfold enter at h
        rw [if_neg hne] at h
        exact h
      obtain ⟨he, h⟩ := enter_spec hp hn hpath hep h
      rcases h with rfl | ⟨hw, hbody⟩
      · exact ⟨hep, he⟩
      · refine ⟨?_, hbody⟩
        have hwp := Program.mem_of_mem_nodes hep hw
        cases w' with
        | withExpr _ _ e' =>
          exact Program.mem_of_inside hwp (Code.child_inside (List.mem_singleton.mpr rfl))
        | _ => exact hwp
    | continuation m ref params e =>
      have hnone := enter_continuation (j := .jump k target arguments) rfl
        (isContinuation_ne hp hn hdp rfl) (.continuation m ref params e)
      have h : enter (Code.jump k target arguments).id (.continuation m ref params e)
        (.continuation m ref params e) = some w' := h
      rw [hnone] at h
      cases h
    | _ => cases ht
  obtain ⟨hbp, hon⟩ := hbody
  apply assigned_aug hp happ hF hbp
  apply ((initializeProgram_ok hp hF).initialized_or_direct hp hbp hon.mem hgen hon.isIf
    hon.base).resolve_right
  rintro ⟨i, _, hij⟩
  have hcont := hon.isContinuation
  rw [Code.directTarget_isContinuation hij] at hcont
  cases hcont

end

/-! ### The bindings of what is initialized -/

section

variable (hp : p.WellFormed) (hk : p.Known) (happ : p.Applied) {fuel : Nat}
  (hF : initializeProgram p inits fuel = some F) {raw : Nat}

include hp hk happ hF

theorem assigned_jumpBndgs {k : NodeId} {target : Code} {arguments : List Code}
    (hn : .jump k target arguments ∈ p.nodes) (hgen : F.generator k ≠ none)
    (harguments : ∀ a ∈ arguments, Assigned F (F.aug a))
    (htarget : target.isContinuation = false → Assigned F (F.aug target)) :
    ∀ b ∈ jumpBndgs p F k target arguments, Assigned F b := by
  have hok := initializeProgram_ok hp hF
  have hargs : ∀ b ∈ arguments.map F.aug, Assigned F b := by
    intro b hb
    obtain ⟨a, ha, rfl⟩ := List.mem_map.mp hb
    exact harguments a ha
  have hparams : ∀ dest, p.shortCircuit k = some dest →
      ∀ b ∈ instrBndg dest.id :: arguments.map F.aug ++ F.parameters dest.id, Assigned F b := by
    intro dest hd b hb
    obtain ⟨m, hm, hgm⟩ := hok.exists_initialized_target hp hn hgen hd
    rcases List.mem_append.mp hb with hb | hb
    · rcases List.mem_cons.mp hb with rfl | hb
      · exact assigned_label hp hF _ _
      · exact hargs b hb
    · exact assigned_parameters hp happ hF (hp.shortCircuit _ hn dest hd).1 hm hgm b hb
  unfold jumpBndgs
  dsimp only
  split
  · next bndgs hdirect =>
    split at hdirect
    · next m ref params body =>
      split at hdirect
      · cases hdirect
      · cases hdirect
        exact hparams (.continuation m ref params body) (hp.direct _ hn _ rfl)
    · cases hdirect
  · split
    · next w' hw =>
      obtain ⟨dest, hd, henter⟩ := Option.bind_eq_some_iff.mp hw
      intro b hb
      rcases List.mem_cons.mp hb with rfl | hb
      · exact assigned_enter hp happ hF hk hn hgen hd henter
      · obtain ⟨a, ha, rfl⟩ := Option.map_eq_some_iff.mp (Option.mem_toList.mp hb)
        exact harguments a (List.mem_of_mem_head? ha)
    · split
      · next dest hd => exact hparams dest hd
      · next hnone =>
        intro b hb
        rcases List.mem_cons.mp hb with rfl | hb
        · apply htarget
          cases target with
          | continuation m ref params body =>
            cases hnone.symm.trans (hp.direct _ hn (.continuation m ref params body) rfl)
          | _ => rfl
        · exact hargs b hb

/-- The bindings that a generator looks at have locations if they are read. -/
theorem assigned_bndgsOf (hn : n ∈ p.nodes) {g : ExprGenerator} (hg : F.generator n.id = some g) :
    ∀ b ∈ bndgsOf p F raw n g, Assigned F b := by
  have hok := initializeProgram_ok hp hF
  have hgen : F.generator n.id ≠ none := hg ▸ Option.some_ne_none g
  have hself : Assigned F (F.aug n) := assigned_aug hp happ hF hn hgen
  obtain ⟨e, he, hne, hrun⟩ := hok.runs n hn hgen
  rcases hrun.cases hp with ⟨k, binding, rfl, hg'⟩ | ⟨k, value, rfl, hg'⟩ |
    ⟨st, g', call, offset, subs, placed, h⟩
  · cases hg.symm.trans hg'
    rw [show bndgsOf p F raw (.symbol k binding) .symbol =
      [F.bindingAug k, F.symbolReference k] from rfl, List.forall_mem_cons]
    exact ⟨hself, List.forall_mem_singleton.mpr (assigned_symbol hp happ hF hn hgen)⟩
  · cases hg.symm.trans hg'
    exact List.forall_mem_singleton.mpr hself
  · cases hg.symm.trans h.generator
    have hcalled : ∀ c ∈ call.exprs, Assigned F (F.aug c) := fun c hc =>
      assigned_aug hp happ hF (h.ready.inside_mem (h.waiting.inside c hc)) (h.generated hp hc)
    have hparams := assigned_parameters hp happ hF hn (Forest.mem_nodes_self n) hgen
    have hcall := h.called
    cases n with
    | function m ref params body =>
      cases hcall
      intro b hb
      rcases List.mem_cons.mp hb with rfl | hb
      · exact hself
      rcases List.mem_cons.mp hb with rfl | hb
      · exact assigned_construct hp hF hn rfl
      rcases List.mem_cons.mp hb with rfl | hb
      · exact hcalled body List.mem_cons_self
      · exact hparams b hb
    | continuation m ref params body =>
      cases hcall
      intro b hb
      rcases List.mem_cons.mp hb with rfl | hb
      · exact assigned_label hp hF _ _
      split at hb
      · rcases List.mem_pair.mp hb with rfl | rfl
        · exact hself
        · exact assigned_construct hp hF hn rfl
      · cases hb
    | withExpr m ref body =>
      obtain ⟨call', hwith, heq⟩ := Option.map_eq_some_iff.mp hcall
      cases heq
      obtain ⟨st', _, heq⟩ := Option.bind_eq_some_iff.mp hwith
      cases heq
      intro b hb
      rcases List.mem_append.mp hb with hb | hb
      · rcases List.mem_cons.mp hb with rfl | hb
        · exact assigned_label hp hF _ _
        rcases List.mem_cons.mp hb with rfl | hb
        · exact hself
        rcases List.mem_cons.mp hb with rfl | hb
        · exact hcalled body List.mem_cons_self
        · exact hparams b (List.mem_of_mem_head? (Option.mem_toList.mp hb))
      · split at hb
        · rw [List.mem_singleton.mp hb]
          exact assigned_construct hp hF hn rfl
        · cases hb
    | storage m ref arguments =>
      cases hcall
      intro b hb
      rcases List.mem_pair.mp hb with rfl | rfl
      · exact hself
      · exact assigned_construct hp hF hn rfl
    | jump m target arguments =>
      obtain ⟨call', hjump, heq⟩ := Option.map_eq_some_iff.mp hcall
      cases heq
      have hexprs : arguments ⊆ call.exprs ∧
          (target.isContinuation = false → target ∈ call.exprs) := by
        unfold initializeJump at hjump
        split at hjump
        · cases hjump
          exact ⟨List.subset_cons_self _ _, nofun⟩
        · split at hjump
          · obtain ⟨arg, _, rfl⟩ := Option.map_eq_some_iff.mp hjump
            exact ⟨List.subset_cons_self _ _, fun _ => List.mem_cons_self⟩
          · cases hjump
            exact ⟨List.subset_cons_self _ _, fun _ => List.mem_cons_self⟩
      exact assigned_jumpBndgs hp hk happ hF hn hgen (fun a ha => hcalled a (hexprs.1 ha))
        fun hc => hcalled target (hexprs.2 hc)
    | invoke m target arguments =>
      unfold callOf at hcall
      dsimp only at hcall
      split at hcall
      · next g' hintrinsic =>
        obtain ⟨_, hcall, heq⟩ := Option.map_eq_some_iff.mp hcall
        cases heq
        intro b hb
        rcases List.mem_cons.mp hb with rfl | hb
        · exact hself
        · obtain ⟨x, hx, rfl⟩ := List.mem_map.mp hb
          exact hcalled x (intrinsicOperands_subset hcall hx)
      · cases hcall
        intro b hb
        rcases List.mem_append.mp hb with hb | hb
        · rcases List.mem_cons.mp hb with rfl | hb
          · exact hself
          · split at hb
            · next hsymbol =>
              obtain ⟨k, binding, rfl⟩ := Code.eq_symbol hsymbol
              rw [List.mem_singleton.mp hb]
              exact assigned_symbol hp happ hF (h.ready.inside_mem (Code.child_inside
                List.mem_cons_self)) (h.generated hp List.mem_cons_self)
            · cases hb
        · obtain ⟨x, hx, rfl⟩ := List.mem_map.mp hb
          exact hcalled x hx
    | ifExpr m condition consequent alternate =>
      cases hcall
      intro b hb
      rcases List.mem_cons.mp hb with rfl | hb
      · exact hself
      rcases List.mem_cons.mp hb with rfl | hb
      · exact hcalled consequent List.mem_cons_self
      rcases List.mem_cons.mp hb with rfl | hb
      · exact hcalled alternate (List.mem_cons_of_mem _ List.mem_cons_self)
      · obtain ⟨x, hx, rfl⟩ := List.mem_map.mp hb
        exact hcalled x (List.mem_cons_of_mem _ (List.mem_cons_of_mem _
          (expressionsOf_genCond m condition [] st hx)))
    | constrain m body =>
      cases hcall
      intro b hb
      rcases List.mem_pair.mp hb with rfl | rfl
      · exact hself
      · exact hcalled body List.mem_cons_self
    | symbol _ _ | literal _ _ => cases hcall

/-- Initialization covers what is generated exactly if each jump whose own target escapes is in a
store that is skipped. -/
theorem covers_iff : Covers p raw F ↔ Sheltered p inits := by
  have hok := initializeProgram_ok hp hF
  constructor
  · intro hcovers j hj c hc hesc
    by_contra hnone
    have hgen : ∀ x, Reached p F raw x → F.generator x.id ≠ none := by
      intro x hx
      obtain ⟨g, hg, _⟩ := hcovers x hx
      rw [hg]
      exact Option.some_ne_none g
    obtain ⟨e, he, hje⟩ := Forest.mem_nodesOf.mp hj
    have hreached : Reached p F raw j := by
      apply reached_jump hp hk happ hF raw hgen (hc ▸ Option.some_ne_none c) _ e (.root he) hje
      exact fun s hs hjs hskip => hnone ⟨s, hs, hjs, hskip⟩
    obtain ⟨hrc, hgc⟩ := hok.reached_target hp hreached (hgen j hreached) hc hesc
    exact hgen c hrc hgc
  · intro hsheltered n hn
    obtain ⟨hgen, _⟩ := reached_generated hp (happ.withsApplied hk) hF raw hsheltered hn
    obtain ⟨g, hg⟩ := Option.ne_none_iff_exists'.mp hgen
    obtain ⟨e, he, hne⟩ := hn.mem_nodes
    exact ⟨g, hg, assigned_bndgsOf hp hk happ hF (Program.mem_of_root he hne) hg⟩

end

/-! ## Analyzed programs -/

variable {escaping : Bool}

theorem applied_of_jump (hp : p.WellFormed) (hj : calledJump escaping ∈ p.nodes)
    (hshort : ∀ n, p.shortCircuit n = if n = 0 then some (jumpTarget escaping) else none) :
    p.Applied := by
  intro j hjp dest hd
  rw [hshort] at hd
  split at hd
  · next hid =>
    cases hd
    rw [hp.eq_of_id hjp hj hid]
    rfl
  · cases hd

theorem applied_jumpProgram : (jumpProgram escaping).Applied :=
  applied_of_jump wellFormed_jumpProgram (by rw [nodes_jumpProgram]; simp) shortCircuit_jumpProgram

theorem not_sheltered_jumpProgram : ¬ Sheltered (jumpProgram true) inits := by
  intro h
  have hj : calledJump true ∈ (jumpProgram true).nodes := by
    rw [nodes_jumpProgram]
    simp
  obtain ⟨s, hs, hjs, -⟩ := h _ hj (jumpTarget true) rfl (escapes_jumpProgram 1)
  obtain ⟨e, he, hse⟩ := Forest.mem_nodesOf.mp hs
  rw [List.mem_singleton.mp he] at hse
  exact Forest.notMem_below hjs hse

theorem set_name : "set8b" ≠ "" := by decide

theorem sum_name : "+" ≠ "" := by decide

def setBndg : Scope.Binding := .undefined ⟨"set8b", set_name⟩

def sumBndg : Scope.Binding := .undefined ⟨"+", sum_name⟩

/-- The store `[set8b [+ 4096 {(continuation k (x) [f k]) 5}] 7]`. -/
def storedJump : Code :=
  .invoke 6 (.symbol 7 setBndg)
    [.invoke 8 (.symbol 9 sumBndg) [.literal 10 4096, calledJump true], .literal 11 7]

def storeProgram : Program := analyzed [storedJump]

theorem nodes_storeProgram : storeProgram.nodes =
    .symbol 7 setBndg :: .symbol 9 sumBndg :: .literal 10 4096 :: (jumpProgram true).nodes ++
      [.invoke 8 (.symbol 9 sumBndg) [.literal 10 4096, calledJump true], .literal 11 7,
        storedJump] := rfl

theorem shortCircuit_storeProgram (n : NodeId) :
    storeProgram.shortCircuit n = if n = 0 then some (jumpTarget true) else none := by
  show (List.find? (fun e => decide (e.1 = n)) [(0, 1)]).bind _ = _
  by_cases hn : n = 0
  · subst hn
    rfl
  · rw [if_neg hn, List.find?_cons_of_neg (by simpa using Ne.symm hn)]
    rfl

theorem mem_storeProgram (h : n ∈ (jumpProgram true).nodes) : n ∈ storeProgram.nodes := by
  rw [nodes_storeProgram]
  simp [h]

theorem wellScoped_storeProgram : WellScoped [storedJump] := by
  have hsymbol : ∀ n b, Code.symbol n b ∈ storeProgram.nodes →
      (∃ name, b = .undefined name) ∨ n = 4 ∧ b = targetBndg := by
    intro n b h
    rw [nodes_storeProgram] at h
    simp only [List.cons_append, List.mem_cons, List.mem_append, Code.symbol.injEq,
      List.not_mem_nil, or_false, reduceCtorEq, false_or] at h
    rcases h with ⟨_, rfl⟩ | ⟨_, rfl⟩ | h | h
    · exact .inl ⟨_, rfl⟩
    · exact .inl ⟨_, rfl⟩
    · rcases symbol_jumpProgram h with ⟨_, rfl⟩ | h
      · exact .inl ⟨_, rfl⟩
      · exact .inr h
    · cases h
  have htarget : jumpTarget true ∈ storeProgram.nodes := mem_storeProgram target_mem_jumpProgram
  refine ⟨by decide, ?_, ?_⟩
  · intro n b hn hm
    rcases hsymbol n b hn with ⟨_, rfl⟩ | ⟨_, rfl⟩ <;> cases hm
  · intro n b hn hm
    rcases hsymbol n b hn with h | ⟨rfl, rfl⟩
    · exact .inl h
    · refine .inr ⟨_, htarget, rfl, rfl, fun _ => ?_⟩
      show Code.symbol 4 targetBndg ∈ [Code.symbol 3 _, Code.symbol 4 targetBndg, _]
      simp

theorem initialized_storeProgram :
    (initializeProgram storeProgram [.arithmetic] 6).isSome = true := by decide +kernel

theorem sheltered_storeProgram : Sheltered storeProgram [.arithmetic] := by
  intro j hj c hc _
  have hjump : j = calledJump true := by
    rw [nodes_storeProgram, nodes_jumpProgram] at hj
    simp only [List.cons_append, List.nil_append, List.mem_cons, List.not_mem_nil, or_false] at hj
    rcases hj with rfl | rfl | rfl | rfl | rfl | rfl | rfl | rfl | rfl | rfl | rfl | rfl
    all_goals first | rfl | cases hc
  refine ⟨storedJump, ?_, ?_, ?_⟩
  · rw [nodes_storeProgram]
    simp
  · rw [hjump]
    have haddress : Code.invoke 8 (.symbol 9 sumBndg) [.literal 10 4096, calledJump true] ∈
        storedJump.inside := Code.child_inside (List.mem_cons_of_mem _ List.mem_cons_self)
    apply Forest.inside_of_mem (Code.inside_subset haddress)
    exact Code.child_inside (List.mem_cons_of_mem _ (List.mem_cons_of_mem _ List.mem_cons_self))
  · exact ⟨List.cons_ne_nil _ _, "set8b", _, 4096, _, rfl, by decide, by decide⟩

theorem applied_storeProgram : storeProgram.Applied :=
  applied_of_jump wellScoped_storeProgram.wellFormed
    (mem_storeProgram (by rw [nodes_jumpProgram]; simp)) shortCircuit_storeProgram

end L2.SelfHost
