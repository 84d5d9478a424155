import L2.SelfHost.Coverage

/-!
# The calls in which expressions are initialized

What has been initialized has been in the call of an initializer above it, or is at the top.
Initializers pass over a few expressions, which stand between their own and those in the call.
The bindings of a call have been assigned locations there, and they keep them.
-/

namespace L2.SelfHost

open X86 (Word)
open Graph

variable {p : Program} {inits : List Intrinsics} {e n m u v w c o : Code} {b : BndgId}
  {st F : Store}

/-! ## Who has called the initializer -/

section

variable (hp : p.WellFormed) (hok : LoopOk p inits p.exprs st F)

include hp hok

/-- What has been initialized and has something below it has made a call. -/
theorem LoopOk.exists_callRun (hn : n ∈ p.nodes) (hgen : F.generator n.id ≠ none)
    (hm : m ∈ n.inside) :
    ∃ e st g call offset subs placed, CallRun p inits e n F st g call offset subs placed := by
  obtain ⟨e, -, -, hrun⟩ := hok.runs n hn hgen
  rcases hrun.cases hp with ⟨_, _, rfl, _⟩ | ⟨_, _, rfl, _⟩ |
    ⟨st', g, call, offset, subs, placed, h⟩
  · cases hm
  · cases hm
  · exact ⟨e, st', g, call, offset, subs, placed, h⟩

/-- What is initialized below `n` is in its call, or below something there. -/
theorem LoopOk.exists_caller_inside (n : Code) : n ∈ p.nodes → F.generator n.id ≠ none →
    m ∈ n.inside → F.generator m.id ≠ none →
      ∃ n' e st g call offset subs placed,
        CallRun p inits e n' F st g call offset subs placed ∧ m ∈ call.exprs := by
  induction n using Forest.induction_below with
  | step n ih =>
    intro hn hgen hm hgm
    obtain ⟨e, st', g, call, offset, subs, placed, h⟩ := hok.exists_callRun hp hn hgen hm
    obtain ⟨c, hc, hmc⟩ := Forest.mem_nodesOf.mp (h.only hp hm hgm)
    rcases Code.mem_nodes_iff.mp hmc with hmc | rfl
    · exact ih c (h.waiting.inside c hc) (Program.mem_of_inside hn (h.waiting.inside c hc))
        (h.generated hp hc) hmc hgm
    · exact ⟨n, e, st', g, call, offset, subs, placed, h, hc⟩

theorem LoopOk.exists_caller (hm : m ∈ p.nodes) (hgen : F.generator m.id ≠ none) :
    m ∈ p.exprs ∨ ∃ n e st g call offset subs placed,
      CallRun p inits e n F st g call offset subs placed ∧ m ∈ call.exprs := by
  obtain ⟨e, he, hme⟩ := Forest.mem_nodesOf.mp hm
  rcases Code.mem_nodes_iff.mp hme with hme | rfl
  · exact .inr (hok.exists_caller_inside hp e
      (Program.mem_of_root he (Forest.mem_nodes_self e)) (hok.generated e he) hme hgen)
  · exact .inl he

/-- What has something below it that has been initialized has been initialized itself, or stands
between a call and an expression in it. -/
theorem LoopOk.between_inside (n : Code) : n ∈ p.nodes → F.generator n.id ≠ none →
    w ∈ n.inside → m ∈ w.inside → F.generator m.id ≠ none → F.generator w.id ≠ none ∨
      ∃ n' e st g call offset subs placed,
        CallRun p inits e n' F st g call offset subs placed ∧ w ∈ n'.inside ∧
          ∃ c ∈ call.exprs, c ∈ w.inside := by
  induction n using Forest.induction_below with
  | step n ih =>
    intro hn hgen hw hm hgm
    have hmn : m ∈ n.inside := Forest.inside_of_mem (Code.inside_subset hw) hm
    obtain ⟨e, st', g, call, offset, subs, placed, h⟩ := hok.exists_callRun hp hn hgen hmn
    obtain ⟨c, hc, hmc⟩ := Forest.mem_nodesOf.mp (h.only hp hmn hgm)
    have hcn := h.waiting.inside c hc
    have hcp := Program.mem_of_inside hn hcn
    rcases Forest.nested hp.nodup_nodes hcp (Program.mem_of_inside hn hw) hmc
      (Code.inside_subset hm) with hcw | hwc
    · rcases Code.mem_nodes_iff.mp hcw with hcw | rfl
      · exact .inr ⟨n, e, st', g, call, offset, subs, placed, h, hw, c, hc, hcw⟩
      · exact .inl (h.generated hp hc)
    · rcases Code.mem_nodes_iff.mp hwc with hwc | rfl
      · exact ih c hcn hcp (h.generated hp hc) hwc hm hgm
      · exact .inl (h.generated hp hc)

theorem LoopOk.between (hw : w ∈ p.nodes) (hm : m ∈ w.inside) (hgm : F.generator m.id ≠ none) :
    F.generator w.id ≠ none ∨ ∃ n e st g call offset subs placed,
      CallRun p inits e n F st g call offset subs placed ∧ w ∈ n.inside ∧
        ∃ c ∈ call.exprs, c ∈ w.inside := by
  obtain ⟨e, he, hwe⟩ := Forest.mem_nodesOf.mp hw
  rcases Code.mem_nodes_iff.mp hwe with hwe | rfl
  · exact hok.between_inside hp e (Program.mem_of_root he (Forest.mem_nodes_self e))
      (hok.generated e he) hwe hm hgm
  · exact .inl (hok.generated w he)

end

/-! ## What stands between -/

/-- The parent of an expression is at or below what the expression is below. -/
theorem Program.WellFormed.parent_inside (hp : p.WellFormed) (hn : n ∈ p.nodes)
    (hc : c ∈ n.children) (hw : w ∈ p.nodes) (hcw : c ∈ w.inside) : n ∈ w.nodes :=
  hp.parent_mem hn hw hc (Code.inside_subset hcw) (Forest.ne_of_below hcw)

/-- Nothing stands between an expression and its children. -/
theorem Program.WellFormed.not_between (hp : p.WellFormed) (hn : n ∈ p.nodes)
    (hc : c ∈ n.children) (hw : w ∈ n.inside) : c ∉ w.inside := by
  intro hcw
  exact Forest.notMem_below hw (hp.parent_inside hn hc (Program.mem_of_inside hn hw) hcw)

/-- Between an expression and a grandchild there is the child alone. -/
theorem Program.WellFormed.between_child (hp : p.WellFormed) (hn : n ∈ p.nodes)
    (hx : u ∈ n.children) (hc : c ∈ u.children) (hw : w ∈ n.inside) (hcw : c ∈ w.inside) :
    w = u := by
  have hwp := Program.mem_of_inside hn hw
  have hup := Program.mem_of_inside hn (Code.child_inside hx)
  rcases Code.mem_nodes_iff.mp (hp.parent_inside hup hc hwp hcw) with h | h
  · exact absurd h (hp.not_between hn hx hw)
  · exact h.symm

def Code.isIf : Code → Bool
  | .ifExpr _ _ _ _ => true
  | _ => false

/-- Between an `if` expression and the conditions of its chain there are only others. -/
theorem genConds_between (hp : p.WellFormed) {n : Code} (conds : List Code) (st : Store) (x : Code)
    (hx : x ∈ p.nodes)
    (hifs : ∀ w ∈ p.nodes, w ∈ n.inside → x ∈ w.inside → w.isIf = true) :
    ∀ c ∈ (genConds conds st x).2, c ∈ conds ∨
      ∀ w ∈ p.nodes, w ∈ n.inside → c ∈ w.inside → w.isIf = true := by
  have key : ∀ (k : NodeId) (condition consequent alternate y : Code),
      .ifExpr k condition consequent alternate ∈ p.nodes →
      (∀ w ∈ p.nodes, w ∈ n.inside →
        .ifExpr k condition consequent alternate ∈ w.inside → w.isIf = true) →
      y ∈ (Code.ifExpr k condition consequent alternate).children →
      ∀ w ∈ p.nodes, w ∈ n.inside → y ∈ w.inside → w.isIf = true := by
    intro k condition consequent alternate y hi hifs hy w hw hwn hyw
    rcases Code.mem_nodes_iff.mp (hp.parent_inside hi hy hw hyw) with h | h
    · exact hifs w hw hwn h
    · rw [← h]
      rfl
  fun_induction genConds conds st x with
  | case1 conds st k condition consequent alternate _ ih =>
    have hcond := key k condition consequent alternate condition hx hifs (by simp [Code.children])
    have halt : alternate ∈ (Code.ifExpr k condition consequent alternate).children := by
      simp [Code.children]
    intro c hc
    rcases ih (Program.mem_of_inside hx (Code.child_inside halt))
      (key k condition consequent alternate alternate hx hifs halt) c hc with h | h
    · rcases List.mem_cons.mp h with rfl | h
      · exact .inr hcond
      · exact .inl h
    · exact .inr h
  | case2 conds st k condition consequent alternate _ _ ih =>
    have hcond := key k condition consequent alternate condition hx hifs (by simp [Code.children])
    have hcons : consequent ∈ (Code.ifExpr k condition consequent alternate).children := by
      simp [Code.children]
    intro c hc
    rcases ih (Program.mem_of_inside hx (Code.child_inside hcons))
      (key k condition consequent alternate consequent hx hifs hcons) c hc with h | h
    · rcases List.mem_cons.mp h with rfl | h
      · exact .inr hcond
      · exact .inl h
    · exact .inr h
  | case3 conds st k condition consequent alternate _ _ =>
    intro c hc
    rcases List.mem_cons.mp hc with rfl | hc
    · exact .inr hifs
    · exact .inl hc
  | case4 conds st x _ =>
    intro c hc
    rcases List.mem_cons.mp hc with rfl | hc
    · exact .inr hifs
    · exact .inl hc

/-- The initializer of an intrinsic is called with arguments, and with the base of an address. -/
theorem exprs_initializeIntrinsic {g : Generator} {arguments : List Code} {call : InitCall}
    (h : initializeIntrinsic st n g arguments = some call) (hc : c ∈ call.exprs) :
    c ∈ arguments ∨ ∃ address, arguments.head? = some address ∧ baseOf address = some c ∧
      (g = .getBaseOffset ∨ g = .setBaseOffset) := by
  unfold initializeIntrinsic at h
  split at h
  · next arg1 =>
    split at h
    · obtain ⟨base, hbase, rfl⟩ := Option.map_eq_some_iff.mp h
      rw [List.mem_singleton.mp hc]
      exact .inr ⟨arg1, rfl, hbase, .inl rfl⟩
    · cases h
      exact .inl hc
    · cases h
  · next arg1 arg2 =>
    split at h
    · obtain ⟨base, hbase, rfl⟩ := Option.map_eq_some_iff.mp h
      rcases List.mem_pair.mp hc with rfl | rfl
      · exact .inr ⟨arg1, rfl, hbase, .inr rfl⟩
      · exact .inl (List.mem_cons_of_mem _ List.mem_cons_self)
    · cases h
      exact .inl (List.mem_cons.mpr (.inl (List.mem_singleton.mp hc)))
    · cases h
      rw [exprs_initializeBinaryOperator] at hc
      exact .inl hc
    · cases h
  · cases h

/-- The three kinds of expressions that an initializer passes over: a continuation that is jumped
to where it stands, an `if` expression in a condition, and an address with an offset. -/
inductive PassedOver (n w c : Code) (g : ExprGenerator) : Prop
  | target (h : n.directTarget = some w)
  | condition (h : w.isIf = true)
  | address (h : baseOf w = some c) (hn : n.arguments.head? = some w)
      (hg : g = .intrinsic .getBaseOffset ∨ g = .intrinsic .setBaseOffset)

theorem CallRun.passedOver {g : ExprGenerator} {call : InitCall} {offset : Word}
    {subs placed : Initialized} (hp : p.WellFormed)
    (h : CallRun p inits e n F st g call offset subs placed) (hc : c ∈ call.exprs)
    (hw : w ∈ n.inside) (hcw : c ∈ w.inside) : PassedOver n w c g := by
  have hn := h.ready.mem_nodes
  have hcall := h.called
  have hwp := h.ready.inside_mem hw
  have hchildren : c ∈ n.children → PassedOver n w c g :=
    fun hc => absurd hcw (hp.not_between hn hc hw)
  cases n with
  | function m ref params body | continuation m ref params body | storage m ref arguments
  | constrain m body =>
    cases hcall
    exact hchildren hc
  | withExpr m ref body =>
    obtain ⟨call', hwith, heq⟩ := Option.map_eq_some_iff.mp hcall
    cases heq
    obtain ⟨st', _, heq⟩ := Option.bind_eq_some_iff.mp hwith
    cases heq
    exact hchildren hc
  | jump m target arguments =>
    obtain ⟨call', hjump, heq⟩ := Option.map_eq_some_iff.mp hcall
    cases heq
    cases target with
    | continuation k ref params body =>
      cases hjump
      rcases List.mem_cons.mp hc with rfl | hc
      · have hwt := hp.between_child hn (u := .continuation k ref params c) List.mem_cons_self
          (List.mem_singleton.mpr rfl) hw hcw
        rw [hwt]
        exact .target rfl
      · exact hchildren (List.mem_cons_of_mem _ hc)
    | _ =>
      unfold initializeJump at hjump
      dsimp only at hjump
      split at hjump
      · obtain ⟨arg, _, rfl⟩ := Option.map_eq_some_iff.mp hjump
        exact hchildren hc
      · cases hjump
        exact hchildren hc
  | invoke m target arguments =>
    unfold callOf at hcall
    dsimp only at hcall
    split at hcall
    · next g' hg =>
      obtain ⟨call', hintrinsic, heq⟩ := Option.map_eq_some_iff.mp hcall
      cases heq
      rcases exprs_initializeIntrinsic hintrinsic hc with hc | ⟨address, hhead, hbase, hkind⟩
      · exact hchildren (List.mem_cons_of_mem _ hc)
      · have haddress : address ∈ (Code.invoke m target arguments).children :=
          List.mem_cons_of_mem _ (List.mem_of_mem_head? hhead)
        have hwa := hp.between_child hn haddress (baseOf_mem hbase).1 hw hcw
        rw [hwa]
        exact .address hbase hhead (hkind.imp (congrArg _) (congrArg _))
    · cases hcall
      exact hchildren hc
  | ifExpr m condition consequent alternate =>
    cases hcall
    have hcond : condition ∈ (Code.ifExpr m condition consequent alternate).children := by
      simp [Code.children]
    rcases List.mem_cons.mp hc with rfl | hc
    · exact hchildren (by simp [Code.children])
    · rcases List.mem_cons.mp hc with rfl | hc
      · exact hchildren (by simp [Code.children])
      · rcases genConds_between hp [] st condition (h.ready.inside_mem (Code.child_inside hcond))
          (fun w _ hw hcw => absurd hcw (hp.not_between hn hcond hw)) c hc with hnil | hifs
        · cases hnil
        · exact .condition (hifs w hwp hw hcw)
  | symbol _ _ | literal _ _ => cases hcall

/-! ## Locations in the end -/

/-- After the locations have been given out only sizes are set. -/
theorem storage_finish (g : ExprGenerator) (n : Code) (offset : Word) (r : Initialized)
    (b : BndgId) : ((finish g n offset r).store.bndg b).storage = (r.store.bndg b).storage := by
  have hset : ∀ st : Store, ((setGenerated g n st).bndg b).storage = (st.bndg b).storage := by
    intro st
    show ((st.modify (st.aug n) (setSize wordSize)).bndg b).storage = _
    by_cases hb : b = st.aug n
    · rw [hb, bndg_modify]
      rfl
    · rw [bndg_modify_of_ne hb]
  unfold finish
  split
  · rw [hset, modifyAll_setSize]
    split
    · rfl
    · rfl
  · exact hset r.store
  · exact hset r.store
  · exact hset r.store

theorem aug_setBindingAugs_mem (hp : p.WellFormed) {us : List Code} (hus : ∀ u ∈ us, u ∈ p.nodes)
    (hnodup : us.Nodup) {bs : List BndgId} (hlen : bs.length ≤ us.length) (hb : b ∈ bs)
    (st : Store) : b ∈ us.map (setBindingAugs st us bs).aug := by
  induction us generalizing bs st with
  | nil =>
    rw [List.eq_nil_of_length_eq_zero (Nat.le_zero.mp hlen)] at hb
    cases hb
  | cons u us ih =>
    cases bs with
    | nil => cases hb
    | cons b' bs =>
      obtain ⟨hu, hnodup⟩ := List.nodup_cons.mp hnodup
      rw [List.map_cons]
      rcases List.mem_cons.mp hb with rfl | hb
      · have hne : ∀ x ∈ us, u.id ≠ x.id := by
          intro x hx hid
          have hux : u = x :=
            hp.eq_of_id (hus u List.mem_cons_self) (hus x (List.mem_cons_of_mem _ hx)) hid
          exact hu (hux ▸ hx)
        apply List.mem_cons.mpr
        left
        show _ = (setBindingAugs (st.setBindingAug u.id b) us bs).aug u
        rw [aug_setBindingAugs hne, aug_setBindingAug]
      · exact List.mem_cons_of_mem _ (ih (fun x hx => hus x (List.mem_cons_of_mem _ hx)) hnodup
          (Nat.le_of_succ_le_succ hlen) hb _)

namespace CallRun

variable {g : ExprGenerator} {call : InitCall} {offset : Word} {subs placed : Initialized}
  (h : CallRun p inits e n F st g call offset subs placed)
include h

theorem depth : subs.store.depth = st.depth :=
  h.subsOk.step.frame.depth.trans h.ok.step.frame.depth

theorem isRead (hp : p.WellFormed) (b : BndgId) :
    (F.bndg b).isRead = (subs.store.bndg b).isRead := by
  obtain ⟨storage, size, hb⟩ := (h.moved hp).kept b
  rw [h.agree.isRead b, hb]

/-- A binding that is read and deep enough has been assigned a location in the call, and that
is still there. -/
theorem assigned (hp : p.WellFormed)
    (hb : b ∈ call.exprs.map subs.store.aug ∧ st.depth n.id + 1 ≤ st.bndgDepth b ∨
      b ∈ call.bndgs ∧ st.depth n.id ≤ st.bndgDepth b)
    (hmode : b.mode = .value) (hown : Owned n b) (hne : b ≠ .value n.id)
    (hread : (F.bndg b).isRead = true) : (F.bndg b).storage ≠ .nil := by
  rw [h.agree.bndg b hmode hown hne, storage_finish]
  have hdepth : subs.store.bndgDepth b = st.bndgDepth b := by
    unfold Store.bndgDepth
    rw [h.depth]
  apply (locate_ok h.located).1.assigned
  refine ⟨?_, h.isRead hp b ▸ hread⟩
  rw [hdepth]
  exact hb

/-- The parameters of a construct are in the call of its initializer. -/
theorem bndgs_eq (hp : p.WellFormed) (hn : n.parameters ≠ []) :
    call.bndgs = F.parameters n.id := by
  have hsame : F.parameters n.id = call.store.parameters n.id := by
    rw [parameters_of_fields (h.agree.fields n (Forest.mem_nodes_self n)),
      (h.moved hp).names.2.2, parameters_of_fields (h.self hp)]
  rw [hsame]
  apply h.ok.bndgs.resolve_left
  have hnodes := h.ready.mem_nodes
  have harity := h.ready.inv.arity n hnodes
  have harity' := (h.ok.step.inv h.ready.inv).arity n hnodes
  have hne : ∀ bs : List BndgId, bs.length = n.parameters.length → bs ≠ [] := by
    rintro bs hlen rfl
    exact hn (List.eq_nil_of_length_eq_zero hlen.symm)
  have hcall := h.called
  cases n with
  | function m ref params body | continuation m ref params body =>
    cases hcall
    exact hne _ harity
  | withExpr m ref body =>
    obtain ⟨call', hwith, heq⟩ := Option.map_eq_some_iff.mp hcall
    cases heq
    obtain ⟨st', _, heq⟩ := Option.bind_eq_some_iff.mp hwith
    cases heq
    exact hne _ harity'
  | literal _ _ | symbol _ _ | storage _ _ _ | invoke _ _ _ | jump _ _ _ | ifExpr _ _ _ _
  | constrain _ _ => exact absurd rfl hn

end CallRun

section

variable (hp : p.WellFormed) (hok : LoopOk p inits p.exprs st F)

include hp hok

/-- The value of what has been initialized has a location if it is read, unless it is that of the
whole expression at the top. -/
theorem LoopOk.value_assigned (ho : o ∈ p.nodes) (hgen : F.generator o.id ≠ none)
    (haug : F.aug o = .value o.id) (hroot : o ∉ p.exprs)
    (hread : (F.bndg (.value o.id)).isRead = true) : (F.bndg (.value o.id)).storage ≠ .nil := by
  obtain ⟨n, e, st', g, call, offset, subs, placed, h, hc⟩ :=
    (hok.exists_caller hp ho hgen).resolve_left hroot
  have hin := h.waiting.inside o hc
  have hlt := h.ready.deep.lt h.ready.mem hin
  apply h.assigned hp (.inl ⟨?_, ?_⟩) rfl _ _ hread
  · apply List.mem_map.mpr
    refine ⟨o, hc, ?_⟩
    rw [← aug_of_fields ((h.below hp hc).fields o (Forest.mem_nodes_self o)), haug]
  · exact hlt
  · exact (owned_value o).mono (Code.inside_subset hin)
  · intro heq
    exact Forest.ne_of_below hin (hp.eq_of_id ho h.ready.mem_nodes (BndgId.value.inj heq))

/-- And so has a parameter of a construct that has been initialized. -/
theorem LoopOk.parameter_assigned (hw : w ∈ p.nodes) (hgen : F.generator w.id ≠ none)
    (hb : b ∈ w.parameters) (hhome : b ∈ F.parameters w.id)
    (hread : (F.bndg b).isRead = true) : (F.bndg b).storage ≠ .nil := by
  obtain ⟨binding, rfl, hmode, hexp⟩ := Code.mem_parameters hb
  obtain ⟨m, hm⟩ := List.exists_mem_of_ne_nil _
    (hok.inv.inside_ne_nil hw (List.ne_nil_of_mem hhome))
  obtain ⟨e, st', g, call, offset, subs, placed, h⟩ := hok.exists_callRun hp hw hgen hm
  apply h.assigned hp (.inr ⟨?_, ?_⟩) hmode ⟨w, Forest.mem_nodes_self w, hexp⟩ nofun hread
  · rw [h.bndgs_eq hp (List.ne_nil_of_mem hb)]
    exact hhome
  · unfold Store.bndgDepth
    rw [hexp]
    exact Nat.le_refl _

end

/-- The arguments of a jump are in the place of the parameters of a target that stands there. -/
theorem CallRun.target_assigned {g : ExprGenerator} {call : InitCall} {offset : Word}
    {subs placed : Initialized} (hp : p.WellFormed)
    (h : CallRun p inits e n F st g call offset subs placed) (hd : n.directTarget = some w)
    (hlen : w.parameters.length ≤ n.arguments.length) (hb : b ∈ w.parameters)
    (hhome : b ∈ F.parameters w.id) (hread : (F.bndg b).isRead = true) :
    (F.bndg b).storage ≠ .nil := by
  obtain ⟨binding, rfl, hmode, hexp⟩ := Code.mem_parameters hb
  have hwc := Code.directTarget_mem hd
  have hin := Code.child_inside hwc
  have hn := h.ready.mem_nodes
  unfold Code.directTarget at hd
  split at hd
  · next m k ref params body arguments =>
    cases hd
    have hcall := h.called
    cases hcall
    have hnodes : (Forest.nodesOf (Code.continuation k ref params body :: arguments)).Nodup :=
      h.ready.nodup_inside hp
    -- nothing has come to the target, so its parameters are those that the arguments got
    have hself : F.parameters (Code.continuation k ref params body).id = st.parameters k := by
      have hout : ∀ x ∈ Forest.nodesOf (body :: arguments),
          x.id ≠ (Code.continuation k ref params body).id := by
        intro x hx hid
        have hxk := hp.eq_of_id (h.ready.inside_mem (h.ok.exprs.subset hx)) (h.ready.inside_mem hin)
          hid
        rw [hxk, Forest.nodesOf_cons] at hx
        rcases List.mem_append.mp hx with hx | hx
        · exact Forest.notMem_below (Code.child_inside (List.mem_singleton.mpr rfl)) hx
        · exact Forest.notMem_rest hnodes (Forest.mem_nodes_self _) hx
      have hfields := parameters_of_fields (v := .continuation k ref params body)
        (h.subsOk.fields k hout)
      rw [parameters_of_fields (h.agree.fields _ (Code.inside_subset hin)), (h.moved hp).names.2.2,
        hfields, setBindingAugs_same]
      rfl
    have hargs : ∀ a ∈ arguments, a ∈ (Code.jump m (.continuation k ref params body)
        arguments).inside := fun a ha => Code.child_inside (List.mem_cons_of_mem _ ha)
    have hnodup : arguments.Nodup :=
      (List.nodup_cons.mp ((Forest.sublist_nodesOf _).nodup hnodes)).2
    have hlen' : (st.parameters k).length ≤ arguments.length :=
      (h.ready.inv.arity _ (h.ready.inside_mem hin)).trans_le hlen
    have hmem := aug_setBindingAugs_mem hp (fun a ha => h.ready.inside_mem (hargs a ha)) hnodup
      hlen' (hself ▸ hhome) st
    obtain ⟨a, ha, haug⟩ := List.mem_map.mp hmem
    apply h.assigned hp (.inl ⟨?_, ?_⟩) hmode ⟨_, Code.inside_subset hin, hexp⟩ nofun hread
    · apply List.mem_map.mpr
      refine ⟨a, List.mem_cons_of_mem _ ha, ?_⟩
      rw [← haug]
      exact h.subsOk.aug a (List.mem_cons_of_mem _ ha)
    · unfold Store.bndgDepth
      rw [hexp]
      exact (h.ready.deep _ h.ready.mem _ hwc).ge
  · cases hd

end L2.SelfHost
