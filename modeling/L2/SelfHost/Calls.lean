import L2.SelfHost.Ready

/-!
# The calls of initializers

Every initializer makes a call that is `CallOk`.
-/

namespace L2.SelfHost

open Scope (Binding Name)
open Graph

variable {p : Program} {e n u v w : Code} {b : BndgId} {st st' st'' : Store}

/-! ## The conditions of a chain -/

/-- The loop keeps what the values of conditions prefer. -/
theorem genConds_bndg (conds : List Code) (st : Store) (c : Code) :
    SameFields st (genConds conds st c).1 ∧
      ∀ b, ((genConds conds st c).1.bndg b).preferred = (st.bndg b).preferred := by
  have key : ∀ (st : Store) (v : Code) (b : BndgId),
      ((st.modify (st.aug v) setIsCondition).bndg b).preferred = (st.bndg b).preferred := by
    intro st v b
    by_cases h : b = st.aug v
    · rw [h, bndg_modify]
      rfl
    · rw [bndg_modify_of_ne h]
  fun_induction genConds conds st c with
  | case1 conds st n condition consequent alternate _ ih =>
    exact ⟨(sameFields_modify ..).trans ih.1, fun b => (ih.2 b).trans (key st condition b)⟩
  | case2 conds st n condition consequent alternate _ _ ih =>
    exact ⟨(sameFields_modify ..).trans ih.1, fun b => (ih.2 b).trans (key st condition b)⟩
  | case3 conds st n condition consequent alternate _ _ =>
    exact ⟨sameFields_modify .., key st (.ifExpr n condition consequent alternate)⟩
  | case4 conds st c _ => exact ⟨sameFields_modify .., key st c⟩

theorem step_genConds (conds : List Code) (hs : Scoped p st) {c : Code} (hn : c.nodes ⊆ n.nodes)
    (hm : c ∈ p.nodes) : Step p n st (genConds conds st c).1 := by
  have key : ∀ (st : Store), Scoped p st → ∀ v ∈ n.nodes, v ∈ p.nodes →
      Step p n st (st.modify (st.aug v) setIsCondition) := by
    intro st hs v hv hvp
    exact Step.modify keeps_setIsCondition hv (hs.aug v hvp) st
  fun_induction genConds conds st c with
  | case1 conds st m condition consequent alternate _ ih =>
    have hc : condition ∈ (Code.ifExpr m condition consequent alternate).inside :=
      Code.child_inside (by simp [Code.children])
    have ha : alternate ∈ (Code.ifExpr m condition consequent alternate).inside :=
      Code.child_inside (by simp [Code.children])
    have hfirst := key st hs condition (hn (Code.inside_subset hc)) (Program.mem_of_inside hm hc)
    apply hfirst.trans
    apply ih (hfirst.inv hs)
    · exact fun x hx => hn (Forest.nodes_subset (Code.inside_subset ha) hx)
    · exact Program.mem_of_inside hm ha
  | case2 conds st m condition consequent alternate _ _ ih =>
    have hc : condition ∈ (Code.ifExpr m condition consequent alternate).inside :=
      Code.child_inside (by simp [Code.children])
    have ha : consequent ∈ (Code.ifExpr m condition consequent alternate).inside :=
      Code.child_inside (by simp [Code.children])
    have hfirst := key st hs condition (hn (Code.inside_subset hc)) (Program.mem_of_inside hm hc)
    apply hfirst.trans
    apply ih (hfirst.inv hs)
    · exact fun x hx => hn (Forest.nodes_subset (Code.inside_subset ha) hx)
    · exact Program.mem_of_inside hm ha
  | case3 conds st m condition consequent alternate _ _ =>
    exact key st hs _ (hn (Forest.mem_nodes_self _)) hm
  | case4 conds st c _ => exact key st hs _ (hn (Forest.mem_nodes_self _)) hm

/-- The conditions are different expressions in the condition, and stand below `if`
expressions. -/
theorem genConds_exprs (conds : List Code) (st : Store) (c : Code) :
    (Forest.nodesOf (genConds conds st c).2).Subperm (c.nodes ++ Forest.nodesOf conds) ∧
      ∀ x ∈ (genConds conds st c).2, x ∈ conds ∨ x = c ∨
        ∃ w ∈ c.nodes, w.directTarget = none ∧ x ∈ w.children := by
  -- the condition and the branch that is gone into are different children
  have key : ∀ (m : NodeId) (condition consequent alternate branch : Code) (l r : List Code),
      (condition.nodes ++ branch.nodes).Sublist
        (Code.ifExpr m condition consequent alternate).nodes →
      l.Subperm (branch.nodes ++ (condition.nodes ++ r)) →
      l.Subperm ((Code.ifExpr m condition consequent alternate).nodes ++ r) := by
    intro m condition consequent alternate branch l r hsub hl
    apply hl.trans
    have hperm : (branch.nodes ++ (condition.nodes ++ r)).Perm
        ((condition.nodes ++ branch.nodes) ++ r) := by
      rw [← List.append_assoc]
      exact List.perm_append_comm.append_right r
    exact hperm.subperm.trans (hsub.append_right r).subperm
  fun_induction genConds conds st c with
  | case1 conds st m condition consequent alternate _ ih =>
    refine ⟨key m condition consequent alternate alternate _ _ ?_ ih.1, ?_⟩
    · show (condition.nodes ++ alternate.nodes).Sublist
        (condition.nodes ++ consequent.nodes ++ alternate.nodes ++ [_])
      apply List.sublist_append_of_sublist_left
      exact (List.sublist_append_left _ _).append_right _
    · have hin : ∀ x ∈ [condition, consequent, alternate],
          x ∈ (Code.ifExpr m condition consequent alternate).children := fun x hx => hx
      intro x hx
      rcases ih.2 x hx with h | h | ⟨w, hw, h⟩
      · rcases List.mem_cons.mp h with rfl | h
        · exact Or.inr (Or.inr ⟨_, Forest.mem_nodes_self _, rfl, hin _ (by simp)⟩)
        · exact Or.inl h
      · subst h
        exact Or.inr (Or.inr ⟨_, Forest.mem_nodes_self _, rfl, hin _ (by simp)⟩)
      · exact Or.inr (Or.inr ⟨w, Forest.mem_nodes_of_child (hin alternate (by simp)) hw, h⟩)
  | case2 conds st m condition consequent alternate _ _ ih =>
    refine ⟨key m condition consequent alternate consequent _ _ ?_ ih.1, ?_⟩
    · show (condition.nodes ++ consequent.nodes).Sublist
        (condition.nodes ++ consequent.nodes ++ alternate.nodes ++ [_])
      apply List.sublist_append_of_sublist_left
      exact List.sublist_append_left _ _
    · have hin : ∀ x ∈ [condition, consequent, alternate],
          x ∈ (Code.ifExpr m condition consequent alternate).children := fun x hx => hx
      intro x hx
      rcases ih.2 x hx with h | h | ⟨w, hw, h⟩
      · rcases List.mem_cons.mp h with rfl | h
        · exact Or.inr (Or.inr ⟨_, Forest.mem_nodes_self _, rfl, hin _ (by simp)⟩)
        · exact Or.inl h
      · subst h
        exact Or.inr (Or.inr ⟨_, Forest.mem_nodes_self _, rfl, hin _ (by simp)⟩)
      · exact Or.inr (Or.inr ⟨w, Forest.mem_nodes_of_child (hin consequent (by simp)) hw, h⟩)
  | case3 conds st m condition consequent alternate _ _ =>
    refine ⟨List.Subperm.refl _, ?_⟩
    intro x hx
    rcases List.mem_cons.mp hx with rfl | hx
    · exact Or.inr (Or.inl rfl)
    · exact Or.inl hx
  | case4 conds st c _ =>
    refine ⟨List.Subperm.refl _, ?_⟩
    intro x hx
    rcases List.mem_cons.mp hx with rfl | hx
    · exact Or.inr (Or.inl rfl)
    · exact Or.inl hx

/-! ## The initializers -/

theorem step_assignConditionJump (hr : Ready p e n st) :
    Step p n st (assignConditionJump st n) ∧ SameFields st (assignConditionJump st n) ∧
      ∀ b, ((assignConditionJump st n).bndg b).preferred = (st.bndg b).preferred := by
  unfold assignConditionJump
  split
  · next code _ =>
    refine ⟨Step.modify (keeps_setConditionJump _) (Forest.mem_nodes_self n)
      (hr.inv.aug n hr.mem_nodes) st, rfl, ?_⟩
    intro b
    by_cases h : b = st.aug n
    · rw [h, bndg_modify]
      rfl
    · rw [bndg_modify_of_ne h]
  · exact ⟨Step.refl .., rfl, fun _ => rfl⟩

/-- The operations that want an operand in a certain register. -/
theorem callOk_preferring {u : Code} {reg : Register} {exprs : List Code} {mask : RegUseVec}
    (hr : Ready p e n st) (hu : u ∈ n.children) (hexprs : (Forest.nodesOf exprs).Subperm n.inside)
    (hdirect : ∀ c ∈ exprs, ¬ p.IsDirect c) :
    CallOk p n st ⟨st.modify (st.aug u) (setPreferred (.register reg)), exprs, [], mask⟩ := by
  have hin := Code.child_inside hu
  apply CallOk.of_sameFields hr
  · exact Step.modify (keeps_setPreferred _) (Code.inside_subset hin)
      (hr.inv.aug u (hr.inside_mem hin)) st
  · rfl
  · intro c hc v hv
    have hcn : c ∈ n.inside :=
      hexprs.subset (Forest.mem_nodesOf.mpr ⟨c, hc, Forest.mem_nodes_self c⟩)
    dsimp only
    rw [hr.pristine.aug u hin, bndg_modify_of_ne (hr.value_ne hu hcn hv)]
  · exact Or.inl rfl
  · exact hexprs
  · exact hdirect

theorem baseOf_mem {arg base : Code} (h : baseOf arg = some base) :
    base ∈ arg.children ∧ arg.directTarget = none := by
  unfold baseOf at h
  split at h
  · cases h
    exact ⟨by simp [Code.children], rfl⟩
  · cases h
    exact ⟨by simp [Code.children], rfl⟩
  · cases h

/-- What the search for a binding to put in the place of another one finds: a parameter of
something deeper that does not escape. -/
theorem searchJumps_cases {m : NodeId} {body : Code} {jumps : List Code}
    (h : searchJumps p st m body jumps = some st') : st' = st ∨
      ∃ j ∈ jumps, ∃ k binding, .symbol k binding ∈ j.children ∧
        (st.symbolReference k).mode = .value ∧ st.depth m < st.bndgDepth (st.symbolReference k) ∧
        bndgEscapes p (st.symbolReference k) = false ∧ ∃ param ∈ st.parameters m,
          st' = replaceValueBindings (st.symbolReference k) param st body := by
  induction jumps with
  | nil =>
    cases h
    exact Or.inl rfl
  | cons j jumps ih =>
    have htail : searchJumps p st m body jumps = some st' → _ := fun h => ih h
    unfold searchJumps at h
    split at h
    · next heq => cases heq
    · next i t k binding rest remJumps heq =>
      cases heq
      dsimp only at h
      split at h
      · next hcond =>
        obtain ⟨param, hparam, rfl⟩ := Option.map_eq_some_iff.mp h
        refine Or.inr ⟨_, List.mem_cons_self, k, binding, ?_, hcond.1, hcond.2.1,
          Bool.eq_false_iff.mpr hcond.2.2, param, List.mem_of_head? hparam, rfl⟩
        exact List.mem_cons_of_mem _ List.mem_cons_self
      · rcases htail h with h | ⟨j, hj, h⟩
        · exact Or.inl h
        · exact Or.inr ⟨j, List.mem_cons_of_mem _ hj, h⟩
    · next heq =>
      cases heq
      rcases htail h with h | ⟨j, hj, h⟩
      · exact Or.inl h
      · exact Or.inr ⟨j, List.mem_cons_of_mem _ hj, h⟩
    · cases h

theorem Program.find_mem {m : NodeId} (h : p.find m = some w) : w ∈ p.nodes ∧ w.id = m := by
  unfold Program.find at h
  rw [Code.nodesOf_eq_flatMap] at h
  have hid := List.find?_some h
  exact ⟨List.mem_of_find?_eq_some h, of_decide_eq_true hid⟩

theorem bndgEscapes_false (h : bndgEscapes p b = false) :
    ∃ w ∈ p.nodes, b.expression = some w.id := by
  unfold bndgEscapes at h
  cases hb : b.expression with
  | none =>
    rw [hb] at h
    cases h
  | some m =>
    rw [hb] at h
    cases hm : p.find m with
    | none => simp [hm] at h
    | some w =>
      obtain ⟨hw, rfl⟩ := Program.find_mem hm
      exact ⟨w, hw, rfl⟩

section

variable (hp : p.WellFormed)

include hp

theorem callOk_function {m : NodeId} {ref : Option Name} {ps : List (Option Name)} {body : Code}
    (hr : Ready p e (.function m ref ps body) st) :
    CallOk p (.function m ref ps body) st (initializeFunction st m body) := by
  have hc : body ∈ (Code.function m ref ps body).children := List.mem_singleton.mpr rfl
  have hin := Code.child_inside hc
  have hu : ∀ b ∈ st.parameters m, UsedAt p (.function m ref ps body) b := by
    intro b hb
    have hub := hr.inv.parameters _ hr.mem_nodes b hb
    exact ⟨body, Code.inside_subset hin, hp.usable_under hr.mem_nodes hub (Or.inl hin)⟩
  have hsame₁ := sameFields_setPrefs st (st.parameters m) callRegs
  have hstep₁ := step_setPrefs hu callRegs st
  generalize hst₁ : setPrefs st (st.parameters m) callRegs = st₁ at hsame₁ hstep₁
  have hparams : st₁.parameters = st.parameters := by rw [hsame₁]
  have hdrop : ∀ b ∈ (st₁.parameters m).drop 6, UsedAt p (.function m ref ps body) b := by
    intro b hb
    rw [hparams] at hb
    exact hu b (List.mem_of_mem_drop hb)
  have hsame₂ := sameFields_assignParams st₁ (words 2) ((st₁.parameters m).drop 6)
  have hstep₂ := hstep₁.trans (step_assignParams hdrop (words 2) st₁)
  generalize hst₂ : assignParams st₁ (words 2) ((st₁.parameters m).drop 6) = st₂ at hsame₂ hstep₂
  have hstore : (initializeFunction st m body).store =
      st₂.modify (st₂.aug body) (setPreferred (.register rax)) := by
    rw [← hst₂, ← hst₁]
    rfl
  have hstep₃ := Step.modify (keeps_setPreferred (.register rax)) (Code.inside_subset hin)
    ((hstep₂.inv hr.inv).aug body (hr.inside_mem hin)) st₂
  have hsame : SameFields st st₂ := hsame₁.trans hsame₂
  apply CallOk.of_sameFields hr (hstore ▸ hstep₂.trans hstep₃)
    (hstore ▸ hsame.trans (sameFields_modify ..))
  · intro c hcc v hv
    rw [List.mem_singleton.mp hcc] at hv
    have hbody : st.aug body = .value body.id := hr.pristine.aug body hin
    have hne : BndgId.value v.id ∉ st.parameters m := fun h =>
      (hr.isOpen hp).ne_of_refers hr.mem_nodes (Or.inr h) (Forest.inside_of_mem
        (Code.inside_subset hin) hv) rfl
    rw [hstore, hsame.aug, hbody, bndg_modify_of_ne (hr.value_ne hc hin hv), ← hst₂,
      bndg_assignParams (fun h => hne (hparams ▸ List.mem_of_mem_drop h)), ← hst₁,
      bndg_setPrefs hne]
  · exact Or.inr rfl
  · exact List.Subperm.refl _
  · intro c hc
    exact hr.child_direct hp rfl hc

theorem callOk_continuation {m : NodeId} {ref : Option Name} {ps : List (Option Name)}
    {body : Code} (hr : Ready p e (.continuation m ref ps body) st) :
    CallOk p (.continuation m ref ps body) st (initializeContinuation st m body) := by
  apply CallOk.of_sameFields hr (Step.refl ..) (SameFields.refl st)
  · exact fun _ _ _ _ => rfl
  · exact Or.inr rfl
  · exact List.Subperm.refl _
  · intro c hc
    exact hr.child_direct hp rfl hc

theorem callOk_storage {m : NodeId} {ref : Option Name} {arguments : List Code}
    (hr : Ready p e (.storage m ref arguments) st) :
    CallOk p (.storage m ref arguments) st (initializeStorage st arguments) := by
  apply CallOk.of_sameFields hr (Step.refl ..) (SameFields.refl st)
  · exact fun _ _ _ _ => rfl
  · exact Or.inl rfl
  · exact List.Subperm.refl _
  · intro c hc
    exact hr.child_direct hp rfl hc

theorem callOk_invoke {m : NodeId} {target : Code} {arguments : List Code}
    (hr : Ready p e (.invoke m target arguments) st) :
    CallOk p (.invoke m target arguments) st (initializeInvoke st target arguments) := by
  have hargs : ∀ a ∈ arguments, a ∈ (Code.invoke m target arguments).children :=
    fun a ha => List.mem_cons_of_mem _ ha
  have hu : ∀ b ∈ arguments.map st.aug, UsedAt p (.invoke m target arguments) b := by
    intro b hb
    obtain ⟨a, ha, rfl⟩ := List.mem_map.mp hb
    have hin := Code.child_inside (hargs a ha)
    exact ⟨a, Code.inside_subset hin, hr.inv.aug a (hr.inside_mem hin)⟩
  apply CallOk.of_sameFields hr (step_setPrefs hu callRegs st) (sameFields_setPrefs ..)
  · intro c hc v hv
    have hin : c ∈ (Code.invoke m target arguments).inside := Code.child_inside hc
    show ((setPrefs _ _ _).bndg _).preferred = _
    rw [bndg_setPrefs]
    intro h
    obtain ⟨a, ha, hav⟩ := List.mem_map.mp h
    rw [hr.pristine.aug a (Code.child_inside (hargs a ha))] at hav
    exact hr.value_ne (hargs a ha) hin hv hav.symm
  · exact Or.inl rfl
  · exact List.Subperm.refl _
  · intro c hc
    exact hr.child_direct hp rfl hc

theorem callOk_constrain {m : NodeId} {body : Code} (hr : Ready p e (.constrain m body) st) :
    CallOk p (.constrain m body) st (initializeConstrain st m body) := by
  have hin : body ∈ (Code.constrain m body).inside := Code.child_inside (List.mem_singleton.mpr rfl)
  have hbody := hr.inside_mem hin
  have ho := hr.isOpen hp
  have hhome : Home p st (st.bindingAug m) :=
    hr.live _ hr.mem_nodes _ (hr.inv.aug _ hr.mem_nodes).1 (Or.inl rfl)
  apply CallOk.of_augs hp hr
  · exact Step.setBindingAug hp (Code.inside_subset hin) hbody
      ((hr.inv.aug _ hr.mem_nodes).inside hin) st
  · rfl
  · intro v hv hne
    apply aug_setBindingAug_of_ne
    intro hid
    exact hne (List.mem_singleton.mpr (hp.eq_of_id hv hbody hid))
  · exact fun _ _ _ _ => rfl
  · rfl
  · exact List.Subperm.refl _
  · intro c hc
    exact hr.child_direct hp rfl hc
  · exact (ho.setBindingAug hp hr.mem_nodes hin hhome fun x hx => ho.aug_ne hr.mem_nodes hx).live

theorem callOk_optimizedIf {m : NodeId} {condition consequent alternate : Code}
    (hr : Ready p e (.ifExpr m condition consequent alternate) st) :
    CallOk p (.ifExpr m condition consequent alternate) st
      (initializeOptimizedIf st m condition consequent alternate) := by
  have hchild : ∀ x ∈ [condition, consequent, alternate],
      x ∈ (Code.ifExpr m condition consequent alternate).inside := fun x hx => Code.child_inside hx
  have hcond := hchild condition (by simp)
  have hcons := hchild consequent (by simp)
  have halt := hchild alternate (by simp)
  have hsub : condition.nodes ⊆ (Code.ifExpr m condition consequent alternate).nodes :=
    Forest.nodes_subset (Code.inside_subset hcond)
  have hstep := step_genConds [] hr.inv hsub (hr.inside_mem hcond)
  obtain ⟨hsame, hpref⟩ := genConds_bndg [] st condition
  obtain ⟨hexprs, hfrom⟩ := genConds_exprs [] st condition
  unfold initializeOptimizedIf
  generalize genConds [] st condition = r at *
  obtain ⟨st₁, conds⟩ := r
  dsimp only at *
  have haug : st₁.bindingAug m = st.bindingAug m :=
    hsame.aug (.ifExpr m condition consequent alternate)
  have hinv := hstep.inv hr.inv
  have hmem := hr.mem_nodes
  have ho : Open p (.ifExpr m condition consequent alternate) st₁ := by
    refine ⟨hsame.live hr.live, ?_⟩
    rw [hsame]
    exact (hr.isOpen hp).fresh
  have hhome : Home p st₁ (st₁.bindingAug m) := ho.live _ hmem _ (hinv.aug _ hmem).1 (Or.inl rfl)
  have hne : ∀ x ∈ (Code.ifExpr m condition consequent alternate).inside,
      st₁.bindingAug m ≠ .value x.id := fun x hx => ho.aug_ne hmem hx
  have ho' := ho.setBindingAug hp hmem hcons hhome hne
  have hu := hinv.aug _ hmem
  have hstep₂ := Step.setBindingAug hp (Code.inside_subset hcons) (hr.inside_mem hcons)
    (hu.inside hcons) st₁
  have hstep₃ := Step.setBindingAug hp (Code.inside_subset halt) (hr.inside_mem halt)
    (hu.inside halt) (st₁.setBindingAug consequent.id (st₁.bindingAug m))
  apply CallOk.of_augs hp hr
  · exact (hstep.trans hstep₂).trans hstep₃
  · dsimp only
    rw [hsame]
    rfl
  · intro v hv hne
    have hnc : v.id ≠ consequent.id := fun hid =>
      hne (hp.eq_of_id hv (hr.inside_mem hcons) hid ▸ List.mem_cons_self)
    have hna : v.id ≠ alternate.id := fun hid =>
      hne (hp.eq_of_id hv (hr.inside_mem halt) hid ▸ List.mem_cons_of_mem _ List.mem_cons_self)
    show ((st₁.setBindingAug _ _).setBindingAug _ _).aug v = _
    rw [aug_setBindingAug_of_ne hna, aug_setBindingAug_of_ne hnc]
    exact hsame.aug v
  · exact fun _ _ v _ => hpref _
  · rfl
  · show (Forest.nodesOf (consequent :: alternate :: conds)).Subperm
      (Forest.nodesOf [condition, consequent, alternate])
    simp only [Forest.nodesOf_cons]
    have hnil : Forest.nodesOf ([] : List Code) = [] := rfl
    rw [hnil, List.append_nil] at hexprs ⊢
    have hle : (Forest.nodes consequent ++ (Forest.nodes alternate ++
        Forest.nodesOf conds)).Subperm
        (Forest.nodes consequent ++ (Forest.nodes alternate ++ condition.nodes)) :=
      (List.Subperm.refl _).append ((List.Subperm.refl _).append hexprs)
    apply hle.trans
    rw [← List.append_assoc]
    exact List.perm_append_comm.subperm
  · intro c hc
    rcases List.mem_cons.mp hc with rfl | hc
    · exact hr.child_direct hp rfl (by simp [Code.children])
    rcases List.mem_cons.mp hc with rfl | hc
    · exact hr.child_direct hp rfl (by simp [Code.children])
    rcases hfrom c hc with h | rfl | ⟨w, hw, hnone, hcw⟩
    · cases h
    · exact hr.child_direct hp rfl (by simp [Code.children])
    · have hwp : w ∈ p.nodes := Program.mem_of_mem_nodes (hr.inside_mem hcond) hw
      apply hp.not_isDirect hwp hcw
      rw [hnone]
      intro h
      cases h
  · exact (ho'.setBindingAug hp hmem halt (hhome.setBindingAug (hne _ hcons) _) hne).live

/-- A jump with a continuation for its target initializes the body of that and the
arguments, which have got the bindings of the parameters. -/
theorem callOk_directJump {m k : NodeId} {ref : Option Name} {ps : List (Option Name)}
    {body : Code} {arguments : List Code}
    (hr : Ready p e (.jump m (.continuation k ref ps body) arguments) st) :
    CallOk p (.jump m (.continuation k ref ps body) arguments) st
      ⟨setBindingAugs st arguments (st.parameters k), body :: arguments, [], bodyMask⟩ := by
  generalize htarget : Code.continuation k ref ps body = target at *
  have htc : target ∈ (Code.jump m target arguments).children := List.mem_cons_self
  have htin : target ∈ (Code.jump m target arguments).inside := Code.child_inside htc
  have htp := hr.inside_mem htin
  have hbody : body ∈ target.children := by
    rw [← htarget]
    exact List.mem_singleton.mpr rfl
  have hk : target.id = k := by
    rw [← htarget]
    rfl
  have hdt : (Code.jump m target arguments).directTarget = some target := by
    rw [← htarget]
    rfl
  have hargs : ∀ a ∈ arguments, a ∈ (Code.jump m target arguments).inside :=
    fun a ha => Code.child_inside (List.mem_cons_of_mem _ ha)
  have huse : ∀ b ∈ st.parameters k, ∀ a ∈ arguments, p.Usable b a := by
    intro b hb a ha
    rw [← hk] at hb
    apply hp.usable_under htp (hr.inv.parameters target htp b hb)
    exact Or.inr ⟨_, hr.mem_nodes, hdt, Forest.mem_nodesOf.mpr ⟨a, ha, Forest.mem_nodes_self a⟩⟩
  have hhome : ∀ b ∈ st.parameters k, Home p st b ∧
      ∀ x ∈ (Code.jump m target arguments).inside, b ≠ .value x.id := by
    intro b hb
    rw [← hk] at hb
    have hmode : b.mode = .value := by
      rcases hr.inv.parameters target htp b hb with h | h
      · exact (Code.mem_parameters h).elim fun _ h => h.2.1
      · exact h.1
    refine ⟨hr.live target htp b hmode (Or.inr (Or.inr hb)), ?_⟩
    exact fun x hx => (hr.isOpen hp).ne_of_refers htp (Or.inr hb) hx
  have hnodup := hr.nodup_inside hp
  have hbodySub : (body.nodes ++ Forest.nodesOf arguments).Sublist
      (Code.jump m target arguments).inside := by
    show (body.nodes ++ _).Sublist (Forest.nodesOf (target :: arguments))
    rw [Forest.nodesOf_cons]
    apply List.Sublist.append_right
    rw [← htarget]
    exact List.sublist_append_left _ _
  apply CallOk.of_augs hp hr
  · apply step_setBindingAugs hp _ huse
    exact fun a ha => ⟨Code.inside_subset (hargs a ha), hr.inside_mem (hargs a ha)⟩
  · dsimp only
    rw [setBindingAugs_same]
  · intro v hv hne
    apply aug_setBindingAugs
    intro a ha hid
    have hva : v = a := hp.eq_of_id hv (hr.inside_mem (hargs a ha)) hid
    exact hne (List.mem_cons_of_mem _ (hva ▸ ha))
  · intro _ _ v _
    show ((setBindingAugs _ _ _).bndg _).preferred = _
    rw [setBindingAugs_same]
  · rfl
  · exact hbodySub.subperm
  · intro c hc
    rcases List.mem_cons.mp hc with rfl | hc
    · apply hp.not_isDirect htp hbody
      rw [← htarget]
      exact nofun
    · apply hp.not_isDirect hr.mem_nodes (List.mem_cons_of_mem _ hc)
      rw [hdt]
      intro h
      have hnd : (Forest.nodesOf (target :: arguments)).Nodup := hnodup
      rw [Forest.nodesOf_cons] at hnd
      exact (List.nodup_append.mp hnd).2.2 target (Forest.mem_nodes_self target) target
        (Forest.mem_nodesOf.mpr ⟨c, hc, Option.some.inj h ▸ Forest.mem_nodes_self c⟩) rfl
  · exact ((hr.isOpen hp).setBindingAugs hp hr.mem_nodes hargs hhome).live

/-- The argument of a jump to a known target with one parameter shares the binding of that. -/
theorem callOk_sharingJump {m : NodeId} {target arg dest : Code} {arguments : List Code}
    {param : BndgId} (hr : Ready p e (.jump m target arguments) st)
    (hdirect : (Code.jump m target arguments).directTarget = none) (harg : arg ∈ arguments)
    (hdest : p.shortCircuit m = some dest) (hparam : param ∈ st.parameters dest.id) :
    CallOk p (.jump m target arguments) st
      ⟨st.setBindingAug arg.id param, target :: arguments, [], operandMask⟩ := by
  obtain ⟨hdp, hunder⟩ := hp.shortCircuit _ hr.mem_nodes dest hdest
  have hin : arg ∈ (Code.jump m target arguments).inside :=
    Code.child_inside (List.mem_cons_of_mem _ harg)
  have hmem := hr.inside_mem hin
  have hunder : p.Under dest arg := by
    rcases hunder with h | h
    · exact h.nodes (Code.inside_subset hin)
    · rw [hdirect] at h
      cases h
  have huse := hp.usable_under hdp (hr.inv.parameters dest hdp param hparam) hunder
  have href : Refers st param dest := Or.inr hparam
  have ho := hr.isOpen hp
  apply CallOk.of_augs hp hr
  · exact Step.setBindingAug hp (Code.inside_subset hin) hmem huse st
  · rfl
  · intro v hv hne
    apply aug_setBindingAug_of_ne
    intro hid
    exact hne (List.mem_cons_of_mem _ (hp.eq_of_id hv hmem hid ▸ harg))
  · exact fun _ _ _ _ => rfl
  · rfl
  · exact List.Subperm.refl _
  · intro c hc
    exact hr.child_direct hp hdirect hc
  · exact (ho.setBindingAug hp hr.mem_nodes hin (hr.live dest hdp param huse.1 (Or.inr href))
      fun x hx => ho.ne_of_refers hdp href hx).live

theorem callOk_jump {m : NodeId} {target : Code} {arguments : List Code} {call : InitCall}
    (hr : Ready p e (.jump m target arguments) st)
    (h : initializeJump p st m target arguments = some call) :
    CallOk p (.jump m target arguments) st call := by
  unfold initializeJump at h
  split at h
  · cases h
    exact callOk_directJump hp hr
  · next hnc =>
    have hdirect : (Code.jump m target arguments).directTarget = none := by
      cases target with
      | continuation k ref ps body => exact absurd rfl (hnc k ref ps body)
      | literal _ _ | symbol _ _ | storage _ _ _ | function _ _ _ _ | withExpr _ _ _
      | invoke _ _ _ | jump _ _ _ | ifExpr _ _ _ _ | constrain _ _ => rfl
    split at h
    · next param hparams =>
      obtain ⟨arg, harg, rfl⟩ := Option.map_eq_some_iff.mp h
      obtain ⟨dest, hdest, hparams⟩ := Option.map_eq_some_iff.mp hparams
      apply callOk_sharingJump hp hr hdirect (List.mem_of_head? harg) hdest
      rw [hparams]
      exact List.mem_singleton.mpr rfl
    · cases h
      apply CallOk.of_sameFields hr (Step.refl ..) (SameFields.refl st)
      · exact fun _ _ _ _ => rfl
      · exact Or.inl rfl
      · exact List.Subperm.refl _
      · intro c hc
        exact hr.child_direct hp hdirect hc

/-- The calls of intrinsics, where symbols may get the bindings that they refer to. -/
theorem callOk_coalesce {st₀ : Store} (hr : Ready p e n st) (hstep : Step p n st st₀)
    (hsame : SameFields st st₀) (cs : List Code) {exprs : List Code} {mask : RegUseVec}
    (hpref : ∀ c ∈ exprs, ∀ v ∈ c.inside,
      (st₀.bndg (.value v.id)).preferred = (st.bndg (.value v.id)).preferred)
    (hcs : ∀ c ∈ cs, c ∈ exprs) (hexprs : (Forest.nodesOf exprs).Subperm n.inside)
    (hdirect : ∀ c ∈ exprs, ¬ p.IsDirect c) :
    CallOk p n st ⟨cs.foldl coalesceExprBndg st₀, exprs, [], mask⟩ := by
  have hin : ∀ c ∈ exprs, c ∈ n.inside := fun c hc =>
    hexprs.subset (Forest.mem_nodesOf.mpr ⟨c, hc, Forest.mem_nodes_self c⟩)
  have ho : Open p n st₀ := by
    refine ⟨hsame.live hr.live, ?_⟩
    rw [hsame]
    exact (hr.isOpen hp).fresh
  have hs := hstep.inv hr.inv
  have key : ∀ (l : List Code) (st₁ : Store), (∀ c ∈ l, c ∈ exprs) → Scoped p st₁ →
      Open p n st₁ →
      Step p n st₁ (l.foldl coalesceExprBndg st₁) ∧ Open p n (l.foldl coalesceExprBndg st₁) ∧
        l.foldl coalesceExprBndg st₁ =
          { st₁ with bindingAug := (l.foldl coalesceExprBndg st₁).bindingAug } ∧
        ∀ v ∈ p.nodes, v ∉ exprs → (l.foldl coalesceExprBndg st₁).aug v = st₁.aug v := by
    intro l
    induction l with
    | nil => exact fun st₁ _ _ ho => ⟨Step.refl .., ho, rfl, fun _ _ _ => rfl⟩
    | cons c l ih =>
      intro st₁ hl hs ho
      have hc := hl c List.mem_cons_self
      have hcn := hin c hc
      have hstep := step_coalesceExprBndg hp hs (Code.inside_subset hcn) (hr.inside_mem hcn)
      obtain ⟨hstep', ho', hsame', haug'⟩ := ih (coalesceExprBndg st₁ c)
        (fun x hx => hl x (List.mem_cons_of_mem _ hx)) (hstep.inv hs)
        (ho.coalesceExprBndg hp hr.mem_nodes hcn)
      refine ⟨hstep.trans hstep', ho', ?_, ?_⟩
      · have hfirst := coalesceExprBndg_same st₁ c
        show l.foldl _ (coalesceExprBndg st₁ c) =
          { st₁ with bindingAug := (l.foldl _ (coalesceExprBndg st₁ c)).bindingAug }
        generalize coalesceExprBndg st₁ c = st₂ at *
        generalize (l.foldl coalesceExprBndg st₂).bindingAug = f at *
        rw [hsame', hfirst]
      · intro v hv hne
        have hid : v.id ≠ c.id := fun hid => hne (hp.eq_of_id hv (hr.inside_mem hcn) hid ▸ hc)
        exact (haug' v hv hne).trans (aug_coalesceExprBndg hid st₁)
  obtain ⟨hstep', ho', hsame', haug'⟩ := key cs st₀ hcs hs ho
  apply CallOk.of_augs hp hr
  · exact hstep.trans hstep'
  · dsimp only
    rw [hsame', hsame]
  · intro v hv hne
    exact (haug' v hv hne).trans (hsame.aug v)
  · intro c hc v hv
    dsimp only
    rw [hsame']
    exact hpref c hc v hv
  · rfl
  · exact hexprs
  · exact hdirect
  · exact ho'.live

theorem callOk_binaryOperator {m : NodeId} {target arg1 arg2 : Code}
    (hr : Ready p e (.invoke m target [arg1, arg2]) st) :
    CallOk p (.invoke m target [arg1, arg2]) st
      (initializeBinaryOperator st (.invoke m target [arg1, arg2]) arg1 arg2) := by
  have hchild : ∀ c ∈ [arg1, arg2], c ∈ (Code.invoke m target [arg1, arg2]).children :=
    fun c hc => List.mem_cons_of_mem _ hc
  have hexprs : (Forest.nodesOf [arg1, arg2]).Subperm (Code.invoke m target [arg1, arg2]).inside :=
    (List.sublist_append_right _ _).subperm
  have hdirect : ∀ c ∈ [arg1, arg2], ¬ p.IsDirect c :=
    fun c hc => hr.child_direct hp rfl (hchild c hc)
  unfold initializeBinaryOperator
  dsimp only
  split
  · exact callOk_preferring hr (hchild arg1 (by simp)) hexprs hdirect
  · split
    · exact callOk_preferring hr (hchild arg1 (by simp)) hexprs hdirect
    · split
      · exact callOk_preferring hr (hchild arg2 (by simp)) hexprs hdirect
      · obtain ⟨hstep, hsame, hpref⟩ := step_assignConditionJump hr
        exact callOk_coalesce hp hr hstep hsame [arg1, arg2] (fun _ _ v _ => hpref _)
          (fun c hc => hc) hexprs hdirect

theorem callOk_intrinsic {m : NodeId} {target : Code} {arguments : List Code} {g : Generator}
    {call : InitCall} (hr : Ready p e (.invoke m target arguments) st)
    (h : initializeIntrinsic st (.invoke m target arguments) g arguments = some call) :
    CallOk p (.invoke m target arguments) st call := by
  have hchild : ∀ a ∈ arguments, a ∈ (Code.invoke m target arguments).children :=
    fun a ha => List.mem_cons_of_mem _ ha
  have hall : (Forest.nodesOf arguments).Sublist (Code.invoke m target arguments).inside :=
    List.sublist_append_right _ _
  have hbase : ∀ arg ∈ arguments, ∀ base, baseOf arg = some base →
      base.nodes.Sublist arg.nodes ∧ ¬ p.IsDirect base := by
    intro arg ha base hb
    obtain ⟨hmem, hnone⟩ := baseOf_mem hb
    refine ⟨(Forest.infix_nodes (Code.inside_subset (Code.child_inside hmem))).sublist, ?_⟩
    apply hp.not_isDirect (hr.inside_mem (Code.child_inside (hchild arg ha))) hmem
    rw [hnone]
    exact nofun
  have hdirect : ∀ a ∈ arguments, ¬ p.IsDirect a := fun a ha => hr.child_direct hp rfl (hchild a ha)
  unfold initializeIntrinsic at h
  split at h
  · next arg1 =>
    split at h
    · obtain ⟨base, hb, rfl⟩ := Option.map_eq_some_iff.mp h
      obtain ⟨hsub, hnd⟩ := hbase arg1 (by simp) base hb
      apply callOk_coalesce hp hr (Step.refl ..) (SameFields.refl st) [base] (fun _ _ _ _ => rfl)
        (fun c hc => hc)
      · have hsub' : (Forest.nodesOf [base]).Sublist (Forest.nodesOf [arg1]) := by
          rw [Forest.nodesOf_cons, Forest.nodesOf_cons]
          exact hsub.append (List.Sublist.refl _)
        exact (hsub'.trans hall).subperm
      · intro c hc
        rw [List.mem_singleton.mp hc]
        exact hnd
    · cases h
      exact callOk_coalesce hp hr (Step.refl ..) (SameFields.refl st) [arg1] (fun _ _ _ _ => rfl)
        (fun c hc => hc) hall.subperm hdirect
    · cases h
  · next arg1 arg2 =>
    split at h
    · obtain ⟨base, hb, rfl⟩ := Option.map_eq_some_iff.mp h
      obtain ⟨hsub, hnd⟩ := hbase arg1 (by simp) base hb
      apply callOk_coalesce hp hr (Step.refl ..) (SameFields.refl st) [base, arg2]
        (fun _ _ _ _ => rfl)
        (fun c hc => hc)
      · have hsub' : (Forest.nodesOf [base, arg2]).Sublist (Forest.nodesOf [arg1, arg2]) := by
          rw [Forest.nodesOf_cons, Forest.nodesOf_cons]
          exact hsub.append (List.Sublist.refl _)
        exact (hsub'.trans hall).subperm
      · intro c hc
        rcases List.mem_cons.mp hc with rfl | hc
        · exact hnd
        · exact hdirect c (List.mem_cons_of_mem _ hc)
    · cases h
      obtain ⟨hstep, hsame, hpref⟩ := step_assignConditionJump hr
      apply callOk_coalesce hp hr hstep hsame [arg1] (fun _ _ v _ => hpref _)
        (fun c hc => hc)
      · have hsub : (Forest.nodesOf [arg1]).Sublist (Forest.nodesOf [arg1, arg2]) := by
          rw [Forest.nodesOf_cons, Forest.nodesOf_cons]
          exact (List.Sublist.refl _).append (List.nil_sublist _)
        exact (hsub.trans hall).subperm
      · intro c hc
        exact hdirect c (List.mem_singleton.mp hc ▸ List.mem_cons_self)
    · cases h
      exact callOk_binaryOperator hp hr
    · cases h
  · cases h

/-- The body of a `with` expression shares its binding. -/
def withBody (st : Store) (m : NodeId) (body : Code) : Store :=
  st.setBindingAug body.id (st.bindingAug m)

/-- The parameter of a `with` expression that does not escape is its binding, too. -/
def withParameter (p : Program) (st : Store) (m : NodeId) : Store :=
  if p.escapes m then st else st.setParameters m (st.bindingAug m :: (st.parameters m).tail)

omit hp in
theorem withParameter_same (p : Program) (st : Store) (m : NodeId) :
    withParameter p st m = { st with parameters := (withParameter p st m).parameters } ∧
      ∀ x, x ≠ m → (withParameter p st m).parameters x = st.parameters x := by
  unfold withParameter
  split
  · exact ⟨rfl, fun _ _ => rfl⟩
  · exact ⟨rfl, fun x hx => Function.update_of_ne hx _ _⟩

/-- Nothing but a `with` expression has its parameter. -/
theorem with_parameter_unused {m : NodeId} {ref : Option Name} {body : Code}
    (hr : Ready p e (.withExpr m ref body) st) (hmode : b.mode = .value)
    (hexp : b.expression = some m) (hne : b ≠ .value m)
    (hv : v ∈ (Code.withExpr m ref body).inside) :
    ¬ Refers st b v := by
  intro href
  have hown : Owned (.withExpr m ref body) b :=
    ⟨.withExpr m ref body, Forest.mem_nodes_self _, hexp⟩
  have hvp := hr.inside_mem hv
  have hvm : v.id ≠ m := fun hid => Forest.ne_of_below hv (hp.eq_of_id hvp hr.mem_nodes hid)
  rcases hr.pristine.refers (Code.inside_subset hv) href with ⟨k, binding, rfl, rfl⟩ | h | h
  · obtain ⟨hname, w, hw, hbw, _⟩ := hp.linked k binding hvp hmode
    obtain ⟨_, _, _, hexp'⟩ := Code.mem_parameters hbw
    have hwm : w = .withExpr m ref body := by
      apply hp.eq_of_id hw hr.mem_nodes
      exact Option.some.inj (hexp'.symm.trans hexp)
    rw [hwm] at hbw
    have hbw : BndgId.named binding ∈ [BndgId.named (.parameter none .withExpr m 0)] := hbw
    cases List.mem_singleton.mp hbw
    exact hname rfl
  · obtain ⟨_, _, _, hexp'⟩ := Code.mem_parameters h
    exact hvm (Option.some.inj (hexp'.symm.trans hexp))
  · exact h hown

/-- The first two changes that the initializer of a `with` expression makes. -/
theorem callOk_withParameter {m : NodeId} {ref : Option Name} {body : Code}
    (hr : Ready p e (.withExpr m ref body) st) :
    CallOk p (.withExpr m ref body) st ⟨withParameter p (withBody st m body) m, [body],
      (withParameter p (withBody st m body) m).parameters m, bodyMask⟩ := by
  have hin : body ∈ (Code.withExpr m ref body).inside :=
    Code.child_inside (List.mem_singleton.mpr rfl)
  have hn := hr.mem_nodes
  have hbody := hr.inside_mem hin
  have hself := Forest.mem_nodes_self (Code.withExpr m ref body)
  have hu : p.Usable (st.bindingAug m) (.withExpr m ref body) := hr.inv.aug _ hn
  have hmb : m ≠ body.id := fun h => Forest.ne_of_below hin (hp.eq_of_id hbody hn h.symm)
  have haug : (withBody st m body).bindingAug m = st.bindingAug m := Function.update_of_ne hmb _ _
  have ho : Open p (.withExpr m ref body) (withBody st m body) :=
    (hr.isOpen hp).setBindingAug hp hn hin (hr.live _ hn _ hu.1 (Or.inl rfl))
      fun x hx => (hr.isOpen hp).aug_ne hn hx
  have hstep₁ : Step p (.withExpr m ref body) st (withBody st m body) :=
    Step.setBindingAug hp (Code.inside_subset hin) hbody (hu.inside hin) st
  have hinv := hstep₁.inv hr.inv
  have hlen : (st.parameters m).length = 1 := hr.inv.arity _ hn
  have htail : (st.parameters m).tail = [] := by
    apply List.eq_nil_of_length_eq_zero
    rw [List.length_tail, hlen]
  have hstep₂ : Step p (.withExpr m ref body) (withBody st m body)
      (withParameter p (withBody st m body) m) := by
    unfold withParameter
    split
    · exact Step.refl ..
    · apply Step.setParameters (w := .withExpr m ref body) hp hself hn
      · show (_ :: (st.parameters m).tail).length = 1
        rw [htail]
        rfl
      · intro b hb
        have hb : b ∈ (withBody st m body).bindingAug m :: (st.parameters m).tail := hb
        rw [htail, haug] at hb
        rw [List.mem_singleton.mp hb]
        exact Or.inr hu
  have hlive : Live p (withParameter p (withBody st m body) m) := by
    unfold withParameter
    split
    · exact ho.live
    · apply Live.setParameters (w := .withExpr m ref body) hp ho.live hn
      · intro b hb
        have hb : b ∈ (withBody st m body).bindingAug m :: (st.parameters m).tail := hb
        rw [htail, haug] at hb
        rw [List.mem_singleton.mp hb]
        exact ho.live _ hn _ hu.1 (Or.inl haug)
      · intro b hmode hexp hne hnot v hv huse
        have hown : Owned (.withExpr m ref body) b := ⟨_, hself, hexp⟩
        have hab : (withBody st m body).bindingAug m ≠ b := fun h => hnot (h ▸ List.mem_cons_self)
        rcases uses_setParameters (w := .withExpr m ref body) hp hn hv huse with ⟨_, h⟩ | h
        · exact hnot h
        · have hvn := hinv.uses_mem hp hn hr.direct hv hmode h hown
          rcases Code.mem_nodes_iff.mp hvn with hvin | rfl
          · rcases h with h | h
            · by_cases hvb : v.id = body.id
              · rw [hp.eq_of_id hv hbody hvb] at h
                exact hab (haug.trans ((aug_setBindingAug st body _).symm.trans h))
              · have h : (st.setBindingAug body.id (st.bindingAug m)).aug v = b := h
                rw [aug_setBindingAug_of_ne hvb, hr.pristine.aug v hvin] at h
                rw [← h] at hexp
                exact Forest.ne_of_below hvin (hp.eq_of_id hv hn (Option.some.inj hexp))
            · exact with_parameter_unused hp hr hmode hexp hne hvin h
          · rcases huse with h | ⟨h, _⟩ | h
            · exact hab h
            · cases h
            · have h : b ∈ Function.update (withBody st m body).parameters m
                  ((withBody st m body).bindingAug m :: (st.parameters m).tail) m := h
              rw [Function.update_self] at h
              exact hnot h
  obtain ⟨hsame, hother⟩ := withParameter_same p (withBody st m body) m
  refine ⟨hstep₁.trans hstep₂, ?_, Or.inr rfl, List.Subperm.refl _, ?_, ?_, hlive, ?_⟩
  · show (withParameter p (withBody st m body) m).bindingAug m = _
    rw [hsame]
    exact haug
  · intro c hc
    exact hr.child_direct hp rfl hc
  · show (withParameter p (withBody st m body) m).generator = _
    rw [hsame]
    rfl
  · intro c hc
    rw [List.mem_singleton.mp hc]
    refine (hr.pristine.mono (Code.inside_subset hin)).congr ?_ ?_ ?_ ?_ ?_
    · intro v hv
      show (withParameter p (withBody st m body) m).bindingAug v.id = _
      rw [hsame]
      apply aug_setBindingAug_of_ne
      intro hid
      have hvp := hr.inside_mem (Forest.inside_of_mem (Code.inside_subset hin) hv)
      exact Forest.ne_of_below hv (hp.eq_of_id hvp hbody hid)
    · intro v hv
      apply hother
      intro hid
      have hvp := Program.mem_of_mem_nodes hbody hv
      exact Forest.notMem_below hin (hp.eq_of_id hvp hn hid ▸ hv)
    all_goals
      intro v _
      dsimp only
      rw [hsame]
      rfl

theorem callOk_with {m : NodeId} {ref : Option Name} {body : Code} {call : InitCall}
    (hr : Ready p e (.withExpr m ref body) st) (h : initializeWith p st m body = some call) :
    CallOk p (.withExpr m ref body) st call := by
  have hok := callOk_withParameter hp hr
  have hsame := (withParameter_same p (withBody st m body) m).1
  have hcall : ∃ st₃, searchJumps p (withParameter p (withBody st m body) m) m body (p.jumps m) =
      some st₃ ∧ call = ⟨st₃, [body], st₃.parameters m, bodyMask⟩ := by
    unfold initializeWith at h
    simp only [Option.bind_eq_bind] at h
    obtain ⟨st₃, h₃, hcall⟩ := Option.bind_eq_some_iff.mp h
    exact ⟨st₃, h₃, (Option.some.inj hcall).symm⟩
  obtain ⟨st₃, h₃, rfl⟩ := hcall
  generalize withParameter p (withBody st m body) m = st₂ at *
  have hin : body ∈ (Code.withExpr m ref body).inside :=
    Code.child_inside (List.mem_singleton.mpr rfl)
  have hn := hr.mem_nodes
  have hbody := hr.inside_mem hin
  rcases searchJumps_cases h₃ with rfl | ⟨j, hj, k, binding, hk, hmode, hlt, hesc, r, hrm, rfl⟩
  · exact hok
  have href : st₂.symbolReference = st.symbolReference := by
    rw [hsame]
    rfl
  have hdepth : st₂.depth = st.depth := by
    rw [hsame]
    rfl
  have hdeep : Deepens st₂ e := by
    unfold Deepens
    rw [hdepth]
    exact hr.deep
  have hinv := hok.step.inv hr.inv
  -- the symbol stands in the body, and its binding belongs to something there
  have hjin : j ∈ (Code.withExpr m ref body).inside := by
    rcases hp.jumps _ hn j hj with h | h
    · exact h
    · cases Code.directTarget_isContinuation h
  have hkin : Code.symbol k binding ∈ (Code.withExpr m ref body).inside :=
    Forest.inside_of_mem (Code.inside_subset hjin) (Code.child_inside hk)
  obtain ⟨o, ho, hexp⟩ := bndgEscapes_false hesc
  have hoin : o ∈ (Code.withExpr m ref body).inside := by
    apply owner_inside hp hr.root hdeep hr.mem (Code.inside_subset hkin)
      (hinv.reference k binding (hr.inside_mem hkin) hmode) ho hexp
    unfold Store.bndgDepth at hlt
    rw [hexp] at hlt
    exact hlt
  have hownb : Owned body (st₂.symbolReference k) := by
    obtain ⟨c, hc, hoc⟩ := Forest.mem_nodesOf.mp hoin
    rw [List.mem_singleton.mp hc] at hoc
    exact ⟨o, hoc, hexp⟩
  have hkn : Refers st (st₂.symbolReference k) (.symbol k binding) :=
    Or.inl ⟨rfl, (congrFun href k).symm⟩
  generalize st₂.symbolReference k = t at *
  have hrh : p.Usable r (.withExpr m ref body) ∨ r ∈ (Code.withExpr m ref body).parameters :=
    (hinv.parameters _ hn r hrm).symm
  have hru : ∀ v ∈ body.nodes, p.Usable r v := by
    intro v hv
    apply hp.usable_under hn hrh.symm
    exact Or.inl (Forest.nodes_subset_of_mem hin hv)
  have hrmode : r.mode = .value := (hru body (Forest.mem_nodes_self body)).1
  have hsub : body.nodes ⊆ (Code.withExpr m ref body).nodes :=
    Forest.nodes_subset (Code.inside_subset hin)
  have hbodySub : body.nodes ⊆ p.nodes := fun v hv => Program.mem_of_mem_nodes hbody hv
  have hnodup : body.nodes.Nodup := Forest.nodup_of_mem hp.nodup_nodes hbody
  have hbd : ¬ p.IsDirect body := hr.child_direct hp rfl (List.mem_singleton.mpr rfl)
  have hin₃ : ∀ v ∈ body.nodes,
      Mapped (replaceBndg t r) st₂ (replaceValueBindings t r st₂ body) v :=
    fun v hv => mapped_foldl hp hinv hbodySub hnodup hru hv
  have hout₃ : ∀ v ∈ p.nodes, v ∉ body.nodes →
      Mapped id st₂ (replaceValueBindings t r st₂ body) v := by
    intro v hv hvb
    apply mapped_foldl_of_notMem
    intro x hx hid
    exact hvb (hp.eq_of_id hv (hbodySub hx) hid ▸ hx)
  have hstep := step_foldl_vreplace hp hsub hbodySub hru t hinv
  have hne : ∀ v ∈ (Code.withExpr m ref body).inside, t ≠ .value v.id :=
    fun v hv => (hr.isOpen hp).ne_of_refers (hr.inside_mem hkin) hkn hv
  refine ⟨hok.step.trans hstep, ?_, Or.inr rfl, List.Subperm.refl _, hok.direct, ?_, ?_, ?_⟩
  · rw [← hok.aug]
    exact (hout₃ _ hn (Forest.notMem_below hin)).aug
  · exact (replace_rest t r body.nodes st₂).2.trans hok.generator
  · apply hok.live.replace (hok.live _ hn r hrmode (Or.inr (Or.inr hrm))) hin₃ hout₃
    exact fun v hv huse => hinv.uses_mem hp hbody hbd hv hmode huse hownb
  · intro c hc
    rw [List.mem_singleton.mp hc]
    obtain ⟨hb, hg⟩ := replace_rest t r body.nodes st₂
    apply (hok.pristine body (List.mem_singleton.mpr rfl)).replace hin₃ hb hg
    · exact hinv.not_owned_below hp hn hr.direct hrmode (Or.inr (Or.inr hrm)) hin
    · exact fun v hv => hne v (Forest.inside_of_mem (Code.inside_subset hin) hv)

/-- What an initializer passes to `initialize-expressions` is as it should be. -/
theorem callOf_ok {inits : List Intrinsics} {g : ExprGenerator} {call : InitCall}
    (hr : Ready p e n st) (h : callOf p inits st n = some (g, call)) : CallOk p n st call := by
  cases n with
  | function m ref ps body =>
    cases h
    exact callOk_function hp hr
  | continuation m ref ps body =>
    cases h
    exact callOk_continuation hp hr
  | withExpr m ref body =>
    obtain ⟨call, hcall, heq⟩ := Option.map_eq_some_iff.mp h
    cases heq
    exact callOk_with hp hr hcall
  | storage m ref arguments =>
    cases h
    exact callOk_storage hp hr
  | jump m target arguments =>
    obtain ⟨call, hcall, heq⟩ := Option.map_eq_some_iff.mp h
    cases heq
    exact callOk_jump hp hr hcall
  | invoke m target arguments =>
    unfold callOf at h
    dsimp only at h
    split at h
    · obtain ⟨call, hcall, heq⟩ := Option.map_eq_some_iff.mp h
      cases heq
      exact callOk_intrinsic hp hr hcall
    · cases h
      exact callOk_invoke hp hr
  | ifExpr m condition consequent alternate =>
    cases h
    exact callOk_optimizedIf hp hr
  | constrain m body =>
    cases h
    exact callOk_constrain hp hr
  | symbol _ _ | literal _ _ => cases h

end

end L2.SelfHost
