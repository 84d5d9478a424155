import L2.SelfHost.Located

/-!
# What has not been initialized is not shared

An initializer lets other expressions have the binding for the value of its own expression,
and bindings that something refers to.  So the binding for the value of an expression that is
never initialized is had by that expression alone.
-/

namespace L2.SelfHost

open X86 (Word)
open Graph

variable {p : Program} {inits : List Intrinsics} {e n u v : Code} {b : BndgId}
  {st st' st'' F : Store}

/-! ## Changes -/

/-- What expressions have and refer to is in `S`, apart from the values of those in `E`. -/
structure KeepsTo (p : Program) (S : BndgId → Prop) (E : Code → Prop) (st : Store) : Prop where
  aug : ∀ v ∈ p.nodes, ¬ E v → S (st.aug v)
  refers : ∀ v ∈ p.nodes, ∀ b, Refers st b v → S b

namespace KeepsTo

variable {S : BndgId → Prop} {E : Code → Prop} (h : KeepsTo p S E st)

include h

theorem names (hsame : st'.bindingAug = st.bindingAug ∧
    st'.symbolReference = st.symbolReference ∧ st'.parameters = st.parameters) :
    KeepsTo p S E st' := by
  obtain ⟨haug, href, hparams⟩ := hsame
  refine ⟨?_, ?_⟩
  · intro v hv hE
    unfold Store.aug
    rw [haug]
    exact h.aug v hv hE
  · unfold Refers
    rw [href, hparams]
    exact h.refers

theorem sameFields (hsame : SameFields st st') : KeepsTo p S E st' := by
  rw [hsame]
  exact ⟨h.aug, h.refers⟩

theorem setBindingAug (hp : p.WellFormed) (hu : u ∈ p.nodes) (hb : S b) :
    KeepsTo p S E (st.setBindingAug u.id b) := by
  refine ⟨?_, h.refers⟩
  intro v hv hE
  by_cases hid : v.id = u.id
  · rw [hp.eq_of_id hv hu hid, aug_setBindingAug]
    exact hb
  · rw [aug_setBindingAug_of_ne hid]
    exact h.aug v hv hE

omit h in
theorem setBindingAugs (hp : p.WellFormed) {us : List Code} (hus : ∀ u ∈ us, u ∈ p.nodes)
    {bs : List BndgId} (hbs : ∀ b ∈ bs, S b) (h : KeepsTo p S E st) :
    KeepsTo p S E (setBindingAugs st us bs) := by
  induction us generalizing bs st with
  | nil => exact h
  | cons u us ih =>
    cases bs with
    | nil => exact h
    | cons b bs =>
      apply ih (fun x hx => hus x (List.mem_cons_of_mem _ hx))
        (fun x hx => hbs x (List.mem_cons_of_mem _ hx))
      exact h.setBindingAug hp (hus u List.mem_cons_self) (hbs b List.mem_cons_self)

theorem coalesceExprBndg (hp : p.WellFormed) (hu : u ∈ p.nodes) :
    KeepsTo p S E (coalesceExprBndg st u) := by
  unfold SelfHost.coalesceExprBndg
  split
  · next m binding =>
    split
    · exact h.setBindingAug (u := .symbol m binding) hp hu (h.refers _ hu _ (Or.inl ⟨rfl, rfl⟩))
    · exact h
  · exact h

theorem setParameters {bs : List BndgId} (hbs : ∀ b ∈ bs, S b) (m : NodeId) :
    KeepsTo p S E (st.setParameters m bs) := by
  refine ⟨h.aug, ?_⟩
  rintro v hv b (hsym | hmem)
  · exact h.refers v hv b (Or.inl hsym)
  · have hmem : b ∈ Function.update st.parameters m bs v.id := hmem
    by_cases hid : v.id = m
    · rw [hid, Function.update_self] at hmem
      exact hbs b hmem
    · rw [Function.update_of_ne hid] at hmem
      exact h.refers v hv b (Or.inr hmem)

theorem setSymbolReference (hb : S b) (m : NodeId) :
    KeepsTo p S E (st.setSymbolReference m b) := by
  refine ⟨h.aug, ?_⟩
  rintro v hv b' (⟨hsym, href⟩ | hmem)
  · have href : Function.update st.symbolReference m b v.id = b' := href
    by_cases hid : v.id = m
    · rw [hid, Function.update_self] at href
      exact href ▸ hb
    · rw [Function.update_of_ne hid] at href
      exact h.refers v hv b' (Or.inl ⟨hsym, href⟩)
  · exact h.refers v hv b' (Or.inr hmem)

theorem vreplaceValueBindings (hp : p.WellFormed) (hv : v ∈ p.nodes) {replacement : BndgId}
    (hr : S replacement) (replTarget : BndgId) :
    KeepsTo p S E (vreplaceValueBindings replTarget replacement st v) := by
  have hfirst : KeepsTo p S E
      (if st.aug v = replTarget then st.setBindingAug v.id replacement else st) := by
    split
    · exact h.setBindingAug hp hv hr
    · exact h
  unfold SelfHost.vreplaceValueBindings
  generalize (if st.aug v = replTarget then st.setBindingAug v.id replacement else st) = st₁ at *
  have hparams : ∀ b ∈ (st₁.parameters v.id).map
      (fun b => if b = replTarget then replacement else b), S b := by
    intro b hb
    obtain ⟨b₀, hb₀, rfl⟩ := List.mem_map.mp hb
    split
    · exact hr
    · exact hfirst.refers v hv b₀ (Or.inr hb₀)
  cases v with
  | continuation _ _ _ _ | withExpr _ _ _ | function _ _ _ _ => exact hfirst.setParameters hparams _
  | symbol m binding =>
    dsimp only
    split
    · exact hfirst.setSymbolReference hr m
    · exact hfirst
  | literal _ _ | storage _ _ _ | invoke _ _ _ | jump _ _ _ | ifExpr _ _ _ _ | constrain _ _ =>
    exact hfirst

omit h in
theorem replaceValueBindings (hp : p.WellFormed) (hn : n ∈ p.nodes) {replacement : BndgId}
    (hr : S replacement) (replTarget : BndgId) (h : KeepsTo p S E st) :
    KeepsTo p S E (replaceValueBindings replTarget replacement st n) := by
  unfold SelfHost.replaceValueBindings
  have hsub : n.nodes ⊆ p.nodes := fun v hv => Program.mem_of_mem_nodes hn hv
  generalize n.nodes = l at *
  induction l generalizing st with
  | nil => exact h
  | cons v l ih =>
    exact ih (h.vreplaceValueBindings hp (hsub List.mem_cons_self) hr replTarget)
      fun x hx => hsub (List.mem_cons_of_mem _ hx)

end KeepsTo

/-! ## Calls -/

theorem sameFields_assignConditionJump (st : Store) (n : Code) :
    SameFields st (assignConditionJump st n) := by
  unfold assignConditionJump
  split
  · rfl
  · rfl

namespace KeepsTo

variable {S : BndgId → Prop} {E : Code → Prop} (h : KeepsTo p S E st) (hp : p.WellFormed)

include h hp

theorem initializeWith {m : NodeId} {ref : Option Scope.Name} {body : Code} {call : InitCall}
    (hn : .withExpr m ref body ∈ p.nodes) (hE : ¬ E (.withExpr m ref body))
    (hcall : initializeWith p st m body = some call) : KeepsTo p S E call.store := by
  have hbody : body ∈ p.nodes :=
    Program.mem_of_inside hn (Code.child_inside (List.mem_singleton.mpr rfl))
  have h₁ : KeepsTo p S E (st.setBindingAug body.id (st.bindingAug m)) :=
    h.setBindingAug hp hbody (h.aug _ hn hE)
  unfold SelfHost.initializeWith at hcall
  simp only [Option.bind_eq_bind] at hcall
  generalize st.setBindingAug body.id (st.bindingAug m) = st₁ at *
  have h₂ : KeepsTo p S E (if p.escapes m then st₁
      else st₁.setParameters m (st₁.bindingAug m :: (st₁.parameters m).tail)) := by
    split
    · exact h₁
    · apply h₁.setParameters
      intro b hb
      rcases List.mem_cons.mp hb with rfl | hb
      · exact h₁.aug _ hn hE
      · exact h₁.refers _ hn b (Or.inr (List.mem_of_mem_tail hb))
  generalize (if p.escapes m then st₁
      else st₁.setParameters m (st₁.bindingAug m :: (st₁.parameters m).tail)) = st₂ at *
  obtain ⟨st₃, hsearch, heq⟩ := Option.bind_eq_some_iff.mp hcall
  cases heq
  rcases searchJumps_cases hsearch with rfl | ⟨_, _, k, _, _, _, _, _, param, hparam, rfl⟩
  · exact h₂
  · exact h₂.replaceValueBindings hp hbody (h₂.refers _ hn param (Or.inr hparam)) _

theorem initializeJump {m : NodeId} {target : Code} {arguments : List Code} {call : InitCall}
    (hn : .jump m target arguments ∈ p.nodes)
    (hcall : initializeJump p st m target arguments = some call) : KeepsTo p S E call.store := by
  have hchild : ∀ x ∈ target :: arguments, x ∈ p.nodes :=
    fun x hx => Program.mem_of_inside hn (Code.child_inside hx)
  have hargs : ∀ x ∈ arguments, x ∈ p.nodes := fun x hx => hchild x (List.mem_cons_of_mem _ hx)
  cases target with
  | continuation k ref params body =>
    cases hcall
    apply setBindingAugs hp hargs _ h
    exact fun b hb => h.refers _ (hchild _ List.mem_cons_self) b (Or.inr hb)
  | _ =>
    unfold SelfHost.initializeJump at hcall
    dsimp only at hcall
    split at hcall
    · next param hparam =>
      obtain ⟨arg, harg, rfl⟩ := Option.map_eq_some_iff.mp hcall
      obtain ⟨dest, hdest, hparams⟩ := Option.map_eq_some_iff.mp hparam
      apply h.setBindingAug hp (hargs arg (List.mem_of_mem_head? harg))
      apply h.refers _ (hp.shortCircuit _ hn dest hdest).1
      exact Or.inr (hparams ▸ List.mem_singleton.mpr rfl)
    · cases hcall
      exact h

theorem initializeIntrinsic {g : Generator} {arguments : List Code}
    (hargs : ∀ x ∈ Forest.nodesOf arguments, x ∈ p.nodes) {call : InitCall}
    (hcall : initializeIntrinsic st n g arguments = some call) : KeepsTo p S E call.store := by
  have hself : ∀ a ∈ arguments, a ∈ p.nodes :=
    fun a ha => hargs a (Forest.mem_nodesOf.mpr ⟨a, ha, Forest.mem_nodes_self a⟩)
  have hbase : ∀ a ∈ arguments, ∀ base, baseOf a = some base → base ∈ p.nodes :=
    fun a ha base h => Program.mem_of_inside (hself a ha) (Code.child_inside (baseOf_mem h).1)
  unfold SelfHost.initializeIntrinsic at hcall
  split at hcall
  · next arg1 =>
    split at hcall
    · obtain ⟨base, heq, rfl⟩ := Option.map_eq_some_iff.mp hcall
      exact h.coalesceExprBndg hp (hbase arg1 List.mem_cons_self base heq)
    · cases hcall
      exact h.coalesceExprBndg hp (hself arg1 List.mem_cons_self)
    · cases hcall
  · next arg1 arg2 =>
    have harg1 := hself arg1 List.mem_cons_self
    have harg2 := hself arg2 (List.mem_cons_of_mem _ List.mem_cons_self)
    have hjump : KeepsTo p S E (assignConditionJump st n) :=
      h.sameFields (sameFields_assignConditionJump st n)
    split at hcall
    · obtain ⟨base, heq, rfl⟩ := Option.map_eq_some_iff.mp hcall
      exact (h.coalesceExprBndg hp (hbase arg1 List.mem_cons_self base heq)).coalesceExprBndg hp
        harg2
    · cases hcall
      exact hjump.coalesceExprBndg hp harg1
    · cases hcall
      unfold initializeBinaryOperator
      dsimp only
      split
      · exact h.sameFields (sameFields_modify ..)
      · split
        · exact h.sameFields (sameFields_modify ..)
        · split
          · exact h.sameFields (sameFields_modify ..)
          · exact (hjump.coalesceExprBndg hp harg1).coalesceExprBndg hp harg2
    · cases hcall
  · cases hcall

/-- The call of an initializer hands on what is referred to and the binding of its own value. -/
theorem callOf (hn : n ∈ p.nodes) (hE : ¬ E n) {g : ExprGenerator} {call : InitCall}
    (hcall : callOf p inits st n = some (g, call)) : KeepsTo p S E call.store := by
  have hchild : ∀ x ∈ n.children, x ∈ p.nodes :=
    fun x hx => Program.mem_of_inside hn (Code.child_inside hx)
  cases n with
  | function m ref params body =>
    cases hcall
    apply h.sameFields
    exact ((sameFields_setPrefs ..).trans (sameFields_assignParams ..)).trans (sameFields_modify ..)
  | continuation m ref params body | storage m ref arguments =>
    cases hcall
    exact h
  | withExpr m ref body =>
    obtain ⟨call, hcall, heq⟩ := Option.map_eq_some_iff.mp hcall
    cases heq
    exact h.initializeWith hp hn hE hcall
  | jump m target arguments =>
    obtain ⟨call, hcall, heq⟩ := Option.map_eq_some_iff.mp hcall
    cases heq
    exact h.initializeJump hp hn hcall
  | invoke m target arguments =>
    unfold SelfHost.callOf at hcall
    dsimp only at hcall
    split at hcall
    · obtain ⟨call, hcall, heq⟩ := Option.map_eq_some_iff.mp hcall
      cases heq
      apply h.initializeIntrinsic hp _ hcall
      intro x hx
      exact Program.mem_of_inside hn (Code.arguments_subset hx)
    · cases hcall
      exact h.sameFields (sameFields_setPrefs ..)
  | ifExpr m condition consequent alternate =>
    cases hcall
    have h₁ : KeepsTo p S E (genConds [] st condition).1 :=
      h.sameFields (genConds_bndg [] st condition).1
    have hself : S ((genConds [] st condition).1.bindingAug m) := h₁.aug _ hn hE
    exact (h₁.setBindingAug hp (hchild consequent (by simp [Code.children])) hself).setBindingAug hp
      (hchild alternate (by simp [Code.children])) hself
  | constrain m body =>
    cases hcall
    exact h.setBindingAug hp (hchild body (List.mem_singleton.mpr rfl)) (h.aug _ hn hE)
  | symbol _ _ | literal _ _ => cases hcall

end KeepsTo

/-! ## Runs -/

theorem intrinsicOf_view (href : SameReferences st st') (n : Code) :
    intrinsicOf inits st' n = intrinsicOf inits st n := by
  unfold intrinsicOf
  rw [initializeArithmeticIntrinsics_view href]

/-- What has been initialized as a plain invocation is no intrinsic. -/
def Plain (p : Program) (inits : List Intrinsics) (st : Store) : Prop :=
  ∀ n ∈ p.nodes, st.generator n.id = some .invoke → intrinsicOf inits st n = none

/-- From `st` to `st'` some expressions are initialized, and nothing else is shared. -/
structure Unshared (p : Program) (inits : List Intrinsics) (st st' : Store) : Prop where
  references : SameReferences st st'
  generator : ∀ v, st'.generator v = none → st.generator v = none
  keepsTo : ∀ S E, (∀ o ∈ p.nodes, E o → st'.generator o.id = none) → KeepsTo p S E st →
    KeepsTo p S E st'
  plain : Plain p inits st → Plain p inits st'

namespace Unshared

theorem refl (st : Store) : Unshared p inits st st :=
  ⟨fun _ => .inl rfl, fun _ h => h, fun _ _ _ h => h, id⟩

theorem trans (h : Unshared p inits st st') (h' : Unshared p inits st' st'') :
    Unshared p inits st st'' where
  references m := (h.references m).trans (h'.references m)
  generator v hv := h.generator v (h'.generator v hv)
  keepsTo S E hE hc :=
    h'.keepsTo S E hE (h.keepsTo S E (fun o ho hEo => h'.generator _ (hE o ho hEo)) hc)
  plain hplain := h'.plain (h.plain hplain)

/-- Only bindings and depths are different. -/
theorem of_names (h : st'.bindingAug = st.bindingAug ∧
    st'.symbolReference = st.symbolReference ∧ st'.parameters = st.parameters)
    (hgen : st'.generator = st.generator) : Unshared p inits st st' := by
  have href : SameReferences st st' := fun m => .inl (congrFun h.2.1 m)
  refine ⟨href, fun v hv => hgen ▸ hv, fun _ _ _ hc => hc.names h, ?_⟩
  intro hplain n hn hinvoke
  rw [hgen] at hinvoke
  rw [intrinsicOf_view href]
  exact hplain n hn hinvoke

end Unshared

theorem unshared_initSubs (hp : p.WellFormed) {init : Word → Store → Code → Option Initialized}
    (hinit : ∀ offset st n r, Ready p e n st → init offset st n = some r →
      Unshared p inits st r.store)
    (hruns : ∀ offset st n r, Ready p e n st → init offset st n = some r →
      RunOk p inits e n st r.store)
    {offset : Word} {es : List Code} {r r' : Initialized} (hw : Waiting p e n es r.store)
    (h : initSubs init offset r es = some r') : Unshared p inits r.store r'.store := by
  induction es generalizing r with
  | nil =>
    cases h
    exact .refl _
  | cons c es ih =>
    obtain ⟨r₁, h₁, hrest⟩ := Option.bind_eq_some_iff.mp h
    have hready := hw.ready List.mem_cons_self
    have hrun := hruns _ _ _ _ hready h₁
    exact (hinit _ _ _ _ hready h₁).trans
      (ih (r := ⟨minWord r.bottomOffset r₁.bottomOffset, r.inUse ||| r₁.inUse, r₁.store⟩)
        (hw.tail hp hrun) hrest)

/-- The end of an initializer, with what has been shared since it was called. -/
theorem unshared_finish (hp : p.WellFormed) (hn : n ∈ p.nodes) {g : ExprGenerator}
    {es : List Code} (href : SameReferences st st') (hgen : ∀ v, st'.generator v = none →
      st.generator v = none)
    (hkeepsTo : ∀ S E, ¬ E n → (∀ o ∈ p.nodes, E o → st'.generator o.id = none) →
      KeepsTo p S E st → KeepsTo p S E st')
    (hplain : Plain p inits st → Plain p inits st')
    (hg : g = .invoke → intrinsicOf inits st n = none) (hmoved : MovedAt n es st' st'')
    (hself : st''.generator n.id = some g) : Unshared p inits st st'' := by
  have href' : SameReferences st st'' :=
    fun m => (href m).trans (.inl (congrFun hmoved.names.2.1 m))
  have hother : ∀ v, v ≠ n.id → st''.generator v = st'.generator v := by
    intro v hv
    exact generator_of_fields (v := .literal v 0) (hmoved.fields v hv)
  refine ⟨href', ?_, ?_, ?_⟩
  · intro v hv
    have hvn : v ≠ n.id := by
      rintro rfl
      rw [hself] at hv
      cases hv
    exact hgen v (hother v hvn ▸ hv)
  · intro S E hE hc
    refine (hkeepsTo S E ?_ ?_ hc).names hmoved.names
    · intro hEn
      have hnone := hE n hn hEn
      rw [hself] at hnone
      cases hnone
    · intro o ho hEo
      have hnone := hE o ho hEo
      have hon : o.id ≠ n.id := by
        intro hid
        rw [hid, hself] at hnone
        cases hnone
      exact hother _ hon ▸ hnone
  · intro h m hm hinvoke
    have hkept : SameReferences st' st'' := fun m => .inl (congrFun hmoved.names.2.1 m)
    rw [intrinsicOf_view hkept]
    by_cases hid : m.id = n.id
    · have hmn : m = n := hp.eq_of_id hm hn hid
      rw [hid, hself] at hinvoke
      rw [intrinsicOf_view href, hmn]
      exact hg (Option.some.inj hinvoke)
    · rw [hother _ hid] at hinvoke
      exact hplain h m hm hinvoke

theorem callOf_invoke {call : InitCall} (h : callOf p inits st n = some (.invoke, call)) :
    intrinsicOf inits st n = none := by
  cases n with
  | invoke k target arguments =>
    unfold callOf at h
    dsimp only at h
    split at h
    · obtain ⟨_, _, heq⟩ := Option.map_eq_some_iff.mp h
      cases heq
    · next hnone => exact hnone
  | withExpr k ref body | jump k target arguments =>
    obtain ⟨_, _, heq⟩ := Option.map_eq_some_iff.mp h
    cases heq
  | function _ _ _ _ | continuation _ _ _ _ | storage _ _ _ | ifExpr _ _ _ _ | constrain _ _
  | symbol _ _ | literal _ _ => cases h

theorem unshared_leaf (hp : p.WellFormed) (hr : Ready p e n st) {g : ExprGenerator}
    (hg : g ≠ .invoke) : Unshared p inits st (setGenerated g n st) := by
  obtain ⟨hmoved, hgen⟩ := movedAt_setGenerated g n [] st
  exact unshared_finish hp hr.mem_nodes (fun _ => .inl rfl) (fun _ h => h) (fun _ _ _ _ h => h) id
    (fun h => absurd h hg) hmoved hgen

/-- A run of an initializer shares nothing that it does not initialize. -/
theorem unshared_initializeExpression (hp : p.WellFormed) (fuel : Nat) : ∀ offset st n r,
    Ready p e n st → initializeExpression p inits fuel offset st n = some r →
      Unshared p inits st r.store := by
  induction fuel with
  | zero =>
    intro offset st n r _ h
    cases h
  | succ fuel ih =>
    intro offset st n r hr heq
    unfold initializeExpression at heq
    split at heq
    · cases heq
      exact unshared_leaf hp hr nofun
    · cases heq
      exact unshared_leaf hp hr nofun
    · obtain ⟨⟨g, call⟩, hcall, heq⟩ := Option.bind_eq_some_iff.mp heq
      obtain ⟨placed, hcalled, hfinish⟩ := Option.bind_eq_some_iff.mp heq
      cases hfinish
      obtain ⟨subs, hsubs, hlocate⟩ := Option.bind_eq_some_iff.mp hcalled
      have hok := callOf_ok hp hr hcall
      have hw := hr.waiting hp hok
      have hsubsOk := initSubs_ok hp (initializeExpression_ok hp fuel)
        (r := ⟨_, call.mask, call.store⟩) hw hsubs
      have hrest : Unshared p inits call.store subs.store := unshared_initSubs hp ih
        (initializeExpression_ok hp fuel) (r := ⟨_, call.mask, call.store⟩) hw hsubs
      have href : SameReferences st call.store := (tuned_callOf hp hr hcall).reference
      have hself : subs.store.fields n.id = call.store.fields n.id := by
        apply hsubsOk.fields
        intro c hc hid
        have hcn := hok.exprs.subset hc
        exact Forest.ne_of_below hcn (hp.eq_of_id (hr.inside_mem hcn) hr.mem_nodes hid)
      have hb : call.bndgs = [] ∨ call.bndgs = subs.store.parameters n.id := by
        rw [parameters_of_fields hself]
        exact hok.bndgs
      obtain ⟨hfin, hgen⟩ := movedAt_finish g n call.exprs offset placed
      apply unshared_finish hp hr.mem_nodes (fun m => (href m).trans (hrest.references m)) _ _ _ _
        ((movedAt_locate hb hlocate).trans hfin) hgen
      · intro v hv
        rw [← hok.generator]
        exact hrest.generator v hv
      · intro S E hEn hE hc
        exact hrest.keepsTo S E hE (hc.callOf hp hr.mem_nodes hEn hcall)
      · intro hplain
        apply hrest.plain
        intro m hm hinvoke
        rw [hok.generator] at hinvoke
        rw [intrinsicOf_view href]
        exact hplain m hm hinvoke
      · rintro rfl
        exact callOf_invoke hcall

/-! ## Programs -/

theorem unshared_initializeAll (hp : p.WellFormed) {fuel : Nat} {offset : Word} {es : List Code}
    (h : Pending p es st) (heq : initializeAll p inits fuel offset st es = some F) :
    Unshared p inits st F := by
  induction es generalizing st with
  | nil =>
    cases heq
    exact .refl _
  | cons e es ih =>
    obtain ⟨r, hround, hrest⟩ := Option.bind_eq_some_iff.mp heq
    have htail := ih (h.tail hp (roundOk hp h hround)) hrest
    have he := h.roots e List.mem_cons_self
    have hnum := numbered_assignDepths e 0 st (nodup_ids_of_mem hp.nodup he)
    obtain ⟨r₁, hsubs, hlocate⟩ := Option.bind_eq_some_iff.mp hround
    obtain ⟨r₂, hrun, hsubs⟩ := Option.bind_eq_some_iff.mp hsubs
    cases hsubs
    have hdepths : Unshared p inits st (assignDepths 0 st e) := by
      rw [hnum.same]
      exact .of_names ⟨rfl, rfl, rfl⟩ rfl
    have hplaced : Unshared p inits r₂.store r.store := by
      rw [(locate_ok hlocate).1.placing.same]
      exact .of_names ⟨rfl, rfl, rfl⟩ rfl
    exact ((hdepths.trans (unshared_initializeExpression hp fuel _ _ _ _ (h.ready hp) hrun)).trans
      hplaced).trans htail

/-- The binding is that for the value of something that has been initialized, or a parameter. -/
def Backed (p : Program) (F : Store) (b : BndgId) : Prop :=
  b.mode = .value → ∃ o ∈ p.nodes, b = .value o.id ∧ F.generator o.id ≠ none ∨ b ∈ o.parameters

theorem Fields.backed (hp : p.WellFormed) (h : Fields p st) :
    KeepsTo p (Backed p F) (fun v => F.generator v.id = none) st := by
  refine ⟨?_, ?_⟩
  · intro v hv hgen _
    exact ⟨v, hv, .inl ⟨congrFun h.aug v.id, hgen⟩⟩
  · rintro v hv b (⟨hsym, rfl⟩ | hmem) hmode
    · obtain ⟨m, binding, rfl⟩ := Code.eq_symbol hsym
      rw [h.reference _ hv hsym] at hmode ⊢
      obtain ⟨_, w, hw, hb, _⟩ := hp.linked m binding hv hmode
      exact ⟨w, hw, .inr hb⟩
    · rw [h.parameters v hv] at hmem
      exact ⟨v, hv, .inr hmem⟩

/-- In an initialized program the binding for the value of an expression that has not been
initialized is used for that expression alone. -/
theorem backed_initializeProgram (hp : p.WellFormed) {fuel : Nat}
    (h : initializeProgram p inits fuel = some F) :
    KeepsTo p (Backed p F) (fun v => F.generator v.id = none) F :=
  (unshared_initializeAll hp (pending_prepared hp) h).keepsTo _ _ (fun _ _ hgen => hgen)
    ((fields_prepared hp).backed hp)

/-- An invocation has been initialized as the intrinsic that it is in the program, or as a
plain one if it is none. -/
theorem generator_invoke (hp : p.WellFormed) {fuel : Nat}
    (h : initializeProgram p inits fuel = some F) :
    SameReferences (Store.initial p) F ∧ Plain p inits F := by
  have hun := unshared_initializeAll hp (pending_prepared hp) h
  have hf := fields_prepared hp
  refine ⟨?_, hun.plain fun n hn hinvoke => ?_⟩
  · have hnames := (keepsPlace_prepare p p.exprs (-words 1) (Store.initial p)).names
    intro m
    have hsame : (prepared p).symbolReference m = (Store.initial p).symbolReference m := by
      unfold prepared
      rw [hnames]
    have href := hun.references m
    rw [hsame] at href
    exact href
  · rw [hf.generator n hn] at hinvoke
    cases hinvoke

end L2.SelfHost
