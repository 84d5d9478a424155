import L2.SelfHost.Callers
import L2.SelfHost.Unshared

/-!
# Bindings that are used

The value of an expression at the top is never read.  Every other binding of a value that
something initialized has or refers to has been assigned a location if it is read.
-/

namespace L2.SelfHost

open X86 (Word)
open Graph

variable {p : Program} {inits : List Intrinsics} {e n m v w c : Code} {b : BndgId}
  {st st' F : Store}

/-! ## What is not read -/

/-- Nothing has been shared, and the value of the expression `k` is not read. -/
structure Unread (p : Program) (k : NodeId) (st : Store) : Prop where
  fields : Fields p st
  unread : (st.bndg (.value k)).isRead = false

namespace Unread

variable {k : NodeId}

theorem passed (h : Unread p k st) (hpass : Passed (fun x y => y.isRead = x.isRead) st st') :
    Unread p k st' := ⟨h.fields.passed hpass, (hpass.bndg _).trans h.unread⟩

theorem modify (h : Unread p k st) (hb : b ≠ .value k) (f : BndgAug → BndgAug) :
    Unread p k (st.modify b f) := by
  refine ⟨⟨h.fields.aug, h.fields.reference, h.fields.parameters, h.fields.generator⟩, ?_⟩
  rw [bndg_modify_of_ne (Ne.symm hb)]
  exact h.unread

theorem modifyAll (h : Unread p k st) {bs : List BndgId} (hbs : ∀ b ∈ bs, b ≠ .value k)
    (f : BndgAug → BndgAug) : Unread p k (st.modifyAll bs f) := by
  induction bs generalizing st with
  | nil => exact h
  | cons b bs ih =>
    exact ih (h.modify (hbs b List.mem_cons_self) f) fun x hx => hbs x (List.mem_cons_of_mem _ hx)

theorem setExprIsRead (h : Unread p k st) (hc : c.id ≠ k) (val : Bool) :
    Unread p k (setExprIsRead st c val) := by
  apply h.modify
  have haug : st.aug c = .value c.id := congrFun h.fields.aug c.id
  rw [haug]
  exact fun heq => hc (BndgId.value.inj heq)

theorem parameters_ne (h : Unread p k st) (hw : w ∈ p.nodes) :
    ∀ b ∈ st.parameters w.id, b ≠ .value k := by
  intro b hb hbk
  rw [h.fields.parameters w hw, hbk] at hb
  exact value_notMem_parameters _ _ hb

theorem setParameters (h : Unread p k st) (hw : w ∈ p.nodes) (val : Bool) :
    Unread p k (st.modifyAll (st.parameters w.id) (setIsRead val)) :=
  h.modifyAll (h.parameters_ne hw) _

end Unread

section

variable {k : NodeId}

mutual

theorem unread_assignExprIsReads : ∀ (e : Code) (st : Store), e ∈ p.nodes →
    (∀ v ∈ e.inside, v.id ≠ k) → Unread p k st → Unread p k (assignExprIsReads st e)
  | .literal _ _, _, _, _, h => h
  | .symbol n binding, st, he, _, h => by
    apply h.modify
    have href : st.symbolReference n = .named binding := h.fields.reference _ he rfl
    rw [href]
    exact nofun
  | .ifExpr n cond consq alte, st, he, hk, h => by
    have hin : ∀ x ∈ [cond, consq, alte], x ∈ (Code.ifExpr n cond consq alte).inside :=
      fun x hx => Code.child_inside hx
    have hstep : ∀ x ∈ [cond, consq, alte], ∀ v ∈ x.inside, v.id ≠ k :=
      fun x hx v hv => hk v (Forest.inside_of_mem (Code.inside_subset (hin x hx)) hv)
    have hcond := unread_assignExprIsReads cond st
      (Program.mem_of_inside he (hin cond (by simp))) (hstep cond (by simp)) h
    have hconsq := unread_assignExprIsReads consq _
      (Program.mem_of_inside he (hin consq (by simp))) (hstep consq (by simp))
      (hcond.setExprIsRead (hk cond (hin cond (by simp))) true)
    have halte := unread_assignExprIsReads alte _
      (Program.mem_of_inside he (hin alte (by simp))) (hstep alte (by simp))
      (hconsq.setExprIsRead (hk consq (hin consq (by simp))) true)
    exact halte.setExprIsRead (hk alte (hin alte (by simp))) true
  | .constrain n body, st, he, hk, h => by
    have hin : body ∈ (Code.constrain n body).inside :=
      Code.child_inside (List.mem_singleton.mpr rfl)
    exact (unread_assignExprIsReads body st (Program.mem_of_inside he hin)
      (fun v hv => hk v (Forest.inside_of_mem (Code.inside_subset hin) hv)) h).setExprIsRead
        (hk body hin) true
  | .function n ref params body, st, he, hk, h => by
    have hin : body ∈ (Code.function n ref params body).inside :=
      Code.child_inside (List.mem_singleton.mpr rfl)
    exact (unread_assignExprIsReads body _ (Program.mem_of_inside he hin)
      (fun v hv => hk v (Forest.inside_of_mem (Code.inside_subset hin) hv))
      (h.modify (b := (Code.function n ref params body).reference) nofun _)).setExprIsRead
        (hk body hin) true
  | .withExpr n ref body, st, he, hk, h => by
    have hin : body ∈ (Code.withExpr n ref body).inside :=
      Code.child_inside (List.mem_singleton.mpr rfl)
    have href := h.modify (b := (Code.withExpr n ref body).reference) nofun (setIsRead true)
    have hparams := href.modifyAll
      (fun b hb => h.parameters_ne he b (List.mem_of_mem_take (i := 1) hb)) (setIsRead true)
    exact (unread_assignExprIsReads body _ (Program.mem_of_inside he hin)
      (fun v hv => hk v (Forest.inside_of_mem (Code.inside_subset hin) hv)) hparams).setExprIsRead
        (hk body hin) true
  | .continuation n ref params body, st, he, hk, h => by
    have hin : body ∈ (Code.continuation n ref params body).inside :=
      Code.child_inside (List.mem_singleton.mpr rfl)
    have hparams := h.modifyAll (h.parameters_ne he) (setIsRead true)
    have href := hparams.modify (b := (Code.continuation n ref params body).reference) nofun
      (setIsRead true)
    exact (unread_assignExprIsReads body _ (Program.mem_of_inside he hin)
      (fun v hv => hk v (Forest.inside_of_mem (Code.inside_subset hin) hv)) href).setExprIsRead
        (hk body hin) false
  | .storage n ref args, st, he, hk, h => by
    have hin : ∀ u ∈ Forest.nodesOf args, u ∈ (Code.storage n ref args).inside := fun u hu => hu
    exact unread_assignArgumentReads args _ (fun u hu => Program.mem_of_inside he (hin u hu))
      (fun u hu => hk u (hin u hu))
      (h.modify (b := (Code.storage n ref args).reference) nofun _)
  | .jump n target args, st, he, hk, h => by
    have hin : target ∈ (Code.jump n target args).inside := Code.child_inside List.mem_cons_self
    have hargs : ∀ u ∈ Forest.nodesOf args, u ∈ (Code.jump n target args).inside :=
      fun u hu => List.mem_append_right _ hu
    exact unread_assignArgumentReads args _ (fun u hu => Program.mem_of_inside he (hargs u hu))
      (fun u hu => hk u (hargs u hu))
      ((unread_assignExprIsReads target st (Program.mem_of_inside he hin)
        (fun v hv => hk v (Forest.inside_of_mem (Code.inside_subset hin) hv)) h).setExprIsRead
          (hk target hin) true)
  | .invoke n target args, st, he, hk, h => by
    have hin : target ∈ (Code.invoke n target args).inside := Code.child_inside List.mem_cons_self
    have hargs : ∀ u ∈ Forest.nodesOf args, u ∈ (Code.invoke n target args).inside :=
      fun u hu => List.mem_append_right _ hu
    exact unread_assignArgumentReads args _ (fun u hu => Program.mem_of_inside he (hargs u hu))
      (fun u hu => hk u (hargs u hu))
      ((unread_assignExprIsReads target st (Program.mem_of_inside he hin)
        (fun v hv => hk v (Forest.inside_of_mem (Code.inside_subset hin) hv)) h).setExprIsRead
          (hk target hin) true)

theorem unread_assignArgumentReads : ∀ (es : List Code) (st : Store),
    (∀ u ∈ Forest.nodesOf es, u ∈ p.nodes) → (∀ u ∈ Forest.nodesOf es, u.id ≠ k) →
    Unread p k st → Unread p k (assignArgumentReads st es)
  | [], _, _, _, h => h
  | u :: args, st, he, hk, h => by
    have hu : u ∈ Forest.nodesOf (u :: args) :=
      Forest.mem_nodesOf.mpr ⟨u, List.mem_cons_self, Forest.mem_nodes_self u⟩
    have hin : ∀ v ∈ u.inside, v ∈ Forest.nodesOf (u :: args) := fun v hv =>
      Forest.nodes_subset_of_mem hu (Code.inside_subset hv)
    have hrest : ∀ v ∈ Forest.nodesOf args, v ∈ Forest.nodesOf (u :: args) :=
      fun v hv => List.mem_append_right _ hv
    exact unread_assignArgumentReads args _ (fun v hv => he v (hrest v hv))
      (fun v hv => hk v (hrest v hv))
      ((unread_assignExprIsReads u st (he u hu) (fun v hv => hk v (hin v hv)) h).setExprIsRead
        (hk u hu) true)

end

theorem unread_prepare {es : List Code} (hes : ∀ e ∈ es, e ∈ p.nodes)
    (hk : ∀ e ∈ es, ∀ v ∈ e.inside, v.id ≠ k) (offset : Word) (h : Unread p k st) :
    Unread p k (prepare p offset st es).2 := by
  induction es generalizing offset st with
  | nil => exact h
  | cons e es ih =>
    have htrans : ∀ x y z : BndgAug, y.isRead = x.isRead → z.isRead = y.isRead →
        z.isRead = x.isRead := fun _ _ _ h h' => h'.trans h
    have hclass := h.passed (passed_classify (R := fun x y => y.isRead = x.isRead) (fun _ => rfl)
      htrans (fun _ _ => rfl) e st)
    have hreads := unread_assignExprIsReads e _ (hes e List.mem_cons_self)
      (hk e List.mem_cons_self) hclass
    have hplaces := hreads.passed (passed_placePermBindings (R := fun x y => y.isRead = x.isRead)
      (fun _ => rfl) htrans (fun _ _ => rfl) (fun _ _ _ => rfl) p.escapes e offset _)
    exact ih (fun x hx => hes x (List.mem_cons_of_mem _ hx))
      (fun x hx => hk x (List.mem_cons_of_mem _ hx)) _ hplaces

end

/-- The value of an expression at the top is not read. -/
theorem unread_root (hp : p.WellFormed) (he : e ∈ p.exprs) :
    ((prepared p).bndg (.value e.id)).isRead = false := by
  have hroots : ∀ x ∈ p.exprs, x ∈ p.nodes :=
    fun x hx => Program.mem_of_root hx (Forest.mem_nodes_self x)
  refine (unread_prepare hroots ?_ (-words 1) ⟨fields_initial hp, rfl⟩).unread
  intro x hx v hv hid
  have hve : v = e := hp.eq_of_id (Program.mem_of_inside (hroots x hx) hv) (hroots e he) hid
  have hxe : x = e := Forest.eq_of_mem_of_mem hp.nodup_nodes hx he
    (hve ▸ Code.inside_subset hv) (Forest.mem_nodes_self e)
  exact Forest.ne_of_below hv (hve.trans hxe.symm)

/-! ## Every binding that is used -/

/-- Every jump to a known target has exactly as many arguments as the target has parameters. -/
def Program.Applied (p : Program) : Prop :=
  ∀ j ∈ p.nodes, ∀ dest, p.shortCircuit j.id = some dest →
    j.arguments.length = dest.parameters.length

/-- What an initializer passes over is a target of the jump, an `if` expression or an address. -/
theorem PassedOver.cases {g : ExprGenerator} (h : PassedOver n w c g) :
    n.directTarget = some w ∨ w.isIf = true ∨ baseOf w ≠ none := by
  cases h with
  | target h => exact .inl h
  | condition h => exact .inr (.inl h)
  | address h _ _ => exact .inr (.inr (h ▸ Option.some_ne_none _))

theorem Code.plain_of_parameters (h : b ∈ w.parameters) : w.isIf = false ∧ baseOf w = none := by
  cases w with
  | function _ _ _ _ | continuation _ _ _ _ | withExpr _ _ _ => exact ⟨rfl, rfl⟩
  | literal _ _ | symbol _ _ | storage _ _ _ | invoke _ _ _ | jump _ _ _ | ifExpr _ _ _ _
  | constrain _ _ => cases h

theorem Code.plain_of_directTarget {j : Code} (h : j.directTarget = some c) :
    j.isIf = false ∧ baseOf j = none ∧ j.isContinuation = false := by
  cases j with
  | jump _ _ _ => exact ⟨rfl, rfl, rfl⟩
  | literal _ _ | symbol _ _ | storage _ _ _ | function _ _ _ _ | continuation _ _ _ _
  | withExpr _ _ _ | invoke _ _ _ | ifExpr _ _ _ _ | constrain _ _ => cases h

section

variable (hp : p.WellFormed) (hok : LoopOk p inits p.exprs st F)

include hp hok

/-- What holds something that has been initialized has been initialized, or is the target of a
jump, unless it is one of the two other kinds. -/
theorem LoopOk.initialized_or_direct (hw : w ∈ p.nodes) (hm : m ∈ w.nodes)
    (hgm : F.generator m.id ≠ none) (hif : w.isIf = false) (hbase : baseOf w = none) :
    F.generator w.id ≠ none ∨ p.IsDirect w := by
  rcases Code.mem_nodes_iff.mp hm with hm | rfl
  · rcases hok.between hp hw hm hgm with hgen |
      ⟨n, e, st', g, call, offset, subs, placed, h, hwn, c, hc, hcw⟩
    · exact .inl hgen
    · rcases (h.passedOver hp hc hwn hcw).cases with ht | hi | hb
      · exact .inr ⟨n, h.ready.mem_nodes, ht⟩
      · rw [hif] at hi
        cases hi
      · exact absurd hbase hb
  · exact .inl hgm

/-- A parameter that something initialized uses has a location if it is read. -/
theorem LoopOk.used_parameter (happ : p.Applied) (hv : v ∈ p.nodes) (hm : m ∈ v.nodes)
    (hgm : F.generator m.id ≠ none) (huse : Uses F b v) (hw : w ∈ p.nodes)
    (hb : b ∈ w.parameters) (hread : (F.bndg b).isRead = true) : (F.bndg b).storage ≠ .nil := by
  obtain ⟨binding, hbinding, hmode, hexp⟩ := Code.mem_parameters hb
  have hhome : b ∈ F.parameters w.id := by
    have h := hok.live v hv b hmode huse w hw hexp
    rw [if_neg (hbinding ▸ nofun)] at h
    exact h
  by_cases hgen : F.generator w.id = none
  · obtain ⟨hif, hbase⟩ := Code.plain_of_parameters hb
    -- whoever uses the parameter is below what holds the construct
    have hin : ∀ x ∈ p.nodes, ¬ p.IsDirect x → w ∈ x.nodes → m ∈ x.nodes := by
      intro x hx hdirect hwx
      rcases hok.inv.usable hv hmode huse with hu | hu
      · exact Forest.nodes_subset (hu.mem hx hdirect hwx hexp) hm
      · obtain ⟨_, _, _, hexp'⟩ := Code.mem_parameters hu
        have hvw : v = w := hp.eq_of_id hv hw (Option.some.inj (hexp'.symm.trans hexp))
        exact Forest.nodes_subset hwx (hvw ▸ hm)
    have hdirect : p.IsDirect w := by
      by_contra hdirect
      rcases hok.initialized_or_direct hp hw (hin w hw hdirect (Forest.mem_nodes_self w)) hgm hif
        hbase with h | h
      · exact h hgen
      · exact hdirect h
    obtain ⟨j, hj, hjw⟩ := hdirect
    obtain ⟨hif, hbase, hcont⟩ := Code.plain_of_directTarget hjw
    have hjd : ¬ p.IsDirect j := by
      rintro ⟨i, _, hij⟩
      rw [Code.directTarget_isContinuation hij] at hcont
      cases hcont
    have hwj := Code.child_inside (Code.directTarget_mem hjw)
    have hjgen := (hok.initialized_or_direct hp hj (hin j hj hjd (Code.inside_subset hwj)) hgm hif
      hbase).resolve_right hjd
    obtain ⟨e, st', g, call, offset, subs, placed, h⟩ := hok.exists_callRun hp hj hjgen hwj
    exact h.target_assigned hp hjw (happ j hj w (hp.direct j hj w hjw)).ge hb hhome hread
  · exact hok.parameter_assigned hp hw hgen hb hhome hread

end

/-- A binding of a value that something initialized uses has a location if it is read. -/
theorem assigned_of_uses (hp : p.WellFormed) (happ : p.Applied) {fuel : Nat}
    (hF : initializeProgram p inits fuel = some F) (hv : v ∈ p.nodes) (hm : m ∈ v.nodes)
    (hgm : F.generator m.id ≠ none) (hmode : b.mode = .value)
    (huse : F.aug v = b ∧ F.generator v.id ≠ none ∨ Refers F b v)
    (hread : (F.bndg b).isRead = true) : (F.bndg b).storage ≠ .nil := by
  have hok := initializeProgram_ok hp hF
  have hkeeps := backed_initializeProgram hp hF
  have huses : Uses F b v := huse.imp_left And.left
  have hback : Backed p F b := by
    rcases huse with ⟨rfl, hgen⟩ | hrefers
    · exact hkeeps.aug v hv hgen
    · exact hkeeps.refers v hv b hrefers
  obtain ⟨o, ho, ⟨rfl, hgen⟩ | hb⟩ := hback hmode
  · have haug : F.aug o = .value o.id := by
      have h := hok.live v hv _ hmode huses o ho rfl
      rw [if_pos rfl] at h
      exact h
    by_cases hroot : o ∈ p.exprs
    · rw [hok.isRead, unread_root hp hroot] at hread
      cases hread
    · exact hok.value_assigned hp ho hgen haug hroot hread
  · exact hok.used_parameter hp happ hv hm hgm huses ho hb hread

end L2.SelfHost
