import L2.SelfHost.Sharing

/-!
# What initializers find and pass on

The initializer of an expression finds it as it was made, in a tree that is numbered by
depth.  What it passes to `initialize-expressions` is `CallOk`: different expressions below
its own that are initialized as they stand and have not been come to, after changes that
leave every binding at home.
-/

namespace L2.SelfHost

open Scope (Binding Name)
open Graph

variable {p : Program} {e n u v w : Code} {b : BndgId} {st st' st'' : Store}

/-! ## Depths -/

/-- The children of everything in the tree are numbered one deeper. -/
def Deepens (st : Store) (e : Code) : Prop :=
  ∀ n ∈ e.nodes, ∀ c ∈ n.children, st.depth c.id = st.depth n.id + 1

theorem Deepens.lt (hd : Deepens st e) (hn : n ∈ e.nodes) (hv : v ∈ n.inside) :
    st.depth n.id < st.depth v.id := by
  induction n using Forest.induction with
  | step n ih =>
    obtain ⟨c, hc, hv⟩ := Forest.mem_nodesOf.mp hv
    have hcn : st.depth c.id = st.depth n.id + 1 := hd n hn c hc
    rcases Code.mem_nodes_iff.mp hv with hv | rfl
    · have hlt := ih c hc (Forest.nodes_subset hn (Code.inside_subset (Code.child_inside hc))) hv
      omega
    · omega

theorem Program.WellFormed.root_not_direct (hp : p.WellFormed) (he : e ∈ p.exprs) :
    ¬ p.IsDirect e := by
  rintro ⟨j, hj, hje⟩
  have hchild := Code.directTarget_mem hje
  obtain ⟨e', he', hj⟩ := Forest.mem_nodesOf.mp hj
  have hee : e = e' := Forest.eq_of_mem_of_mem hp.nodup_nodes he he' (Forest.mem_nodes_self e)
    (Forest.nodes_subset hj (Code.inside_subset (Code.child_inside hchild)))
  exact Forest.notMem_below (Code.child_inside hchild) (hee ▸ hj)

theorem Program.mem_of_root (he : e ∈ p.exprs) (hn : n ∈ e.nodes) : n ∈ p.nodes :=
  Forest.mem_nodesOf.mpr ⟨e, he, hn⟩

/-- What is used at or below `n` and belongs to something deeper than `n` belongs to
something below it. -/
theorem owner_inside (hp : p.WellFormed) (he : e ∈ p.exprs) (hd : Deepens st e)
    (hn : n ∈ e.nodes) (hv : v ∈ n.nodes) (hb : p.Usable b v) (hw : w ∈ p.nodes)
    (hbw : b.expression = some w.id) (hlt : st.depth n.id < st.depth w.id) : w ∈ n.inside := by
  have hvp : v ∈ p.nodes := Program.mem_of_root he (Forest.nodes_subset hn hv)
  have hnp : n ∈ p.nodes := Program.mem_of_root he hn
  -- it is enough to find something with the owner in it that is below `n`, or holds `n` strictly
  have key : ∀ m ∈ p.nodes, ¬ p.IsDirect m → w ∈ m.nodes →
      m ∈ n.nodes ∨ n ∈ m.inside := by
    intro m hm hdirect hwm
    have hvm := hb.mem hm hdirect hwm hbw
    rcases Forest.nested hp.nodup_nodes hm hnp hvm hv with h | h
    · exact Or.inl h
    · rcases Code.mem_nodes_iff.mp h with h | rfl
      · exact Or.inr h
      · exact Or.inl (Forest.mem_nodes_self n)
  have hwe : w ∈ e.nodes := by
    obtain ⟨e', he', hwe'⟩ := Forest.mem_nodesOf.mp hw
    have hve' := hb.mem (Program.mem_of_root he' (Forest.mem_nodes_self e'))
      (hp.root_not_direct he') hwe' hbw
    have hee : e = e' := Forest.eq_of_mem_of_mem hp.nodup_nodes he he'
      (Forest.nodes_subset hn hv) hve'
    exact hee ▸ hwe'
  by_cases hdirect : p.IsDirect w
  · obtain ⟨j, hj, hjw⟩ := hdirect
    have hwj : w ∈ j.inside := Code.child_inside (Code.directTarget_mem hjw)
    have hjd : ¬ p.IsDirect j := by
      rintro ⟨i, hi, hij⟩
      have hcont := Code.directTarget_isContinuation hij
      cases j with
      | continuation _ _ _ _ => cases hjw
      | literal _ _ | symbol _ _ | storage _ _ _ | function _ _ _ _ | withExpr _ _ _
      | invoke _ _ _ | jump _ _ _ | ifExpr _ _ _ _ | constrain _ _ => cases hcont
    have hje : j ∈ e.nodes := by
      have hne : w ≠ e := by
        rintro rfl
        exact hp.root_not_direct he ⟨j, hj, hjw⟩
      exact hp.parent_mem hj (Program.mem_of_root he (Forest.mem_nodes_self e))
        (Code.directTarget_mem hjw) hwe hne
    rcases key j hj hjd (Code.inside_subset hwj) with h | h
    · exact Forest.inside_of_mem h hwj
    · have hjn := hd.lt hje h
      have hwj' : st.depth w.id = st.depth j.id + 1 := hd j hje w (Code.directTarget_mem hjw)
      omega
  · rcases key w hw hdirect (Forest.mem_nodes_self w) with h | h
    · rcases Code.mem_nodes_iff.mp h with h | rfl
      · exact h
      · omega
    · have hwn := hd.lt hwe h
      omega

/-! ## Changes of bindings only -/

/-- Only bindings are different. -/
def SameFields (st st' : Store) : Prop := st' = { st with bndg := st'.bndg }

theorem SameFields.refl (st : Store) : SameFields st st := rfl

theorem SameFields.trans (h : SameFields st st') (h' : SameFields st' st'') :
    SameFields st st'' := by
  unfold SameFields at h h' ⊢
  rw [h', h]

theorem sameFields_modify (st : Store) (b : BndgId) (f : BndgAug → BndgAug) :
    SameFields st (st.modify b f) := rfl

theorem sameFields_modifyAll (st : Store) (bs : List BndgId) (f : BndgAug → BndgAug) :
    SameFields st (st.modifyAll bs f) := by
  induction bs generalizing st with
  | nil => rfl
  | cons b bs ih => exact (sameFields_modify st b f).trans (ih _)

theorem sameFields_setPrefs (st : Store) (bs : List BndgId) (regs : List Register) :
    SameFields st (setPrefs st bs regs) := by
  induction bs generalizing st regs with
  | nil => rfl
  | cons b bs ih =>
    cases regs with
    | nil => rfl
    | cons reg regs => exact (sameFields_modify st b _).trans (ih _ _)

theorem sameFields_assignParams (st : Store) (offset : X86.Word) (bs : List BndgId) :
    SameFields st (assignParams st offset bs) := by
  induction bs generalizing st offset with
  | nil => rfl
  | cons b bs ih => exact (sameFields_modify st b _).trans (ih _ _)

theorem SameFields.live (h : SameFields st st') (hl : Live p st) : Live p st' := by
  rw [h]
  exact hl

theorem SameFields.aug (h : SameFields st st') (v : Code) : st'.aug v = st.aug v := by
  rw [h]
  rfl

theorem SameFields.pristine (h : SameFields st st') (hr : Pristine n st)
    (hpref : ∀ v ∈ n.inside,
      (st'.bndg (.value v.id)).preferred = (st.bndg (.value v.id)).preferred) :
    Pristine n st' := by
  refine hr.congr ?_ ?_ ?_ ?_ hpref
  · exact fun v _ => h.aug v
  all_goals
    intro v _
    rw [h]

theorem bndg_modify_of_ne {b b' : BndgId} (h : b' ≠ b) (st : Store) (f : BndgAug → BndgAug) :
    (st.modify b f).bndg b' = st.bndg b' := Function.update_of_ne h _ _

theorem bndg_modify (st : Store) (b : BndgId) (f : BndgAug → BndgAug) :
    (st.modify b f).bndg b = f (st.bndg b) := Function.update_self ..

theorem bndg_setPrefs {bs : List BndgId} (h : b ∉ bs) (regs : List Register) (st : Store) :
    (setPrefs st bs regs).bndg b = st.bndg b := by
  induction bs generalizing st regs with
  | nil => rfl
  | cons b' bs ih =>
    have h := not_or.mp (fun h' => h (List.mem_cons.mpr h'))
    cases regs with
    | nil => rfl
    | cons reg regs =>
      show (setPrefs _ bs regs).bndg b = _
      rw [ih h.2, bndg_modify_of_ne h.1]

theorem bndg_assignParams {bs : List BndgId} (h : b ∉ bs) (offset : X86.Word) (st : Store) :
    (assignParams st offset bs).bndg b = st.bndg b := by
  induction bs generalizing st offset with
  | nil => rfl
  | cons b' bs ih =>
    have h := not_or.mp (fun h' => h (List.mem_cons.mpr h'))
    show (assignParams _ _ bs).bndg b = _
    rw [ih h.2, bndg_modify_of_ne h.1]

theorem coalesceExprBndg_same (st : Store) (u : Code) :
    coalesceExprBndg st u = { st with bindingAug := (coalesceExprBndg st u).bindingAug } := by
  unfold coalesceExprBndg
  split
  · split
    · rfl
    · rfl
  · rfl

theorem aug_coalesceExprBndg (h : v.id ≠ u.id) (st : Store) :
    (coalesceExprBndg st u).aug v = st.aug v := by
  unfold coalesceExprBndg
  split
  · split
    · exact aug_setBindingAug_of_ne (u := .symbol _ _) h st _
    · rfl
  · rfl

theorem setBindingAugs_same (st : Store) (us : List Code) (bs : List BndgId) :
    setBindingAugs st us bs =
      { st with bindingAug := (setBindingAugs st us bs).bindingAug } := by
  induction us generalizing st bs with
  | nil => rfl
  | cons u us ih =>
    cases bs with
    | nil => rfl
    | cons b bs =>
      show setBindingAugs (st.setBindingAug u.id b) us bs = _
      rw [ih]
      rfl

theorem aug_setBindingAugs {us : List Code} (h : ∀ u ∈ us, v.id ≠ u.id) (bs : List BndgId)
    (st : Store) : (setBindingAugs st us bs).aug v = st.aug v := by
  induction us generalizing st bs with
  | nil => rfl
  | cons u us ih =>
    cases bs with
    | nil => rfl
    | cons b bs =>
      show (setBindingAugs _ us bs).aug v = _
      rw [ih (fun x hx => h x (List.mem_cons_of_mem _ hx)),
        aug_setBindingAug_of_ne (h u List.mem_cons_self)]

/-! ## What is asked of a call -/

/-- The expression `n` of the tree `e` is about to be initialized. -/
structure Ready (p : Program) (e n : Code) (st : Store) : Prop where
  root : e ∈ p.exprs
  mem : n ∈ e.nodes
  direct : ¬ p.IsDirect n
  deep : Deepens st e
  inv : Scoped p st
  live : Live p st
  pristine : Pristine n st

/-- What the initializer of `n` has passed on.  Parameters that it gives locations are those
of `n`. -/
structure CallOk (p : Program) (n : Code) (st : Store) (call : InitCall) : Prop where
  step : Step p n st call.store
  aug : call.store.aug n = st.aug n
  bndgs : call.bndgs = [] ∨ call.bndgs = call.store.parameters n.id
  exprs : (Forest.nodesOf call.exprs).Subperm n.inside
  direct : ∀ c ∈ call.exprs, ¬ p.IsDirect c
  generator : call.store.generator = st.generator
  live : Live p call.store
  pristine : ∀ c ∈ call.exprs, Pristine c call.store

theorem Ready.mem_nodes (h : Ready p e n st) : n ∈ p.nodes := Program.mem_of_root h.root h.mem

theorem Ready.inside_mem (h : Ready p e n st) (hv : v ∈ n.inside) : v ∈ p.nodes :=
  Program.mem_of_inside h.mem_nodes hv

theorem Ready.isOpen (hp : p.WellFormed) (h : Ready p e n st) : Open p n st :=
  ⟨h.live, fun _ hu => h.pristine.fresh hp h.inv h.mem_nodes h.direct hu⟩

theorem Ready.child_direct (hp : p.WellFormed) (h : Ready p e n st) (hn : n.directTarget = none)
    (hv : v ∈ n.children) : ¬ p.IsDirect v := by
  apply hp.not_isDirect h.mem_nodes hv
  rw [hn]
  exact nofun

/-- The children of `n` have other values than what is deeper. -/
theorem Ready.value_ne (h : Ready p e n st) (hu : u ∈ n.children) (hw : w ∈ n.inside)
    (hv : v ∈ w.inside) : BndgId.value v.id ≠ .value u.id := by
  intro heq
  have hid : v.id = u.id := BndgId.value.inj heq
  have hun : st.depth u.id = st.depth n.id + 1 := h.deep n h.mem u hu
  have hnw := h.deep.lt h.mem hw
  have hwv := h.deep.lt (Forest.nodes_subset h.mem (Code.inside_subset hw)) hv
  rw [hid] at hwv
  omega

/-- The calls that have changed bindings only. -/
theorem CallOk.of_sameFields (hr : Ready p e n st) {call : InitCall}
    (hstep : Step p n st call.store)
    (hsame : SameFields st call.store)
    (hpref : ∀ c ∈ call.exprs, ∀ v ∈ c.inside,
      (call.store.bndg (.value v.id)).preferred = (st.bndg (.value v.id)).preferred)
    (hbndgs : call.bndgs = [] ∨ call.bndgs = st.parameters n.id)
    (hexprs : (Forest.nodesOf call.exprs).Subperm n.inside)
    (hdirect : ∀ c ∈ call.exprs, ¬ p.IsDirect c) : CallOk p n st call where
  step := hstep
  aug := hsame.aug n
  bndgs := by
    rcases hbndgs with h | h
    · exact Or.inl h
    · rw [hsame]
      exact Or.inr h
  exprs := hexprs
  direct := hdirect
  generator := by rw [hsame]
  live := hsame.live hr.live
  pristine c hc := by
    have hcn : c ∈ n.inside :=
      hexprs.subset (Forest.mem_nodesOf.mpr ⟨c, hc, Forest.mem_nodes_self c⟩)
    exact hsame.pristine (hr.pristine.mono (Code.inside_subset hcn)) (hpref c hc)

theorem Ready.nodup_inside (hp : p.WellFormed) (h : Ready p e n st) : n.inside.Nodup :=
  Forest.nodup_children (Forest.nodup_of_mem hp.nodup_nodes h.mem_nodes)

/-- The calls that have also given other bindings to some of the expressions. -/
theorem CallOk.of_augs (hp : p.WellFormed) (hr : Ready p e n st) {call : InitCall}
    (hstep : Step p n st call.store)
    (hsame : call.store =
      { st with bndg := call.store.bndg, bindingAug := call.store.bindingAug })
    (haug : ∀ v ∈ p.nodes, v ∉ call.exprs → call.store.aug v = st.aug v)
    (hpref : ∀ c ∈ call.exprs, ∀ v ∈ c.inside,
      (call.store.bndg (.value v.id)).preferred = (st.bndg (.value v.id)).preferred)
    (hbndgs : call.bndgs = []) (hexprs : (Forest.nodesOf call.exprs).Subperm n.inside)
    (hdirect : ∀ c ∈ call.exprs, ¬ p.IsDirect c) (hlive : Live p call.store) :
    CallOk p n st call := by
  have hin : ∀ c ∈ call.exprs, c ∈ n.inside := fun c hc =>
    hexprs.subset (Forest.mem_nodesOf.mpr ⟨c, hc, Forest.mem_nodes_self c⟩)
  have hnodup : (Forest.nodesOf call.exprs).Nodup := by
    obtain ⟨l, hl, hsub⟩ := hexprs
    exact hl.nodup_iff.mp (hsub.nodup (hr.nodup_inside hp))
  refine ⟨hstep, ?_, Or.inl hbndgs, hexprs, hdirect, by rw [hsame], hlive, ?_⟩
  · apply haug n hr.mem_nodes
    intro hn
    exact Forest.ne_of_below (hin n hn) rfl
  · intro c hc
    have hcn := hin c hc
    refine (hr.pristine.mono (Code.inside_subset hcn)).congr ?_ ?_ ?_ ?_ (hpref c hc)
    · intro v hv
      apply haug v (hr.inside_mem (Forest.inside_of_mem (Code.inside_subset hcn) hv))
      intro hve
      have hvc : v = c := Forest.eq_of_mem_of_mem hnodup hve hc (Forest.mem_nodes_self v)
        (Code.inside_subset hv)
      exact Forest.ne_of_below hv hvc
    all_goals
      intro v _
      rw [hsame]

end L2.SelfHost
