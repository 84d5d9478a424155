import L2.SelfHost.Frames

/-!
# The steps of initializers

Every loop and every initializer is a `Step` as long as it is given bindings that may be
used and expressions at or below its own.
-/

namespace L2.SelfHost

open Scope (Binding)
open Graph

variable {p : Program} {n v w : Code} {b : BndgId} {st st' : Store}

/-! ## The loops over bindings -/

/-- Some expression at or below `n` may use the binding. -/
def UsedAt (p : Program) (n : Code) (b : BndgId) : Prop := ∃ v ∈ n.nodes, p.Usable b v

theorem step_setPrefs {bs : List BndgId} (hu : ∀ b ∈ bs, UsedAt p n b) (regs : List Register)
    (st : Store) : Step p n st (setPrefs st bs regs) := by
  induction bs generalizing regs st with
  | nil => exact Step.refl p n st
  | cons b bs ih =>
    cases regs with
    | nil => exact Step.refl p n st
    | cons reg regs =>
      obtain ⟨v, hv, hb⟩ := hu b List.mem_cons_self
      have htail : ∀ b ∈ bs, UsedAt p n b := fun b hb => hu b (List.mem_cons_of_mem _ hb)
      exact (Step.modify (keeps_setPreferred _) hv hb st).trans (ih htail regs _)

theorem step_assignParams {bs : List BndgId} (hu : ∀ b ∈ bs, UsedAt p n b) (offset : X86.Word)
    (st : Store) : Step p n st (assignParams st offset bs) := by
  induction bs generalizing offset st with
  | nil => exact Step.refl p n st
  | cons b bs ih =>
    obtain ⟨v, hv, hb⟩ := hu b List.mem_cons_self
    have htail : ∀ b ∈ bs, UsedAt p n b := fun b hb => hu b (List.mem_cons_of_mem _ hb)
    exact (Step.modify (keeps_setPreferred _) hv hb st).trans (ih htail _ _)

/-! ## The loops over expressions -/

theorem step_setBindingAugs (hp : p.WellFormed) {us : List Code} {vs : List BndgId}
    (hus : ∀ u ∈ us, u ∈ n.nodes ∧ u ∈ p.nodes) (hvs : ∀ b ∈ vs, ∀ u ∈ us, p.Usable b u)
    (st : Store) : Step p n st (setBindingAugs st us vs) := by
  induction us generalizing vs st with
  | nil => exact Step.refl p n st
  | cons u us ih =>
    cases vs with
    | nil => exact Step.refl p n st
    | cons b vs =>
      obtain ⟨hun, hup⟩ := hus u List.mem_cons_self
      have hb : p.Usable b u := hvs b List.mem_cons_self u List.mem_cons_self
      apply (Step.setBindingAug hp hun hup hb st).trans
      apply ih
      · exact fun u hu => hus u (List.mem_cons_of_mem _ hu)
      · exact fun b hb u hu => hvs b (List.mem_cons_of_mem _ hb) u (List.mem_cons_of_mem _ hu)

theorem step_coalesceExprBndg (hp : p.WellFormed) (hs : Scoped p st) (hv : v ∈ n.nodes)
    (hm : v ∈ p.nodes) : Step p n st (coalesceExprBndg st v) := by
  unfold coalesceExprBndg
  split
  · next m binding =>
    split
    · next hmode =>
      exact Step.setBindingAug hp hv hm (hs.reference m binding hm hmode) st
    · exact Step.refl p n st
  · exact Step.refl p n st

/-- Only the target of a jump is direct. -/
theorem Program.WellFormed.not_isDirect (hp : p.WellFormed) (hn : n ∈ p.nodes)
    (hv : v ∈ n.children) (h : n.directTarget ≠ some v) : ¬ p.IsDirect v := by
  rintro ⟨j, hj, hjv⟩
  have hvj : v ∈ j.children := Code.directTarget_mem hjv
  have hne : v ≠ n := Forest.ne_of_below (Code.child_inside hv)
  have hne' : v ≠ j := Forest.ne_of_below (Code.child_inside hvj)
  have hjn : j ∈ n.nodes :=
    hp.parent_mem hj hn hvj (Code.inside_subset (Code.child_inside hv)) hne
  have hnj : n ∈ j.nodes :=
    hp.parent_mem hn hj hv (Code.inside_subset (Code.child_inside hvj)) hne'
  have hnj : n = j := Forest.antisymm hjn hnj
  exact h (hnj ▸ hjv)

theorem step_vreplaceValueBindings (hp : p.WellFormed) (hs : Scoped p st) (hw : w ∈ n.nodes)
    (hm : w ∈ p.nodes) {replacement : BndgId} (hu : p.Usable replacement w)
    (replTarget : BndgId) :
    Step p n st (vreplaceValueBindings replTarget replacement st w) := by
  have hfirst : Step p n st
      (if st.aug w = replTarget then st.setBindingAug w.id replacement else st) := by
    split
    · exact Step.setBindingAug hp hw hm hu st
    · exact Step.refl p n st
  have hs₁ := hfirst.inv hs
  unfold vreplaceValueBindings
  generalize (if st.aug w = replTarget then st.setBindingAug w.id replacement else st) = st₁ at *
  have huse : ∀ b ∈ (st₁.parameters w.id).map fun b => if b = replTarget then replacement else b,
      b ∈ w.parameters ∨ p.Usable b w := by
    intro b hb
    obtain ⟨b₀, hb₀, rfl⟩ := List.mem_map.mp hb
    split
    · exact Or.inr hu
    · exact hs₁.parameters w hm b₀ hb₀
  have hlen : ((st₁.parameters w.id).map fun b =>
      if b = replTarget then replacement else b).length = w.parameters.length := by
    rw [List.length_map]
    exact hs₁.arity w hm
  cases w with
  | continuation _ _ _ _ | withExpr _ _ _ | function _ _ _ _ =>
    exact hfirst.trans (Step.setParameters hp hw hm hlen huse st₁)
  | symbol m binding =>
    show Step p n st (if st₁.symbolReference m = replTarget then _ else st₁)
    split
    · exact hfirst.trans (Step.setSymbolReference hp hw hm hu st₁)
    · exact hfirst
  | literal _ _ | storage _ _ _ | invoke _ _ _ | jump _ _ _ | ifExpr _ _ _ _ | constrain _ _ =>
    exact hfirst

theorem step_foldl_vreplace (hp : p.WellFormed) {l : List Code} (hl : l ⊆ n.nodes)
    (hlp : l ⊆ p.nodes) {replacement : BndgId} (hu : ∀ v ∈ l, p.Usable replacement v)
    (replTarget : BndgId) {st : Store} (hs : Scoped p st) :
    Step p n st (l.foldl (vreplaceValueBindings replTarget replacement) st) := by
  induction l generalizing st with
  | nil => exact Step.refl p n st
  | cons w l ih =>
    have hfirst := step_vreplaceValueBindings hp hs (hl List.mem_cons_self)
      (hlp List.mem_cons_self) (hu w List.mem_cons_self) replTarget
    apply hfirst.trans
    apply ih
    · exact fun x hx => hl (List.mem_cons_of_mem _ hx)
    · exact fun x hx => hlp (List.mem_cons_of_mem _ hx)
    · exact fun x hx => hu x (List.mem_cons_of_mem _ hx)
    · exact hfirst.inv hs

end L2.SelfHost
