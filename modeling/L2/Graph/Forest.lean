import Mathlib.Data.List.Nodup
import Mathlib.Data.List.Infix
import Mathlib.Data.List.Pairwise

/-!
# Forests given by their nodes

A type whose elements have children, with the list of what lies at and below an element.
Where no element occurs twice in a forest, two subtrees are nested or apart, and nothing
has two parents.
-/

namespace Graph

/-- Elements with children.  `nodes a` has what is below `a`, and `a` last. -/
class Forest (α : Type) where
  children : α → List α
  nodes : α → List α
  nodes_eq : ∀ a, nodes a = (children a).flatMap nodes ++ [a]

namespace Forest

variable {α : Type} [Forest α]

/-- What lies at and below the elements of a list. -/
def nodesOf (as : List α) : List α := as.flatMap nodes

theorem nodes_eq' (a : α) : nodes a = nodesOf (children a) ++ [a] := nodes_eq a

theorem mem_nodesOf {as : List α} {b : α} : b ∈ nodesOf as ↔ ∃ a ∈ as, b ∈ nodes a :=
  List.mem_flatMap

theorem nodesOf_cons (a : α) (as : List α) : nodesOf (a :: as) = nodes a ++ nodesOf as :=
  List.flatMap_cons

theorem mem_nodes_self (a : α) : a ∈ nodes a := by
  rw [nodes_eq]
  exact List.mem_append_right _ (List.mem_singleton.mpr rfl)

theorem mem_nodes_iff {a b : α} : b ∈ nodes a ↔ b ∈ nodesOf (children a) ∨ b = a := by
  rw [nodes_eq', List.mem_append, List.mem_singleton]

theorem nodes_infix_of_mem {as : List α} {a : α} (h : a ∈ as) : nodes a <:+: nodesOf as := by
  induction as with
  | nil => cases h
  | cons c as ih =>
    rw [nodesOf_cons]
    rcases List.mem_cons.mp h with rfl | h
    · exact List.infix_append' [] _ _
    · exact (ih h).trans (List.suffix_append _ _).isInfix

theorem length_child_lt {a c : α} (h : c ∈ children a) : (nodes c).length < (nodes a).length := by
  have hle : (nodes c).length ≤ (nodesOf (children a)).length := (nodes_infix_of_mem h).length_le
  rw [nodes_eq' a, List.length_append, List.length_singleton]
  omega

/-- Induction from the children of an element. -/
theorem induction {motive : α → Prop} (step : ∀ a, (∀ c ∈ children a, motive c) → motive a)
    (a : α) :
    motive a := by
  generalize hn : (nodes a).length = n
  induction n using Nat.strongRecOn generalizing a with
  | ind n ih =>
    apply step
    intro c hc
    exact ih _ (hn ▸ length_child_lt hc) c rfl

theorem infix_nodes {a b : α} (h : b ∈ nodes a) : nodes b <:+: nodes a := by
  induction a using induction with
  | step a ih =>
    rcases mem_nodes_iff.mp h with h | rfl
    · obtain ⟨c, hc, hb⟩ := mem_nodesOf.mp h
      rw [nodes_eq' a]
      exact (ih c hc hb).trans ((nodes_infix_of_mem hc).trans (List.prefix_append _ _).isInfix)
    · exact List.infix_rfl

theorem nodes_subset {a b : α} (h : b ∈ nodes a) : nodes b ⊆ nodes a := (infix_nodes h).subset

theorem mem_nodes_of_child {a c b : α} (hc : c ∈ children a) (hb : b ∈ nodes c) : b ∈ nodes a :=
  mem_nodes_iff.mpr (Or.inl (mem_nodesOf.mpr ⟨c, hc, hb⟩))

theorem length_lt_of_mem {a b : α} (h : b ∈ nodesOf (children a)) :
    (nodes b).length < (nodes a).length := by
  obtain ⟨c, hc, hb⟩ := mem_nodesOf.mp h
  exact Nat.lt_of_le_of_lt (infix_nodes hb).length_le (length_child_lt hc)

theorem antisymm {a b : α} (h : b ∈ nodes a) (h' : a ∈ nodes b) : a = b := by
  rcases mem_nodes_iff.mp h with h | rfl
  · have hlt := length_lt_of_mem h
    have hle := (infix_nodes h').length_le
    omega
  · rfl

/-- What is below an element is not that element. -/
theorem notMem_below {a b : α} (h : b ∈ nodesOf (children a)) : a ∉ nodes b := by
  intro ha
  have hlt := length_lt_of_mem h
  have hle := (infix_nodes ha).length_le
  omega

theorem ne_of_below {a b : α} (h : b ∈ nodesOf (children a)) : b ≠ a := by
  rintro rfl
  exact notMem_below h (mem_nodes_self b)

/-- What is in a forest and in a subtree below one of the roots. -/
theorem nodes_subset_of_mem {as : List α} {b : α} (h : b ∈ nodesOf as) : nodes b ⊆ nodesOf as := by
  obtain ⟨a, ha, hb⟩ := mem_nodesOf.mp h
  intro x hx
  exact mem_nodesOf.mpr ⟨a, ha, nodes_subset hb hx⟩

/-- What is below an element of a subtree is below its root. -/
theorem inside_of_mem {a b x : α} (hb : b ∈ nodes a) (hx : x ∈ nodesOf (children b)) :
    x ∈ nodesOf (children a) := by
  rcases mem_nodes_iff.mp hb with hb | rfl
  · exact nodes_subset_of_mem hb (mem_nodes_iff.mpr (Or.inl hx))
  · exact hx

/-- Induction from everything that is below an element. -/
theorem induction_below {motive : α → Prop}
    (step : ∀ a, (∀ b ∈ nodesOf (children a), motive b) → motive a) (a : α) : motive a := by
  generalize hn : (nodes a).length = n
  induction n using Nat.strongRecOn generalizing a with
  | ind n ih =>
    apply step
    intro b hb
    exact ih _ (hn ▸ length_lt_of_mem hb) b rfl

theorem sublist_nodesOf (as : List α) : as.Sublist (nodesOf as) := by
  induction as with
  | nil => exact List.Sublist.refl _
  | cons a as ih =>
    rw [nodesOf_cons, nodes_eq', List.append_assoc]
    exact (ih.cons_cons a).trans (List.sublist_append_right _ _)

/-! ## Forests without repetitions -/

/-- What lies at and below a root is not in the rest. -/
theorem notMem_rest {a b : α} {as : List α} (hn : (nodesOf (a :: as)).Nodup) (hb : b ∈ nodes a) :
    b ∉ nodesOf as := by
  rw [nodesOf_cons] at hn
  exact fun h => (List.nodup_append.mp hn).2.2 _ hb _ h rfl

theorem eq_of_mem_of_mem {as : List α} (hn : (nodesOf as).Nodup) {a a' x : α} (ha : a ∈ as)
    (ha' : a' ∈ as) (hx : x ∈ nodes a) (hx' : x ∈ nodes a') : a = a' := by
  by_contra hne
  have hd := (List.nodup_flatMap.mp hn).2
  have hsymm : Std.Symm (Function.onFun List.Disjoint (nodes : α → List α)) :=
    ⟨fun _ _ h _ hx hx' => h hx' hx⟩
  exact hd.forall ha ha' hne hx hx'

theorem nodup_of_mem {as : List α} (hn : (nodesOf as).Nodup) {a : α} (ha : a ∈ nodesOf as) :
    (nodes a).Nodup := by
  obtain ⟨r, hr, har⟩ := mem_nodesOf.mp ha
  exact ((infix_nodes har).trans (nodes_infix_of_mem hr)).sublist.nodup hn

theorem nodup_children {a : α} (hn : (nodes a).Nodup) : (nodesOf (children a)).Nodup := by
  rw [nodes_eq'] at hn
  exact (List.nodup_append.mp hn).1

theorem nested_in {r : α} (hn : (nodes r).Nodup) {a b x : α} (ha : a ∈ nodes r) (hb : b ∈ nodes r)
    (hxa : x ∈ nodes a) (hxb : x ∈ nodes b) : a ∈ nodes b ∨ b ∈ nodes a := by
  induction r using induction with
  | step r ih =>
    rcases mem_nodes_iff.mp ha with har | rfl
    · rcases mem_nodes_iff.mp hb with hbr | rfl
      · obtain ⟨c, hc, hac⟩ := mem_nodesOf.mp har
        obtain ⟨d, hd, hbd⟩ := mem_nodesOf.mp hbr
        have hcd : c = d := eq_of_mem_of_mem (nodup_children hn) hc hd
          (nodes_subset hac hxa) (nodes_subset hbd hxb)
        subst hcd
        have hnc : (nodes c).Nodup :=
          nodup_of_mem (nodup_children hn) (mem_nodesOf.mpr ⟨c, hc, mem_nodes_self c⟩)
        exact ih c hc hnc hac hbd
      · exact Or.inl ha
    · exact Or.inr hb

/-- Two subtrees with something in common are nested. -/
theorem nested {as : List α} (hn : (nodesOf as).Nodup) {a b x : α} (ha : a ∈ nodesOf as)
    (hb : b ∈ nodesOf as) (hxa : x ∈ nodes a) (hxb : x ∈ nodes b) :
    a ∈ nodes b ∨ b ∈ nodes a := by
  obtain ⟨r, hr, har⟩ := mem_nodesOf.mp ha
  obtain ⟨s, hs, hbs⟩ := mem_nodesOf.mp hb
  have hrs : r = s := eq_of_mem_of_mem hn hr hs (nodes_subset har hxa) (nodes_subset hbs hxb)
  subst hrs
  exact nested_in (nodup_of_mem hn (mem_nodesOf.mpr ⟨r, hr, mem_nodes_self r⟩)) har hbs hxa hxb

/-- A subtree with a child in it that is not its root has the parent in it. -/
theorem parent_mem {as : List α} (hn : (nodesOf as).Nodup) {a b c : α} (ha : a ∈ nodesOf as)
    (hb : b ∈ nodesOf as) (hc : c ∈ children a) (hcb : c ∈ nodes b) (hne : c ≠ b) :
    a ∈ nodes b := by
  have hca : c ∈ nodes a := mem_nodes_of_child hc (mem_nodes_self c)
  rcases nested hn ha hb hca hcb with h | h
  · exact h
  · rcases mem_nodes_iff.mp h with h | rfl
    · obtain ⟨d, hd, hbd⟩ := mem_nodesOf.mp h
      have hdc : c = d := eq_of_mem_of_mem (nodup_children (nodup_of_mem hn ha)) hc hd
        (mem_nodes_self c) (nodes_subset hbd hcb)
      subst hdc
      exact absurd (antisymm hbd hcb) hne
    · exact mem_nodes_self b

end Forest

end Graph
