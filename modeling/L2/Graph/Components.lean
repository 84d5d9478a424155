import Mathlib.Logic.Relation
import Mathlib.Data.List.Nodup

/-!
# Strongly connected components

What a list of lists of vertices has to satisfy to be the strongly connected components
of the part of a graph that some roots reach, each after the components it depends on.
-/

namespace Graph

open Relation

variable {α : Type}

def Reaches (deps : α → List α) : α → α → Prop := ReflTransGen fun s t => t ∈ deps s

/-- Each reaches the other: the two are strongly connected. -/
def Mutual (deps : α → List α) (a b : α) : Prop := Reaches deps a b ∧ Reaches deps b a

variable {deps : α → List α}

theorem Mutual.refl (a : α) : Mutual deps a a := ⟨.refl, .refl⟩

theorem Mutual.symm {a b : α} (h : Mutual deps a b) : Mutual deps b a := ⟨h.2, h.1⟩

theorem Mutual.trans {a b c : α} (h : Mutual deps a b) (h' : Mutual deps b c) :
    Mutual deps a c :=
  ⟨h.1.trans h'.1, h'.2.trans h.2⟩

theorem Reaches.edge {a b : α} (h : b ∈ deps a) : Reaches deps a b := ReflTransGen.single h

structure Components (deps : α → List α) (roots : List α) (lists : List (List α)) : Prop where
  nodup : lists.flatten.Nodup
  nonempty : ∀ l ∈ lists, l ≠ []
  mem_flatten : ∀ x, x ∈ lists.flatten ↔ ∃ s ∈ roots, Reaches deps s x
  mem_iff : ∀ l ∈ lists, ∀ x ∈ l, ∀ y, y ∈ l ↔ Mutual deps x y
  /-- What a list depends on is in it or in one before it. -/
  ordered : ∀ pre l post, lists = pre ++ l :: post → ∀ x ∈ l, ∀ y, Reaches deps x y →
    y ∈ l ∨ y ∈ pre.flatten

/-- Every list depends only on itself and on the older ones, newest first. -/
def DependsOnOlder (deps : α → List α) : List (List α) → Prop
  | [] => True
  | l :: older =>
    (∀ x ∈ l, ∀ t ∈ deps x, t ∈ l ∨ t ∈ older.flatten) ∧ DependsOnOlder deps older

theorem DependsOnOlder.closed {lists : List (List α)} (h : DependsOnOlder deps lists) {x y : α}
    (hx : x ∈ lists.flatten) (hr : Reaches deps x y) : y ∈ lists.flatten := by
  have step : ∀ x ∈ lists.flatten, ∀ t ∈ deps x, t ∈ lists.flatten := by
    clear hx hr
    induction lists with
    | nil => exact fun _ hx => absurd hx List.not_mem_nil
    | cons l older ih =>
      intro x hx t ht
      rw [List.flatten_cons, List.mem_append] at hx ⊢
      rcases hx with hx | hx
      · exact h.1 x hx t ht
      · exact Or.inr (ih h.2 x hx t ht)
  induction hr with
  | refl => exact hx
  | tail _ hyz ih => exact step _ ih _ hyz

theorem DependsOnOlder.suffix {lists older : List (List α)} (h : DependsOnOlder deps lists)
    (hs : older <:+ lists) : DependsOnOlder deps older := by
  induction lists with
  | nil => exact List.suffix_nil.mp hs ▸ trivial
  | cons l lists ih =>
    rcases List.suffix_cons_iff.mp hs with rfl | hs
    · exact h
    · exact ih h.2 hs

/-- Read oldest first, the lists are ordered. -/
theorem DependsOnOlder.ordered {lists : List (List α)} (h : DependsOnOlder deps lists)
    {pre : List (List α)} {l : List α} {post : List (List α)}
    (e : lists.reverse = pre ++ l :: post) {x y : α} (hx : x ∈ l) (hr : Reaches deps x y) :
    y ∈ l ∨ y ∈ pre.flatten := by
  have hl : lists = post.reverse ++ l :: pre.reverse := by
    rw [← List.reverse_reverse lists, e]
    simp
  have hclosed := (h.suffix ⟨post.reverse, hl.symm⟩).closed
    (List.mem_flatten.mpr ⟨l, List.mem_cons_self, hx⟩) hr
  simpa using hclosed

end Graph
