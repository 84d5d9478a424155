import Mathlib.Data.List.Nodup
import Mathlib.Data.List.Perm.Subperm
import Mathlib.Logic.Function.Basic

/-!
# Chains of cells

Singly linked lists in memory, several at a time.  No cell is in two of them, so a pointer
that is overwritten belongs to one list, and the others stay what they are.
-/

namespace L2.Memory

/-- A cell of a list.  The end of a list is `none`. -/
structure Cell (α : Type*) where
  car : α
  cdr : Option Nat

variable {α κ : Type*}

/-- The pointer in a cell is overwritten. -/
def setCdr (p : Nat) (next : Option Nat) (cells : List (Cell α)) : List (Cell α) :=
  cells.modify p fun cell => { cell with cdr := next }

@[simp] theorem length_setCdr (p : Nat) (next : Option Nat) (cells : List (Cell α)) :
    (setCdr p next cells).length = cells.length := by
  simp [setCdr]

theorem getElem?_setCdr_of_ne {p q : Nat} (h : p ≠ q) (next : Option Nat)
    (cells : List (Cell α)) : (setCdr p next cells)[q]? = cells[q]? := by
  unfold setCdr
  rw [List.getElem?_modify]
  simp [h]

theorem getElem?_setCdr_self {p : Nat} {cells : List (Cell α)} {x : α} {old : Option Nat}
    (h : cells[p]? = some ⟨x, old⟩) (next : Option Nat) :
    (setCdr p next cells)[p]? = some ⟨x, next⟩ := by
  unfold setCdr
  rw [List.getElem?_modify, h]
  simp

/-- From a pointer the cells at `path` are gone through, and their contents are `xs`. -/
inductive Chain (cells : List (Cell α)) : Option Nat → List Nat → List α → Prop
  | nil : Chain cells none [] []
  | cons {p x next path xs} : cells[p]? = some ⟨x, next⟩ → Chain cells next path xs →
    Chain cells (some p) (p :: path) (x :: xs)

namespace Chain

variable {cells : List (Cell α)}

theorem length_eq {start : Option Nat} {path : List Nat} {xs : List α}
    (h : Chain cells start path xs) : path.length = xs.length := by
  induction h with
  | nil => rfl
  | cons _ _ ih => simp [ih]

theorem lt_length {start : Option Nat} {path : List Nat} {xs : List α}
    (h : Chain cells start path xs) : ∀ p ∈ path, p < cells.length := by
  induction h with
  | nil => exact fun _ hp => absurd hp List.not_mem_nil
  | @cons p x next path xs hp _ ih =>
    intro q hq
    rcases List.mem_cons.mp hq with rfl | hq
    · exact (List.getElem?_eq_some_iff.mp hp).1
    · exact ih q hq

/-- A path without repetition is no longer than the memory. -/
theorem length_le {start : Option Nat} {path : List Nat} {xs : List α}
    (h : Chain cells start path xs) (hnodup : path.Nodup) : path.length ≤ cells.length := by
  have hsub : path ⊆ List.range cells.length :=
    fun p hp => List.mem_range.mpr (h.lt_length p hp)
  have hle := (hnodup.subperm hsub).length_le
  rw [List.length_range] at hle
  exact hle

/-- Only the cells on the path matter. -/
theorem congr {cells' : List (Cell α)} {start : Option Nat} {path : List Nat} {xs : List α}
    (h : Chain cells start path xs) (hcells : ∀ p ∈ path, cells'[p]? = cells[p]?) :
    Chain cells' start path xs := by
  induction h with
  | nil => exact .nil
  | @cons p x next path xs hp _ ih =>
    exact .cons ((hcells p List.mem_cons_self).trans hp)
      (ih fun q hq => hcells q (List.mem_cons_of_mem p hq))

theorem setCdr_of_not_mem {start : Option Nat} {path : List Nat} {xs : List α}
    (h : Chain cells start path xs) {p : Nat} (hp : p ∉ path) (next : Option Nat) :
    Chain (setCdr p next cells) start path xs := by
  apply h.congr
  intro q hq
  have hne : p ≠ q := by
    rintro rfl
    exact hp hq
  exact getElem?_setCdr_of_ne hne next cells

/-- New cells leave the old ones alone. -/
theorem append {start : Option Nat} {path : List Nat} {xs : List α}
    (h : Chain cells start path xs) (new : List (Cell α)) :
    Chain (cells ++ new) start path xs :=
  h.congr fun p hp => List.getElem?_append_left (h.lt_length p hp)

/-- The list is cut after the cell `q` and goes on with another one. -/
theorem setCdr_of_mem {start : Option Nat} {pre : List Nat} {q : Nat} {post : List Nat}
    {zs : List α} (h : Chain cells start (pre ++ q :: post) zs)
    (hnodup : (pre ++ [q]).Nodup) {next : Option Nat} {path : List Nat} {ys : List α}
    (hnext : Chain cells next path ys) (hq : q ∉ path) :
    Chain (setCdr q next cells) start (pre ++ q :: path) (zs.take (pre.length + 1) ++ ys) := by
  induction pre generalizing start zs with
  | nil =>
    cases h with
    | cons hp _ =>
      exact .cons (getElem?_setCdr_self hp next) (hnext.setCdr_of_not_mem hq next)
  | cons p pre ih =>
    cases h with
    | cons hp h =>
      rw [List.cons_append, List.nodup_cons] at hnodup
      have hpq : q ≠ p := fun heq => hnodup.1 (by simp [heq])
      exact .cons ((getElem?_setCdr_of_ne hpq next cells).trans hp) (ih h hnodup.2)

end Chain

/-! ## Several chains -/

/-- Every head leads to the chain with its contents, and no cell is in two chains. -/
structure Holds (cells : List (Cell α)) (heads : κ → Option Nat) (paths : κ → List Nat)
    (contents : κ → List α) : Prop where
  chain : ∀ k, Chain cells (heads k) (paths k) (contents k)
  nodup : ∀ k, (paths k).Nodup
  apart : ∀ k k' p, p ∈ paths k → p ∈ paths k' → k = k'

namespace Holds

variable {cells : List (Cell α)} {heads : κ → Option Nat} {paths : κ → List Nat}
variable {contents : κ → List α}

/-- A cell that is in no chain is overwritten. -/
theorem setCdr_free (h : Holds cells heads paths contents) {p : Nat} (hp : ∀ k, p ∉ paths k)
    (next : Option Nat) : Holds (Memory.setCdr p next cells) heads paths contents where
  chain k := (h.chain k).setCdr_of_not_mem (hp k) next
  nodup := h.nodup
  apart := h.apart

/-- New cells are made. -/
theorem append (h : Holds cells heads paths contents) (new : List (Cell α)) :
    Holds (cells ++ new) heads paths contents where
  chain k := (h.chain k).append new
  nodup := h.nodup
  apart := h.apart

/-- The chains under other names, and perhaps fewer of them. -/
theorem comap {ι : Type*} (h : Holds cells heads paths contents) {f : ι → κ}
    (hf : Function.Injective f) :
    Holds cells (fun i => heads (f i)) (fun i => paths (f i)) (fun i => contents (f i)) where
  chain i := h.chain (f i)
  nodup i := h.nodup (f i)
  apart i i' p hi hi' := hf (h.apart (f i) (f i') p hi hi')

variable [DecidableEq κ]

theorem apart_update {k : κ} (h : Holds cells heads paths contents) {path : List Nat}
    (hapart : ∀ p ∈ path, ∀ k', p ∈ paths k' → k' = k) (l l' : κ) (p : Nat)
    (hl : p ∈ Function.update paths k path l) (hl' : p ∈ Function.update paths k path l') :
    l = l' := by
  rw [Function.update_apply] at hl hl'
  split at hl <;> split at hl'
  · rename_i hk hk'
    rw [hk, hk']
  · rename_i hk _
    rw [hk, hapart p hl l' hl']
  · rename_i _ hk'
    rw [hk', hapart p hl' l hl]
  · exact h.apart l l' p hl hl'

theorem nodup_update (k : κ) (h : Holds cells heads paths contents) {path : List Nat}
    (hnodup : path.Nodup) (l : κ) : (Function.update paths k path l).Nodup := by
  rw [Function.update_apply]
  split
  · exact hnodup
  · exact h.nodup l

/-- A head is overwritten. -/
theorem setHead (h : Holds cells heads paths contents) (k : κ) {start : Option Nat}
    {path : List Nat} {xs : List α} (hchain : Chain cells start path xs) (hnodup : path.Nodup)
    (hapart : ∀ p ∈ path, ∀ k', p ∈ paths k' → k' = k) :
    Holds cells (Function.update heads k start) (Function.update paths k path)
      (Function.update contents k xs) where
  chain l := by
    by_cases hl : l = k
    · subst hl
      rw [Function.update_self, Function.update_self, Function.update_self]
      exact hchain
    · rw [Function.update_of_ne hl, Function.update_of_ne hl, Function.update_of_ne hl]
      exact h.chain l
  nodup := h.nodup_update k hnodup
  apart := h.apart_update hapart

/-- The pointer in the cell `q` of a chain is overwritten. -/
theorem setCdr (h : Holds cells heads paths contents) {k : κ} {pre post : List Nat} {q : Nat}
    (hpath : paths k = pre ++ q :: post) {next : Option Nat} {path : List Nat} {ys : List α}
    (hchain : Chain cells next path ys) (hnodup : (pre ++ q :: path).Nodup)
    (hapart : ∀ p ∈ path, ∀ k', p ∈ paths k' → k' = k) :
    Holds (Memory.setCdr q next cells) heads (Function.update paths k (pre ++ q :: path))
      (Function.update contents k ((contents k).take (pre.length + 1) ++ ys)) where
  chain l := by
    by_cases hl : l = k
    · subst hl
      rw [Function.update_self, Function.update_self]
      have hold := h.chain l
      rw [hpath] at hold
      have hq : q ∉ path :=
        (List.nodup_cons.mp (List.nodup_append.mp hnodup).2.1).1
      apply hold.setCdr_of_mem _ hchain hq
      rw [← List.singleton_append, ← List.append_assoc] at hnodup
      exact (List.nodup_append.mp hnodup).1
    · rw [Function.update_of_ne hl, Function.update_of_ne hl]
      apply (h.chain l).setCdr_of_not_mem
      intro hq
      have hqk : q ∈ paths k := by
        rw [hpath]
        exact List.mem_append_right _ List.mem_cons_self
      exact hl (h.apart l k q hq hqk)
  nodup := h.nodup_update k hnodup
  apart := by
    apply h.apart_update
    intro p hp k' hk'
    rcases List.mem_append.mp hp with hp | hp
    · exact h.apart k' k p hk' (by rw [hpath]; exact List.mem_append_left _ hp)
    · rcases List.mem_cons.mp hp with rfl | hp
      · exact h.apart k' k p hk'
          (by rw [hpath]; exact List.mem_append_right _ List.mem_cons_self)
      · exact hapart p hp k' hk'

end Holds

end L2.Memory
