import Mathlib.Data.List.Nodup
import Mathlib.Algebra.BigOperators.Group.List.Basic
import Mathlib.Algebra.GroupWithZero.Nat
import Mathlib.Logic.Function.Basic

/-!
# Ranges one after the other

The elements of a list have ranges, each of the size of its element.  Where one begins at
the end of the one before, the ranges are apart, and every part of the list has its own
stretch (`consecutive_append`).  A loop can lay them out upwards, or from the end of the
list downwards.
-/

namespace Ranges

variable {α : Type} (size : α → Nat)

/-- The sizes of all elements of a list together. -/
def extent (l : List α) : Nat := (l.map size).sum

@[simp] theorem extent_nil : extent size [] = 0 := rfl

@[simp] theorem extent_cons (a : α) (l : List α) : extent size (a :: l) = size a + extent size l :=
  List.sum_cons

@[simp] theorem extent_append (l l' : List α) :
    extent size (l ++ l') = extent size l + extent size l' := by
  unfold extent
  rw [List.map_append, List.sum_append]

theorem extent_one (l : List α) : extent (fun _ => 1) l = l.length := by
  induction l with
  | nil => rfl
  | cons a l ih =>
    rw [extent_cons, ih, List.length_cons, Nat.add_comm]

theorem extent_congr {size' : α → Nat} {l : List α} (h : ∀ a ∈ l, size a = size' a) :
    extent size l = extent size' l := by
  unfold extent
  rw [List.map_congr_left h]

theorem dvd_extent {d : Nat} {l : List α} (h : ∀ a ∈ l, d ∣ size a) : d ∣ extent size l := by
  induction l with
  | nil => exact Nat.dvd_zero d
  | cons a l ih =>
    rw [extent_cons]
    have ha := h a List.mem_cons_self
    exact Nat.dvd_add ha (ih fun b hb => h b (List.mem_cons_of_mem a hb))

/-- Two parts of a list that have nothing in common take no more than the list. -/
theorem extent_filter_add_le {q r : α → Bool}
    (h : ∀ a, ¬ (q a = true ∧ r a = true)) (l : List α) :
    extent size (l.filter q) + extent size (l.filter r) ≤ extent size l := by
  induction l with
  | nil => exact Nat.le_refl 0
  | cons a l ih =>
    have ha := h a
    cases hq : q a <;> cases hr : r a
    · rw [List.filter_cons_of_neg (by simp [hq]), List.filter_cons_of_neg (by simp [hr]),
        extent_cons]
      omega
    · rw [List.filter_cons_of_neg (by simp [hq]), List.filter_cons_of_pos hr, extent_cons,
        extent_cons]
      omega
    · rw [List.filter_cons_of_pos hq, List.filter_cons_of_neg (by simp [hr]), extent_cons,
        extent_cons]
      omega
    · exact absurd ⟨hq, hr⟩ ha

theorem extent_filter_le (q : α → Bool) (l : List α) :
    extent size (l.filter q) ≤ extent size l := by
  have h := extent_filter_add_le size (q := q) (r := fun _ => false) (by
    intro a h
    cases h.2) l
  omega

/-- The ranges of a list follow each other from `start` on. -/
def Consecutive (offset : α → Int) : Int → List α → Prop
  | _, [] => True
  | start, a :: l => offset a = start ∧ Consecutive offset (start + size a) l

variable {size} {offset offset' : α → Int} {start : Int} {l l' : List α} {a b : α}

theorem consecutive_append : Consecutive size offset start (l ++ l') ↔
    Consecutive size offset start l ∧ Consecutive size offset (start + extent size l) l' := by
  induction l generalizing start with
  | nil => simp [Consecutive]
  | cons a l ih =>
    have hstart : start + size a + extent size l = start + (size a + extent size l : Nat) := by
      omega
    rw [List.cons_append, Consecutive, Consecutive, ih, extent_cons, and_assoc, hstart]

theorem Consecutive.congr {size' : α → Nat} (h : Consecutive size offset start l)
    (hsize : ∀ a ∈ l, size' a = size a) (hoffset : ∀ a ∈ l, offset' a = offset a) :
    Consecutive size' offset' start l := by
  induction l generalizing start with
  | nil => exact True.intro
  | cons a l ih =>
    refine ⟨(hoffset a List.mem_cons_self).trans h.1, ?_⟩
    rw [hsize a List.mem_cons_self]
    exact ih h.2 (fun b hb => hsize b (List.mem_cons_of_mem a hb))
      (fun b hb => hoffset b (List.mem_cons_of_mem a hb))

namespace Consecutive

variable (h : Consecutive size offset start l)

include h

theorem bounds (ha : a ∈ l) : start ≤ offset a ∧ offset a + size a ≤ start + extent size l := by
  obtain ⟨before, after, rfl⟩ := List.append_of_mem ha
  have hoffset := (consecutive_append.mp h).2.1
  rw [extent_append, extent_cons]
  omega

/-- Two ranges of the list do not overlap. -/
theorem disjoint (ha : a ∈ l) (hb : b ∈ l) (hne : a ≠ b) :
    offset a + size a ≤ offset b ∨ offset b + size b ≤ offset a := by
  obtain ⟨before, after, rfl⟩ := List.append_of_mem ha
  obtain ⟨hbefore, hafter⟩ := consecutive_append.mp h
  have hoffset : offset a = _ := hafter.1
  rcases List.mem_append.mp hb with hb | hb
  · have hbound := hbefore.bounds hb
    omega
  · have hb : b ∈ after := (List.mem_cons.mp hb).resolve_left hne.symm
    have hbound := hafter.2.bounds hb
    omega

theorem dvd_offset {d : Int} (hstart : d ∣ start) (hsize : ∀ a ∈ l, d ∣ size a) (ha : a ∈ l) :
    d ∣ offset a := by
  induction l generalizing start with
  | nil => exact absurd ha List.not_mem_nil
  | cons b l ih =>
    rcases List.mem_cons.mp ha with rfl | ha
    · rw [h.1]
      exact hstart
    · apply ih h.2 (Int.dvd_add hstart (hsize b List.mem_cons_self)) _ ha
      exact fun c hc => hsize c (List.mem_cons_of_mem b hc)

/-- Elements of one size are at equal distances. -/
theorem offset_get {n : Nat} (hsize : ∀ a ∈ l, size a = n) (i : Nat) (hi : i < l.length) :
    offset (l.get ⟨i, hi⟩) = start + n * i := by
  induction l generalizing start i with
  | nil => exact absurd hi (Nat.not_lt_zero i)
  | cons b l ih =>
    cases i with
    | zero =>
      have hstart : offset b = start := h.1
      show offset b = _
      omega
    | succ i =>
      have hrest := ih h.2 (fun c hc => hsize c (List.mem_cons_of_mem b hc)) i
        (Nat.lt_of_succ_lt_succ hi)
      rw [hsize b List.mem_cons_self] at hrest
      show offset (l.get ⟨i, _⟩) = _
      have hmul : (n : Int) * (i + 1 : Nat) = n * i + n := Int.mul_add n i 1 |>.trans (by omega)
      rw [hrest, hmul]
      omega

end Consecutive

/-! ## Loops that lay out ranges -/

variable [DecidableEq α] (size)

/-- Upwards from `start`. -/
def layUp (start : Int) (offset : α → Int) : List α → (α → Int)
  | [] => offset
  | a :: l => layUp (start + size a) (Function.update offset a start) l

theorem layUp_of_notMem (h : a ∉ l) : layUp size start offset l a = offset a := by
  induction l generalizing start offset with
  | nil => rfl
  | cons b l ih =>
    show layUp size (start + size b) (Function.update offset b start) l a = _
    rw [ih (List.not_mem_of_not_mem_cons h), Function.update_of_ne (List.ne_of_not_mem_cons h)]

theorem layUp_append : layUp size start offset (l ++ l') =
    layUp size (start + extent size l) (layUp size start offset l) l' := by
  induction l generalizing start offset with
  | nil =>
    show _ = layUp size (start + (0 : Nat)) offset l'
    rw [Int.natCast_zero, Int.add_zero]
    rfl
  | cons b l ih =>
    have hstart : start + (size b + extent size l : Nat) = start + size b + extent size l := by
      omega
    show layUp size (start + size b) (Function.update offset b start) (l ++ l') = _
    rw [ih, extent_cons, hstart]
    rfl

theorem consecutive_layUp (hnodup : l.Nodup) :
    Consecutive size (layUp size start offset l) start l := by
  induction l generalizing start offset with
  | nil => exact True.intro
  | cons b l ih =>
    obtain ⟨hb, hnodup⟩ := List.nodup_cons.mp hnodup
    refine ⟨?_, ih hnodup⟩
    show layUp size (start + size b) (Function.update offset b start) l b = _
    rw [layUp_of_notMem size hb, Function.update_self]

/-- From the last element of a list down to the first, below 0.  What comes twice is where
its first occurrence is. -/
def layDown (offset : α → Int) : List α → Int × (α → Int)
  | [] => (0, offset)
  | a :: l =>
    let start := (layDown offset l).1 - size a
    (start, Function.update (layDown offset l).2 a start)

@[simp] theorem layDown_fst (offset : α → Int) (l : List α) :
    (layDown size offset l).1 = -(extent size l : Int) := by
  induction l with
  | nil => rfl
  | cons a l ih =>
    show (layDown size offset l).1 - size a = _
    rw [ih, extent_cons]
    omega

theorem layDown_of_notMem (h : a ∉ l) : (layDown size offset l).2 a = offset a := by
  induction l with
  | nil => rfl
  | cons b l ih =>
    show Function.update (layDown size offset l).2 b _ a = _
    rw [Function.update_of_ne (List.ne_of_not_mem_cons h), ih (List.not_mem_of_not_mem_cons h)]

theorem layDown_head : (layDown size offset (a :: l)).2 a = -(extent size (a :: l) : Int) := by
  rw [← layDown_fst size offset (a :: l)]
  exact Function.update_self ..

/-- What stands before in the list lies below. -/
theorem consecutive_layDown (hnodup : l.Nodup) (l' : List α) :
    Consecutive size (layDown size offset (l ++ l')).2 (layDown size offset (l ++ l')).1 l := by
  induction l with
  | nil => exact True.intro
  | cons a l ih =>
    obtain ⟨ha, hnodup⟩ := List.nodup_cons.mp hnodup
    refine ⟨?_, ?_⟩
    · rw [layDown_fst]
      exact layDown_head size
    · have hstart : (layDown size offset (a :: l ++ l')).1 + size a =
          (layDown size offset (l ++ l')).1 := by
        rw [layDown_fst, layDown_fst, List.cons_append, extent_cons]
        omega
      rw [hstart]
      apply (ih hnodup).congr (fun _ _ => rfl)
      intro b hb
      apply Function.update_of_ne
      rintro rfl
      exact ha hb

end Ranges
