import Mathlib.Data.List.Basic
import Mathlib.Order.Basic

/-!
# Functions with a bound on their depth

A recursion whose termination depends on the data it walks takes a bound `n` on its
depth and returns `none` past it.  `Stable` says that raising the bound never changes
an answer, and the lemmas below lift stability and termination through the loops that
the recursions are made of.
-/

namespace Fuel

variable {α β σ : Type}

/-- Raising the bound keeps every answer. -/
def Stable (f : Nat → α → Option β) : Prop :=
  ∀ n a b, f n a = some b → f (n + 1) a = some b

theorem Stable.le {f : Nat → α → Option β} (hf : Stable f) {n m : Nat} (h : n ≤ m) {a : α} {b : β}
    (hb : f n a = some b) : f m a = some b := by
  induction h with
  | refl => exact hb
  | step _ ih => exact hf _ a b ih

/-- Two bounds under which a stable function answers give the same answer. -/
theorem Stable.unique {f : Nat → α → Option β} (hf : Stable f) {n m : Nat} {a : α} {b c : β}
    (hb : f n a = some b) (hc : f m a = some c) : b = c :=
  Option.some.inj ((hf.le (Nat.le_max_left n m) hb).symm.trans (hf.le (Nat.le_max_right n m) hc))

theorem mapM_eq_some_cons {f : α → Option β} {a : α} {as : List α} {cs : List β} :
    (a :: as).mapM f = some cs ↔ ∃ b bs, f a = some b ∧ as.mapM f = some bs ∧ cs = b :: bs := by
  simp only [List.mapM_cons, Option.bind_eq_bind, Option.bind_eq_some_iff, Option.pure_def,
    Option.some.injEq]
  constructor
  · rintro ⟨b, hb, bs, hbs, rfl⟩; exact ⟨b, bs, hb, hbs, rfl⟩
  · rintro ⟨b, bs, hb, hbs, rfl⟩; exact ⟨b, hb, bs, hbs, rfl⟩

theorem mapM_mono {f g : α → Option β} (h : ∀ a b, f a = some b → g a = some b) {as : List α}
    {bs : List β} (hf : as.mapM f = some bs) : as.mapM g = some bs := by
  induction as generalizing bs with
  | nil => exact hf
  | cons a as ih =>
    obtain ⟨b, bs, hb, hbs, rfl⟩ := mapM_eq_some_cons.mp hf
    exact mapM_eq_some_cons.mpr ⟨b, bs, h a b hb, ih hbs, rfl⟩

theorem exists_mapM {f : Nat → α → Option β} (hf : Stable f) {g : α → β} {as : List α}
    (h : ∀ a ∈ as, ∃ n, f n a = some (g a)) : ∃ n, as.mapM (f n) = some (as.map g) := by
  induction as with
  | nil => exact ⟨0, rfl⟩
  | cons a as ih =>
    obtain ⟨n, hn⟩ := h a List.mem_cons_self
    obtain ⟨m, hm⟩ := ih fun b hb => h b (List.mem_cons_of_mem a hb)
    refine ⟨max n m, mapM_eq_some_cons.mpr
      ⟨g a, as.map g, hf.le (Nat.le_max_left n m) hn, ?_, rfl⟩⟩
    exact mapM_mono (fun b c => hf.le (Nat.le_max_right n m)) hm

theorem exists_mapM_of_forall {f : Nat → α → Option β} (hf : Stable f) {as : List α}
    (h : ∀ a ∈ as, ∃ n b, f n a = some b) : ∃ n bs, as.mapM (f n) = some bs := by
  induction as with
  | nil => exact ⟨0, [], rfl⟩
  | cons a as ih =>
    obtain ⟨n, b, hn⟩ := h a List.mem_cons_self
    obtain ⟨m, bs, hm⟩ := ih fun a ha => h a (List.mem_cons_of_mem _ ha)
    refine ⟨max n m, b :: bs, mapM_eq_some_cons.mpr
      ⟨b, bs, hf.le (Nat.le_max_left n m) hn, ?_, rfl⟩⟩
    exact mapM_mono (fun b c => hf.le (Nat.le_max_right n m)) hm

theorem exists_of_mapM {f : α → Option β} {as : List α} {bs : List β} (h : as.mapM f = some bs)
    {a : α} (ha : a ∈ as) : ∃ b, f a = some b := by
  induction as generalizing bs with
  | nil => cases ha
  | cons c as ih =>
    obtain ⟨b, bs, hb, hbs, _⟩ := mapM_eq_some_cons.mp h
    rcases List.mem_cons.mp ha with rfl | ha
    · exact ⟨b, hb⟩
    · exact ih hbs ha

theorem anyM_eq_some_cons {f : α → Option Bool} {a : α} {as : List α} {b : Bool} :
    (a :: as).anyM f = some b ↔
      (f a = some true ∧ b = true) ∨ (f a = some false ∧ as.anyM f = some b) := by
  rw [List.anyM]
  cases h : f a with
  | none => simp
  | some c => cases c <;> simp [eq_comm]

theorem anyM_mono {f g : α → Option Bool} (h : ∀ a b, f a = some b → g a = some b) {as : List α}
    {b : Bool} (hf : as.anyM f = some b) : as.anyM g = some b := by
  induction as with
  | nil => exact hf
  | cons a as ih =>
    rcases anyM_eq_some_cons.mp hf with ⟨ha, rfl⟩ | ⟨ha, hb⟩
    · exact anyM_eq_some_cons.mpr (Or.inl ⟨h a true ha, rfl⟩)
    · exact anyM_eq_some_cons.mpr (Or.inr ⟨h a false ha, ih hb⟩)

theorem exists_anyM {f : Nat → α → Option Bool} (hf : Stable f) {as : List α}
    (h : ∀ a ∈ as, ∃ n b, f n a = some b) : ∃ n b, as.anyM (f n) = some b := by
  induction as with
  | nil => exact ⟨0, false, rfl⟩
  | cons a as ih =>
    obtain ⟨n, b, hn⟩ := h a List.mem_cons_self
    obtain ⟨m, c, hm⟩ := ih fun b hb => h b (List.mem_cons_of_mem a hb)
    cases b with
    | true => exact ⟨n, true, anyM_eq_some_cons.mpr (Or.inl ⟨hn, rfl⟩)⟩
    | false =>
      refine ⟨max n m, c, anyM_eq_some_cons.mpr
        (Or.inr ⟨hf.le (Nat.le_max_left n m) hn, ?_⟩)⟩
      exact anyM_mono (fun b c => hf.le (Nat.le_max_right n m)) hm

end Fuel
