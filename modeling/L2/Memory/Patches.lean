import Mathlib.Data.List.Pairwise
import Mathlib.Data.Option.Basic

/-!
# Patches of a memory

A patch gives new contents to some of the cells.  When patches are put on one after the
other, what was there before matters only outside of the cells that they touch
(`applyAll_replay`).
-/

namespace Patches

variable {α β ε : Type}

/-- New contents for some of the cells. -/
abbrev Patch (α β : Type) := α → Option β

def apply (p : Patch α β) (m : α → β) : α → β := fun a => (p a).getD (m a)

/-- One patch after the other. -/
def applyAll : List (Patch α β) → (α → β) → α → β
  | [], m => m
  | p :: ps, m => applyAll ps (apply p m)

/-- The cells that patches give new contents to. -/
def Touches (ps : List (Patch α β)) (a : α) : Prop := ∃ p ∈ ps, (p a).isSome

theorem touches_cons {p : Patch α β} {ps : List (Patch α β)} {a : α} :
    Touches (p :: ps) a ↔ (p a).isSome ∨ Touches ps a := by
  unfold Touches
  simp only [List.mem_cons, exists_eq_or_imp]

theorem applyAll_congr (ps : List (Patch α β)) {m m' : α → β} {a : α}
    (h : Touches ps a ∨ m a = m' a) : applyAll ps m a = applyAll ps m' a := by
  induction ps generalizing m m' with
  | nil =>
    rcases h with ⟨p, hp, -⟩ | h
    · exact absurd hp List.not_mem_nil
    · exact h
  | cons p ps ih =>
    apply ih
    rw [touches_cons] at h
    unfold apply
    cases hp : p a with
    | some b => exact Or.inr rfl
    | none =>
      rw [hp] at h
      rcases h with (h | h) | h
      · exact absurd h Bool.false_ne_true
      · exact Or.inl h
      · exact Or.inr h

theorem applyAll_untouched {ps : List (Patch α β)} {a : α} (h : ¬ Touches ps a) (m : α → β) :
    applyAll ps m a = m a := by
  induction ps generalizing m with
  | nil => rfl
  | cons p ps ih =>
    rw [touches_cons, not_or] at h
    show applyAll ps (apply p m) a = m a
    rw [ih h.2, apply, Option.not_isSome_iff_eq_none.mp h.1]
    rfl

/-- Patches that touch the cells of earlier ones undo these. -/
theorem applyAll_replay {ps qs : List (Patch α β)} (h : ∀ a, Touches qs a → Touches ps a)
    (m : α → β) : applyAll ps (applyAll qs m) = applyAll ps m := by
  funext a
  apply applyAll_congr
  by_cases hq : Touches qs a
  · exact Or.inl (h a hq)
  · exact Or.inr (applyAll_untouched hq m)

/-- Among patches of which no two touch one cell, each has the last word on its cells. -/
theorem applyAll_of_mem {ps : List (Patch α β)}
    (hps : ps.Pairwise fun p q => ∀ a, ¬ ((p a).isSome ∧ (q a).isSome)) {p : Patch α β}
    (hp : p ∈ ps) {a : α} {b : β} (hb : p a = some b) (m : α → β) : applyAll ps m a = b := by
  have hsome : (p a).isSome := Option.isSome_iff_exists.mpr ⟨b, hb⟩
  induction ps generalizing m with
  | nil => exact absurd hp List.not_mem_nil
  | cons q ps ih =>
    rw [List.pairwise_cons] at hps
    rcases List.mem_cons.mp hp with rfl | hp
    · have hrest : ¬ Touches ps a := by
        rintro ⟨q, hq, hqa⟩
        exact hps.1 q hq a ⟨hsome, hqa⟩
      show applyAll ps (apply p m) a = b
      rw [applyAll_untouched hrest, apply, hb]
      rfl
    · exact ih hps.2 hp (apply q m)

/-- A loop whose every round puts on a patch that does not depend on the memory. -/
theorem foldlM_eq_applyAll {f : (α → β) → ε → Option (α → β)} {g : ε → Option (Patch α β)}
    (h : ∀ m e, f m e = (g e).map (apply · m)) (es : List ε) (m : α → β) :
    es.foldlM f m = (es.mapM g).map (applyAll · m) := by
  induction es generalizing m with
  | nil => rfl
  | cons e es ih =>
    rw [List.foldlM_cons, h, List.mapM_cons]
    cases hg : g e with
    | none => rfl
    | some p =>
      show es.foldlM f (apply p m) = _
      rw [ih]
      cases es.mapM g <;> rfl

end Patches
