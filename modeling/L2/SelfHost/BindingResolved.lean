import Mathlib.Data.Fintype.Card
import Mathlib.Data.BitVec
import Mathlib.Data.Fin.VecNotation
import L2.Graph.Components

/-!
# Are all dependencies resolved?

`assert-binding-resolved` goes through the dependencies of a binding and marks those that
it has come to, `unvisit-binding-resolved` goes through the marked ones and takes the marks
away.  An assertion that ends in the handler leaves its marks, and the next one does not
look behind those that it cannot reach through marked bindings (`assertUnvisited_exact_iff`).
-/

namespace L2.SelfHost

open Relation (ReflTransGen)
open Graph (Reaches)

variable {Bndg : Type}

/-- The words `bndg-resolved`. -/
abbrev Resolved (Bndg : Type) := Bndg → BitVec 64

/-- How a call ends: it returns, or it jumps to the handler with a name. -/
inductive Ended (Bndg : Type) where
  | returned (st : Resolved Bndg)
  | handler (undefinedSymbol : Bndg) (st : Resolved Bndg)

def setResolved [DecidableEq Bndg] (bndg : Bndg) (w : BitVec 64) (st : Resolved Bndg) :
  Resolved Bndg :=
  Function.update st bndg w

variable (dependencies : Bndg → List Bndg)

/-- The loop `assert-depends`, with `assert` for the recursive call. -/
def assertDepends (assert : Bndg → Resolved Bndg → Option (Ended Bndg)) :
    List Bndg → Resolved Bndg → Option (Ended Bndg)
  | [], st => some (.returned st)
  | d :: deps, st => do
    match ← assert d st with
    | .returned st => assertDepends assert deps st
    | .handler undefinedSymbol st => some (.handler undefinedSymbol st)

/-- `assert-binding-resolved`, with a bound on the depth of the recursion. -/
def assertBindingResolved [DecidableEq Bndg] : Nat → Bndg → Resolved Bndg → Option (Ended Bndg)
  | 0, _, _ => none
  | n + 1, bndg, st =>
    if st bndg &&& 1#64 ≠ 0#64 then
      if st bndg &&& 2#64 ≠ 0#64 then some (.returned st)
      else assertDepends (assertBindingResolved n) (dependencies bndg)
        (setResolved bndg (st bndg ||| 2#64) st)
    else some (.handler bndg st)

/-- The loop `unvisit-depends`. -/
def unvisitDepends (unvisit : Bndg → Resolved Bndg → Option (Resolved Bndg)) :
    List Bndg → Resolved Bndg → Option (Resolved Bndg)
  | [], st => some st
  | d :: deps, st => do unvisitDepends unvisit deps (← unvisit d st)

/-- `unvisit-binding-resolved` -/
def unvisitBindingResolved [DecidableEq Bndg] : Nat → Bndg → Resolved Bndg → Option (Resolved Bndg)
  | 0, _, _ => none
  | n + 1, bndg, st =>
    if st bndg &&& 2#64 ≠ 0#64 then
      unvisitDepends (unvisitBindingResolved n) (dependencies bndg)
        (setResolved bndg (st bndg &&& ~~~2#64) st)
    else some st

/-! ## The two bits -/

/-- The binding is resolved. -/
def IsResolved (st : Resolved Bndg) (bndg : Bndg) : Prop := st bndg &&& 1#64 ≠ 0#64

/-- The binding is marked as visited. -/
def IsVisited (st : Resolved Bndg) (bndg : Bndg) : Prop := st bndg &&& 2#64 ≠ 0#64

instance (st : Resolved Bndg) : DecidablePred (IsResolved st) := fun _ =>
  inferInstanceAs (Decidable (_ ≠ _))

instance (st : Resolved Bndg) : DecidablePred (IsVisited st) := fun _ =>
  inferInstanceAs (Decidable (_ ≠ _))

section

variable [DecidableEq Bndg]

/-- A binding that is marked. -/
def visit (bndg : Bndg) (st : Resolved Bndg) : Resolved Bndg :=
  setResolved bndg (st bndg ||| 2#64) st

/-- A binding whose mark is taken away. -/
def unvisit (bndg : Bndg) (st : Resolved Bndg) : Resolved Bndg :=
  setResolved bndg (st bndg &&& ~~~2#64) st

theorem isResolved_visit (bndg x : Bndg) (st : Resolved Bndg) :
    IsResolved (visit bndg st) x ↔ IsResolved st x := by
  unfold IsResolved visit setResolved
  rw [Function.update_apply]
  split
  · rename_i h
    rw [h, BitVec.and_or_distrib_right, show (2#64 &&& 1#64) = 0#64 from rfl, BitVec.or_zero]
  · rfl

theorem isVisited_visit (bndg x : Bndg) (st : Resolved Bndg) :
    IsVisited (visit bndg st) x ↔ x = bndg ∨ IsVisited st x := by
  unfold IsVisited visit setResolved
  rw [Function.update_apply]
  split
  · rename_i h
    rw [BitVec.and_or_distrib_right, show (2#64 &&& 2#64) = 2#64 from rfl, ne_eq,
      BitVec.or_eq_zero_iff]
    simp [h]
  · rename_i h
    simp [h]

theorem isResolved_unvisit (bndg x : Bndg) (st : Resolved Bndg) :
    IsResolved (unvisit bndg st) x ↔ IsResolved st x := by
  unfold IsResolved unvisit setResolved
  rw [Function.update_apply]
  split
  · rename_i h
    rw [h, BitVec.and_assoc, show (~~~2#64 &&& 1#64) = 1#64 from rfl]
  · rfl

theorem isVisited_unvisit (bndg x : Bndg) (st : Resolved Bndg) :
    IsVisited (unvisit bndg st) x ↔ x ≠ bndg ∧ IsVisited st x := by
  unfold IsVisited unvisit setResolved
  rw [Function.update_apply]
  split
  · rename_i h
    rw [BitVec.and_assoc, show (~~~2#64 &&& 2#64) = 0#64 from rfl]
    simp [h]
  · rename_i h
    simp [h]

theorem assertBindingResolved_succ (n : Nat) (bndg : Bndg) (st : Resolved Bndg) :
    assertBindingResolved dependencies (n + 1) bndg st =
      if IsResolved st bndg then
        if IsVisited st bndg then some (.returned st)
        else assertDepends (assertBindingResolved dependencies n) (dependencies bndg)
          (visit bndg st)
      else some (.handler bndg st) := rfl

theorem unvisitBindingResolved_succ (n : Nat) (bndg : Bndg) (st : Resolved Bndg) :
    unvisitBindingResolved dependencies (n + 1) bndg st =
      if IsVisited st bndg then
        unvisitDepends (unvisitBindingResolved dependencies n) (dependencies bndg)
          (unvisit bndg st)
      else some st := rfl

end

variable {dependencies} {st st₁ st' : Resolved Bndg}

/-! ## What an assertion does -/

/-- The paths that an assertion follows: behind a binding that is resolved and not
marked. -/
def Looks (dependencies : Bndg → List Bndg) (st : Resolved Bndg) : Bndg → Bndg → Prop :=
  ReflTransGen fun s t => (IsResolved st s ∧ ¬ IsVisited st s) ∧ t ∈ dependencies s

/-- What has changed when assertions have returned: every binding that was marked is
resolved, and so are its dependencies, which are marked too. -/
structure Asserted (dependencies : Bndg → List Bndg) (st st' : Resolved Bndg) : Prop where
  resolved : ∀ x, IsResolved st' x ↔ IsResolved st x
  visited : ∀ x, IsVisited st x → IsVisited st' x
  closed : ∀ x, IsVisited st' x → ¬ IsVisited st x →
    IsResolved st x ∧ ∀ t ∈ dependencies x, IsResolved st t ∧ IsVisited st' t

theorem Asserted.refl (st : Resolved Bndg) : Asserted dependencies st st :=
  ⟨fun _ => Iff.rfl, fun _ h => h, fun _ h h' => absurd h h'⟩

theorem Asserted.trans (h : Asserted dependencies st st₁) (h' : Asserted dependencies st₁ st') :
    Asserted dependencies st st' where
  resolved x := (h'.resolved x).trans (h.resolved x)
  visited x hx := h'.visited x (h.visited x hx)
  closed x hx hnot := by
    by_cases hx₁ : IsVisited st₁ x
    · obtain ⟨hr, hdeps⟩ := h.closed x hx₁ hnot
      exact ⟨hr, fun t ht => ⟨(hdeps t ht).1, h'.visited t (hdeps t ht).2⟩⟩
    · obtain ⟨hr, hdeps⟩ := h'.closed x hx hx₁
      exact ⟨(h.resolved x).mp hr,
        fun t ht => ⟨(h.resolved t).mp (hdeps t ht).1, (hdeps t ht).2⟩⟩

/-- With more marks fewer paths are followed. -/
theorem Looks.mono (hresolved : ∀ x, IsResolved st₁ x ↔ IsResolved st x)
    (hvisited : ∀ x, IsVisited st x → IsVisited st₁ x) {a x : Bndg}
    (h : Looks dependencies st₁ a x) : Looks dependencies st a x :=
  ReflTransGen.mono (fun s _ hs =>
    ⟨⟨(hresolved s).mp hs.1.1, fun hv => hs.1.2 (hvisited s hv)⟩, hs.2⟩) _ _ h

/-- How assertions of some bindings end. -/
def AssertEnds (dependencies : Bndg → List Bndg) (st : Resolved Bndg) (starts : List Bndg) :
    Ended Bndg → Prop
  | .returned st' => Asserted dependencies st st' ∧
    ∀ d ∈ starts, IsResolved st d ∧ IsVisited st' d
  | .handler undefinedSymbol st' => (∀ x, IsResolved st' x ↔ IsResolved st x) ∧
    ¬ IsResolved st undefinedSymbol ∧ ∃ d ∈ starts, Looks dependencies st d undefinedSymbol

section

variable [Fintype Bndg]

/-- How many bindings are not marked. -/
def unvisited (st : Resolved Bndg) : Nat := (Finset.univ.filter (¬ IsVisited st ·)).card

theorem unvisited_le (h : ∀ x, IsVisited st x → IsVisited st' x) :
    unvisited st' ≤ unvisited st := by
  apply Finset.card_le_card
  intro x hx
  rw [Finset.mem_filter] at hx ⊢
  exact ⟨hx.1, fun hv => hx.2 (h x hv)⟩

variable [DecidableEq Bndg]

theorem unvisited_visit {bndg : Bndg} (h : ¬ IsVisited st bndg) :
    unvisited (visit bndg st) < unvisited st := by
  apply Finset.card_lt_card
  rw [Finset.ssubset_iff_of_subset]
  · refine ⟨bndg, by simpa using h, ?_⟩
    rw [Finset.mem_filter, isVisited_visit]
    exact fun hx => hx.2 (Or.inl rfl)
  · intro x hx
    rw [Finset.mem_filter] at hx ⊢
    exact ⟨hx.1, fun hv => hx.2 ((isVisited_visit bndg x st).mpr (Or.inr hv))⟩

theorem assertDepends_ends {n : Nat}
    (hassert : ∀ d st, unvisited st < n → ∃ ended,
      assertBindingResolved dependencies n d st = some ended ∧
        AssertEnds dependencies st [d] ended) (deps : List Bndg) (hn : unvisited st < n) :
    ∃ ended, assertDepends (assertBindingResolved dependencies n) deps st = some ended ∧
      AssertEnds dependencies st deps ended := by
  induction deps generalizing st with
  | nil => exact ⟨.returned st, rfl, .refl st, fun d hd => absurd hd List.not_mem_nil⟩
  | cons d deps ih =>
    obtain ⟨ended, hd, hends⟩ := hassert d st hn
    unfold assertDepends
    rw [hd]
    cases ended with
    | handler x st₁ =>
      obtain ⟨hresolved, hx, e, he, hlooks⟩ := hends
      rw [List.mem_singleton.mp he] at hlooks
      exact ⟨.handler x st₁, rfl, hresolved, hx, d, List.mem_cons_self, hlooks⟩
    | returned st₁ =>
      obtain ⟨hasserted, hstart⟩ := hends
      obtain ⟨ended, hdeps, hends⟩ := ih (Nat.lt_of_le_of_lt (unvisited_le hasserted.visited) hn)
      refine ⟨ended, hdeps, ?_⟩
      cases ended with
      | handler x st' =>
        obtain ⟨hresolved, hx, e, he, hlooks⟩ := hends
        exact ⟨fun y => (hresolved y).trans (hasserted.resolved y),
          fun hr => hx ((hasserted.resolved x).mpr hr), e, List.mem_cons_of_mem d he,
          hlooks.mono hasserted.resolved hasserted.visited⟩
      | returned st' =>
        obtain ⟨hasserted', hstart'⟩ := hends
        refine ⟨hasserted.trans hasserted', ?_⟩
        intro e he
        rcases List.mem_cons.mp he with rfl | he
        · obtain ⟨hr, hv⟩ := hstart e (List.mem_singleton.mpr rfl)
          exact ⟨hr, hasserted'.visited e hv⟩
        · obtain ⟨hr, hv⟩ := hstart' e he
          exact ⟨(hasserted.resolved e).mp hr, hv⟩

variable (dependencies) in
/-- An assertion ends, as it should for the marks that it started with. -/
theorem assertBindingResolved_ends {n : Nat} (bndg : Bndg) (st : Resolved Bndg)
    (hn : unvisited st < n) : ∃ ended, assertBindingResolved dependencies n bndg st = some ended ∧
      AssertEnds dependencies st [bndg] ended := by
  induction n generalizing bndg st with
  | zero => exact absurd hn (Nat.not_lt_zero _)
  | succ n ih =>
    rw [assertBindingResolved_succ]
    by_cases hr : IsResolved st bndg
    · rw [if_pos hr]
      by_cases hv : IsVisited st bndg
      · rw [if_pos hv]
        refine ⟨.returned st, rfl, .refl st, ?_⟩
        intro d hd
        rw [List.mem_singleton.mp hd]
        exact ⟨hr, hv⟩
      · rw [if_neg hv]
        have hcount := unvisited_visit hv
        obtain ⟨ended, hdeps, hends⟩ := assertDepends_ends ih (dependencies bndg)
          (Nat.lt_of_lt_of_le hcount (Nat.lt_succ_iff.mp hn))
        refine ⟨ended, hdeps, ?_⟩
        have hresolved := fun x => isResolved_visit bndg x st
        have hvisited : ∀ x, IsVisited st x → IsVisited (visit bndg st) x :=
          fun x hx => (isVisited_visit bndg x st).mpr (Or.inr hx)
        cases ended with
        | handler x st' =>
          obtain ⟨hresolved', hx, d, hd, hlooks⟩ := hends
          refine ⟨fun y => (hresolved' y).trans (hresolved y), fun h => hx ((hresolved x).mpr h),
            bndg, List.mem_singleton.mpr rfl, ?_⟩
          exact .head ⟨⟨hr, hv⟩, hd⟩ (Looks.mono hresolved hvisited hlooks)
        | returned st' =>
          obtain ⟨hasserted, hstart⟩ := hends
          have hself : IsVisited st' bndg :=
            hasserted.visited bndg ((isVisited_visit bndg bndg st).mpr (Or.inl rfl))
          refine ⟨⟨fun x => (hasserted.resolved x).trans (hresolved x),
            fun x hx => hasserted.visited x (hvisited x hx), ?_⟩, ?_⟩
          · intro x hx hnot
            by_cases hxb : x = bndg
            · subst hxb
              exact ⟨hr, fun t ht => ⟨(hresolved t).mp (hstart t ht).1, (hstart t ht).2⟩⟩
            · have hnot' : ¬ IsVisited (visit bndg st) x := by
                rw [isVisited_visit]
                exact fun h => h.elim hxb hnot
              obtain ⟨hrx, hdeps⟩ := hasserted.closed x hx hnot'
              exact ⟨(hresolved x).mp hrx,
                fun t ht => ⟨(hresolved t).mp (hdeps t ht).1, (hdeps t ht).2⟩⟩
          · intro d hd
            rw [List.mem_singleton.mp hd]
            exact ⟨hr, hself⟩
    · rw [if_neg hr]
      exact ⟨.handler bndg st, rfl, fun _ => Iff.rfl, hr, bndg, List.mem_singleton.mpr rfl, .refl⟩

end

/-- What is looked at after an assertion has returned is resolved. -/
theorem Asserted.isResolved_of_looks (h : Asserted dependencies st st') {bndg x : Bndg}
    (hr : IsResolved st bndg) (hv : IsVisited st' bndg) (hx : Looks dependencies st bndg x) :
    IsResolved st x := by
  have hboth : IsResolved st x ∧ IsVisited st' x := by
    induction hx with
    | refl => exact ⟨hr, hv⟩
    | tail _ hst ih => exact (h.closed _ ih.2 hst.1.2).2 _ hst.2
  exact hboth.1

/-! ## What the marks are taken from -/

/-- The paths along which the marks are taken away: behind a marked binding. -/
def Follows (dependencies : Bndg → List Bndg) (st : Resolved Bndg) : Bndg → Bndg → Prop :=
  ReflTransGen fun s t => IsVisited st s ∧ t ∈ dependencies s

/-- What has changed when the marks have been taken away from some bindings. -/
structure Unvisited (dependencies : Bndg → List Bndg) (st : Resolved Bndg) (starts : List Bndg)
    (st' : Resolved Bndg) : Prop where
  resolved : ∀ x, IsResolved st' x ↔ IsResolved st x
  visited : ∀ x, IsVisited st' x → IsVisited st x
  closed : ∀ x, IsVisited st x → ¬ IsVisited st' x →
    ∀ t ∈ dependencies x, ¬ IsVisited st' t
  reached : ∀ x, IsVisited st x → ¬ IsVisited st' x → ∃ d ∈ starts, Follows dependencies st d x
  starts : ∀ d ∈ starts, ¬ IsVisited st' d

theorem Follows.mono (hvisited : ∀ x, IsVisited st₁ x → IsVisited st x) {a x : Bndg}
    (h : Follows dependencies st₁ a x) : Follows dependencies st a x :=
  ReflTransGen.mono (fun s _ hs => ⟨hvisited s hs.1, hs.2⟩) _ _ h

theorem Unvisited.cons {d : Bndg} {deps : List Bndg} (h : Unvisited dependencies st [d] st₁)
    (h' : Unvisited dependencies st₁ deps st') : Unvisited dependencies st (d :: deps) st' where
  resolved x := (h'.resolved x).trans (h.resolved x)
  visited x hx := h.visited x (h'.visited x hx)
  closed x hx hnot t ht := by
    by_cases hx₁ : IsVisited st₁ x
    · exact h'.closed x hx₁ hnot t ht
    · exact fun hv => h.closed x hx hx₁ t ht (h'.visited t hv)
  reached x hx hnot := by
    by_cases hx₁ : IsVisited st₁ x
    · obtain ⟨e, he, hpath⟩ := h'.reached x hx₁ hnot
      exact ⟨e, List.mem_cons_of_mem d he, hpath.mono h.visited⟩
    · obtain ⟨e, he, hpath⟩ := h.reached x hx hx₁
      exact ⟨e, List.mem_cons.mpr (Or.inl (List.mem_singleton.mp he)), hpath⟩
  starts e he := by
    rcases List.mem_cons.mp he with rfl | he
    · exact fun hv => h.starts e (List.mem_singleton.mpr rfl) (h'.visited e hv)
    · exact h'.starts e he

section

variable [Fintype Bndg]

/-- How many bindings are marked. -/
def visitedCount (st : Resolved Bndg) : Nat := (Finset.univ.filter (IsVisited st ·)).card

theorem visitedCount_le (h : ∀ x, IsVisited st' x → IsVisited st x) :
    visitedCount st' ≤ visitedCount st := by
  apply Finset.card_le_card
  intro x hx
  rw [Finset.mem_filter] at hx ⊢
  exact ⟨hx.1, h x hx.2⟩

variable [DecidableEq Bndg]

theorem visitedCount_unvisit {bndg : Bndg} (h : IsVisited st bndg) :
    visitedCount (unvisit bndg st) < visitedCount st := by
  apply Finset.card_lt_card
  rw [Finset.ssubset_iff_of_subset]
  · refine ⟨bndg, by simpa using h, ?_⟩
    rw [Finset.mem_filter, isVisited_unvisit]
    exact fun hx => hx.2.1 rfl
  · intro x hx
    rw [Finset.mem_filter] at hx ⊢
    exact ⟨hx.1, ((isVisited_unvisit bndg x st).mp hx.2).2⟩

theorem unvisitDepends_unvisits {n : Nat}
    (hunvisit : ∀ d st, visitedCount st < n → ∃ st',
      unvisitBindingResolved dependencies n d st = some st' ∧
        Unvisited dependencies st [d] st') (deps : List Bndg) (hn : visitedCount st < n) :
    ∃ st', unvisitDepends (unvisitBindingResolved dependencies n) deps st = some st' ∧
      Unvisited dependencies st deps st' := by
  induction deps generalizing st with
  | nil =>
    exact ⟨st, rfl, fun _ => Iff.rfl, fun _ h => h, fun _ h h' => absurd h h',
      fun _ h h' => absurd h h', fun d hd => absurd hd List.not_mem_nil⟩
  | cons d deps ih =>
    obtain ⟨st₁, hd, h₁⟩ := hunvisit d st hn
    obtain ⟨st', hdeps, h'⟩ := ih (Nat.lt_of_le_of_lt (visitedCount_le h₁.visited) hn)
    refine ⟨st', ?_, h₁.cons h'⟩
    unfold unvisitDepends
    rw [hd]
    exact hdeps

variable (dependencies) in
theorem unvisitBindingResolved_unvisits {n : Nat} (bndg : Bndg) (st : Resolved Bndg)
    (hn : visitedCount st < n) : ∃ st', unvisitBindingResolved dependencies n bndg st = some st' ∧
      Unvisited dependencies st [bndg] st' := by
  induction n generalizing bndg st with
  | zero => exact absurd hn (Nat.not_lt_zero _)
  | succ n ih =>
    rw [unvisitBindingResolved_succ]
    by_cases hv : IsVisited st bndg
    · rw [if_pos hv]
      obtain ⟨st', hdeps, h⟩ := unvisitDepends_unvisits ih (dependencies bndg)
        (Nat.lt_of_lt_of_le (visitedCount_unvisit hv) (Nat.lt_succ_iff.mp hn))
      have hvisited : ∀ x, IsVisited (unvisit bndg st) x → IsVisited st x :=
        fun x hx => ((isVisited_unvisit bndg x st).mp hx).2
      have hself : ¬ IsVisited st' bndg :=
        fun hx => ((isVisited_unvisit bndg bndg st).mp (h.visited bndg hx)).1 rfl
      refine ⟨st', hdeps, fun x => (h.resolved x).trans (isResolved_unvisit bndg x st),
        fun x hx => hvisited x (h.visited x hx), ?_, ?_, ?_⟩
      · intro x hx hnot t ht
        by_cases hxb : x = bndg
        · subst hxb
          exact h.starts t ht
        · exact h.closed x ((isVisited_unvisit bndg x st).mpr ⟨hxb, hx⟩) hnot t ht
      · intro x hx hnot
        refine ⟨bndg, List.mem_singleton.mpr rfl, ?_⟩
        by_cases hxb : x = bndg
        · subst hxb
          exact .refl
        · obtain ⟨d, hd, hpath⟩ :=
            h.reached x ((isVisited_unvisit bndg x st).mpr ⟨hxb, hx⟩) hnot
          exact .head ⟨hv, hd⟩ (hpath.mono hvisited)
      · intro d hd
        rw [List.mem_singleton.mp hd]
        exact hself
    · rw [if_neg hv]
      refine ⟨st, rfl, fun _ => Iff.rfl, fun _ h => h, fun _ h h' => absurd h h',
        fun _ h h' => absurd h h', ?_⟩
      intro d hd
      rw [List.mem_singleton.mp hd]
      exact hv

end

/-- Exactly the marks behind marked bindings are taken away. -/
theorem Unvisited.isVisited_iff {bndg : Bndg} (h : Unvisited dependencies st [bndg] st')
    (x : Bndg) : IsVisited st' x ↔ IsVisited st x ∧ ¬ Follows dependencies st bndg x := by
  have hfollows : Follows dependencies st bndg x → ¬ IsVisited st' x := by
    intro hpath
    induction hpath with
    | refl => exact h.starts bndg (List.mem_singleton.mpr rfl)
    | tail _ hst ih => exact h.closed _ hst.1 ih _ hst.2
  constructor
  · exact fun hv => ⟨h.visited x hv, fun hpath => hfollows hpath hv⟩
  · rintro ⟨hv, hnot⟩
    by_contra hnv
    obtain ⟨d, hd, hpath⟩ := h.reached x hv hnv
    rw [List.mem_singleton.mp hd] at hpath
    exact hnot hpath

/-! ## Asserting after unvisiting -/

def Ended.Returns : Ended Bndg → Prop
  | .returned _ => True
  | .handler _ _ => False

instance : DecidablePred (Ended.Returns : Ended Bndg → Prop) := fun
  | .returned _ => isTrue trivial
  | .handler _ _ => isFalse id

/-- The words that a call leaves, however it ends. -/
def Ended.words : Ended Bndg → Resolved Bndg
  | .returned st => st
  | .handler _ st => st

/-- A mark that `unvisit-binding-resolved` leaves where it is: it is not behind marked
bindings. -/
def Stale (dependencies : Bndg → List Bndg) (st : Resolved Bndg) (bndg s : Bndg) : Prop :=
  IsVisited st s ∧ ¬ Follows dependencies st bndg s

/-- The paths from a binding that lead through resolved bindings without a stale mark. -/
def Sees (dependencies : Bndg → List Bndg) (st : Resolved Bndg) (bndg : Bndg) : Bndg → Prop :=
  ReflTransGen (fun s t =>
    (IsResolved st s ∧ ¬ Stale dependencies st bndg s) ∧ t ∈ dependencies s) bndg

/-- If a binding that is not resolved is reachable, then one is reachable that no stale
mark hides. -/
def Exposed (dependencies : Bndg → List Bndg) (st : Resolved Bndg) (bndg : Bndg) : Prop :=
  (∃ x, Reaches dependencies bndg x ∧ ¬ IsResolved st x) →
    ∃ x, Sees dependencies st bndg x ∧ ¬ IsResolved st x

/-- What is done to the words between two looks at a binding. -/
inductive Call (Bndg : Type) where
  | unvisit (bndg : Bndg)
  | assert (bndg : Bndg)
  /-- `setf bndg-resolved` -/
  | setf (bndg : Bndg) (w : BitVec 64)

section

variable [Fintype Bndg] [DecidableEq Bndg]

/-- `[assert-binding-resolved [unvisit-binding-resolved bndg] handler]`, with a depth that
the recursion does not come to (`assertUnvisited_eq`). -/
def assertUnvisited (dependencies : Bndg → List Bndg) (bndg : Bndg) (st : Resolved Bndg) :
    Option (Ended Bndg) := do
  let st ← unvisitBindingResolved dependencies (Fintype.card Bndg + 1) bndg st
  assertBindingResolved dependencies (Fintype.card Bndg + 1) bndg st

def Call.run (dependencies : Bndg → List Bndg) : Call Bndg → Resolved Bndg → Option (Resolved Bndg)
  | .unvisit bndg, st => unvisitBindingResolved dependencies (Fintype.card Bndg + 1) bndg st
  | .assert bndg, st =>
    (assertBindingResolved dependencies (Fintype.card Bndg + 1) bndg st).map Ended.words
  | .setf bndg w, st => some (setResolved bndg w st)

/-- The words that a sequence of calls leaves. -/
def runCalls (dependencies : Bndg → List Bndg) :
    List (Call Bndg) → Resolved Bndg → Option (Resolved Bndg)
  | [], st => some st
  | c :: calls, st => do runCalls dependencies calls (← c.run dependencies st)

omit [DecidableEq Bndg] in
theorem visitedCount_lt (st : Resolved Bndg) : visitedCount st < Fintype.card Bndg + 1 :=
  Nat.lt_succ_of_le (Finset.card_le_univ _)

omit [DecidableEq Bndg] in
theorem unvisited_lt (st : Resolved Bndg) : unvisited st < Fintype.card Bndg + 1 :=
  Nat.lt_succ_of_le (Finset.card_le_univ _)

variable (dependencies) in
theorem Call.run_isSome (c : Call Bndg) (st : Resolved Bndg) :
    ∃ st', c.run dependencies st = some st' := by
  cases c with
  | unvisit bndg =>
    obtain ⟨st', h, -⟩ := unvisitBindingResolved_unvisits dependencies bndg st
      (visitedCount_lt st)
    exact ⟨st', h⟩
  | assert bndg =>
    obtain ⟨ended, h, -⟩ := assertBindingResolved_ends dependencies bndg st
      (unvisited_lt st)
    refine ⟨ended.words, ?_⟩
    show (assertBindingResolved dependencies _ bndg st).map Ended.words = _
    rw [h]
    rfl
  | setf bndg w => exact ⟨setResolved bndg w st, rfl⟩

variable (dependencies) in
theorem runCalls_isSome (calls : List (Call Bndg)) (st : Resolved Bndg) :
    ∃ st', runCalls dependencies calls st = some st' := by
  induction calls generalizing st with
  | nil => exact ⟨st, rfl⟩
  | cons c calls ih =>
    obtain ⟨st₁, hc⟩ := c.run_isSome dependencies st
    obtain ⟨st', hcalls⟩ := ih st₁
    refine ⟨st', ?_⟩
    unfold runCalls
    rw [hc]
    exact hcalls

variable (dependencies) in
/-- It returns exactly when everything is resolved that no stale mark hides. -/
theorem assertUnvisited_eq (bndg : Bndg) (st : Resolved Bndg) :
    ∃ ended, assertUnvisited dependencies bndg st = some ended ∧
      (ended.Returns ↔ ∀ x, Sees dependencies st bndg x → IsResolved st x) := by
  obtain ⟨st₁, hun, hunvisited⟩ := unvisitBindingResolved_unvisits dependencies
    bndg st (visitedCount_lt st)
  obtain ⟨ended, has, hends⟩ := assertBindingResolved_ends dependencies bndg st₁
    (unvisited_lt st₁)
  -- what the assertion looks at are the paths that no stale mark hides
  have hlooks : Looks dependencies st₁ bndg = Sees dependencies st bndg := by
    unfold Looks Sees
    congr 1
    funext s t
    show ((IsResolved st₁ s ∧ ¬ IsVisited st₁ s) ∧ _) = _
    rw [hunvisited.resolved, hunvisited.isVisited_iff]
    rfl
  refine ⟨ended, ?_, ?_⟩
  · unfold assertUnvisited
    rw [hun]
    exact has
  · cases ended with
    | returned st' =>
      obtain ⟨hasserted, hstart⟩ := hends
      obtain ⟨hr, hv⟩ := hstart bndg (List.mem_singleton.mpr rfl)
      refine ⟨fun _ x hx => ?_, fun _ => trivial⟩
      rw [← hlooks] at hx
      exact (hunvisited.resolved x).mp (hasserted.isResolved_of_looks hr hv hx)
    | handler x st' =>
      obtain ⟨-, hx, d, hd, hpath⟩ := hends
      rw [List.mem_singleton.mp hd, hlooks] at hpath
      refine ⟨False.elim, fun h => hx ?_⟩
      exact (hunvisited.resolved x).mpr (h x hpath)

omit [Fintype Bndg] [DecidableEq Bndg] in
theorem Sees.reaches {bndg x : Bndg} (h : Sees dependencies st bndg x) :
    Reaches dependencies bndg x :=
  ReflTransGen.mono (fun _ _ hs => hs.2) _ _ h

/-- After any calls an assertion after unvisiting ends, and it is exact when and only when
no stale mark hides the bindings that are not resolved. -/
theorem assertUnvisited_exact_iff (dependencies : Bndg → List Bndg) (calls : List (Call Bndg))
    (st₀ : Resolved Bndg) (bndg : Bndg) :
    ∃ st, runCalls dependencies calls st₀ = some st ∧
      ∃ ended, assertUnvisited dependencies bndg st = some ended ∧
        ((ended.Returns ↔ ∀ x, Reaches dependencies bndg x → IsResolved st x) ↔
          Exposed dependencies st bndg) := by
  obtain ⟨st, hcalls⟩ := runCalls_isSome dependencies calls st₀
  obtain ⟨ended, hended, hreturns⟩ := assertUnvisited_eq dependencies bndg st
  refine ⟨st, hcalls, ended, hended, ?_⟩
  rw [hreturns]
  constructor
  · rintro hexact ⟨x, hx, hnot⟩
    by_contra hsees
    push Not at hsees
    exact hnot (hexact.mp hsees x hx)
  · intro hexposed
    refine ⟨fun hsees x hx => ?_, fun hall x hx => hall x hx.reaches⟩
    by_contra hnot
    obtain ⟨y, hy, hnoty⟩ := hexposed ⟨x, hx, hnot⟩
    exact hnoty (hsees y hy)

end

/-- With `0` depending on `1` and `1` on `2`, and only `2` not resolved, an assertion for
`1` ends in the handler and leaves its mark there: the next one for `0` returns. -/
theorem assertUnvisited_hidden :
    ¬ ∀ (dependencies : Fin 3 → List (Fin 3)) (calls : List (Call (Fin 3)))
      (st₀ st : Resolved (Fin 3)) (ended : Ended (Fin 3)) (bndg : Fin 3),
      runCalls dependencies calls st₀ = some st → assertUnvisited dependencies bndg st =
        some ended →
        (ended.Returns ↔ ∀ x, Reaches dependencies bndg x → IsResolved st x) := by
  intro h
  let chain : Fin 3 → List (Fin 3) := ![[1], [2], []]
  let st : Resolved (Fin 3) := ![1#64, 3#64, 0#64]
  have hst : runCalls chain [.unvisit 1, .assert 1] ![1#64, 1#64, 0#64] = some st := by
    decide
  have hreturns : (assertUnvisited chain 0 st).map (decide ·.Returns) = some true := by decide
  obtain ⟨ended, hended, hdecide⟩ := Option.map_eq_some_iff.mp hreturns
  have hall := (h chain _ _ st ended 0 hst hended).mp (of_decide_eq_true hdecide)
  have hpath : Reaches chain 0 2 :=
    (ReflTransGen.single (show (1 : Fin 3) ∈ chain 0 by decide)).tail
      (show (2 : Fin 3) ∈ chain 1 by decide)
  exact absurd (hall 2 hpath) (by decide)

end L2.SelfHost
