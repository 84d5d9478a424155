import L2.Fuel
import L2.Graph.Walk
import L2.Bootstrap.Expression
import Mathlib.Data.ENat.Lattice

/-!
# Strongly connected components of the dependencies

`construct_sccs` gives every expression the depth of its recursion as its first lowlink,
lets what an expression depends on lower it, and takes a component off the stack when
the lowlink was not lowered.  The lowlink of what has been taken off is `-1`, which is
larger than any other because lowlinks are unsigned.

The proofs run `construct_sccs` along the walk of `L2.Graph.Walk`.  The depths of
different branches overlap, so a lowlink can be too large to be noticed; `Good` is what
holds as long as this has not happened, and `Bad` what holds ever after.
-/

namespace L2.Bootstrap

open Graph Function
open scoped List

/-- The fields and lists that `construct_sccs` changes. -/
structure Sccs where
  /-- 0 before the visit, `⊤` for `-1`. -/
  lowlink : ExprId → ℕ∞
  stack : List ExprId
  sccs : List (List ExprId)

namespace Sccs

def start : Sccs := { lowlink := fun _ => 0, stack := [], sccs := [] }

def setLowlink (st : Sccs) (s : ExprId) (low : ℕ∞) : Sccs :=
  { st with lowlink := update st.lowlink s low }

def lower (st : Sccs) (s t : ExprId) : Sccs :=
  if st.lowlink t < st.lowlink s then st.setLowlink s (st.lowlink t) else st

def push (st : Sccs) (s : ExprId) : Sccs := { st with stack := s :: st.stack }

/-- The elements above `marker`, each prepended to `scc`. -/
def popTo (marker : List ExprId) : List ExprId → List ExprId → List ExprId
  | [], scc => scc
  | u :: t, scc => if u :: t = marker then scc else popTo marker t (u :: scc)

def emit (st : Sccs) (marker : List ExprId) : Sccs :=
  let scc := popTo marker st.stack []
  { lowlink := fun u => if u ∈ scc then ⊤ else st.lowlink u
    stack := marker
    sccs := scc :: st.sccs }

/-- What `construct_sccs` does after its loop. -/
def finish (st : Sccs) (s : ExprId) (preorder : Nat) (marker : List ExprId) : Sccs :=
  if st.lowlink s = preorder then (st.push s).emit marker else st.push s

end Sccs

/-- The loop over the dependencies of `s`. -/
def constructDependencies (construct : ExprId → Sccs → Option Sccs) (s : ExprId) :
    List ExprId → Sccs → Option Sccs
  | [], st => some st
  | t :: ts, st => do constructDependencies construct s ts ((← construct t st).lower s t)

def constructSccs (deps : ExprId → List ExprId) : Nat → ExprId → Nat → Sccs → Option Sccs
  | 0, _, _, _ => none
  | n + 1, s, preorder, st =>
    if st.lowlink s = 0 then do
      let marker := st.stack
      let st ← constructDependencies (fun t => constructSccs deps n t (preorder + 1)) s (deps s)
        (st.setLowlink s preorder)
      return st.finish s preorder marker
    else some st

/-- `construct_sccs` on every expression of the list in turn. -/
def constructAll (deps : ExprId → List ExprId) (n : Nat) : List ExprId → Sccs → Option Sccs
  | [], st => some st
  | s :: ss, st => do constructAll deps n ss (← constructSccs deps n s 1 st)

/-- The components in the order in which `infer_types` goes through them. -/
def sccsOf (deps : ExprId → List ExprId) (n : Nat) (exprs : List ExprId) :
    Option (List (List ExprId)) := do
  return (← constructAll deps n exprs Sccs.start).sccs.reverse

/-! ## Stability -/

theorem constructDependencies_mono {f g : ExprId → Sccs → Option Sccs}
    (h : ∀ t st st', f t st = some st' → g t st = some st') {s : ExprId} {ts : List ExprId}
    {st st' : Sccs} (hf : constructDependencies f s ts st = some st') :
    constructDependencies g s ts st = some st' := by
  induction ts generalizing st with
  | nil => exact hf
  | cons t ts ih =>
    rw [constructDependencies] at hf ⊢
    obtain ⟨st₁, h₁, h₂⟩ := Option.bind_eq_some_iff.mp hf
    exact Option.bind_eq_some_iff.mpr ⟨st₁, h t st st₁ h₁, ih h₂⟩

theorem constructSccs_stable {deps : ExprId → List ExprId} :
    Fuel.Stable fun n (x : ExprId × Nat × Sccs) => constructSccs deps n x.1 x.2.1 x.2.2 := by
  intro n
  induction n with
  | zero => exact fun _ _ h => absurd h (by simp [constructSccs])
  | succ n ih =>
    rintro ⟨s, preorder, st⟩ st' h
    simp only at h ⊢
    rw [constructSccs] at h ⊢
    split at h
    · rw [if_pos ‹_›]
      obtain ⟨st₁, h₁, h₂⟩ := Option.bind_eq_some_iff.mp h
      refine Option.bind_eq_some_iff.mpr ⟨st₁, ?_, h₂⟩
      exact constructDependencies_mono (fun t a b hab => ih (t, preorder + 1, a) b hab) h₁
    · exact (if_neg ‹_›).trans h

theorem constructAll_stable {deps : ExprId → List ExprId} {ss : List ExprId} :
    Fuel.Stable fun n st => constructAll deps n ss st := by
  induction ss with
  | nil => exact fun _ _ _ h => h
  | cons s ss ih =>
    intro n st st' h
    obtain ⟨st₁, h₁, h₂⟩ := Option.bind_eq_some_iff.mp h
    refine Option.bind_eq_some_iff.mpr ⟨st₁, ?_, ih n st₁ st' h₂⟩
    exact constructSccs_stable n (s, 1, st) st₁ h₁

/-! ## The stack and the lists -/

namespace Sccs

variable {deps : ExprId → List ExprId} {st st' : Sccs} {w w' : Walk ExprId}
variable {path : List ExprId} {s t : ExprId}

theorem popTo_append (new marker scc : List ExprId) :
    popTo marker (new ++ marker) scc = new.reverse ++ scc := by
  induction new generalizing scc with
  | nil =>
    cases marker with
    | nil => rfl
    | cons u t => simp [popTo]
  | cons u new ih =>
    have hne : u :: (new ++ marker) ≠ marker := fun h => by
      have := congrArg List.length h
      simp only [List.length_cons, List.length_append] at this
      omega
    rw [List.cons_append, popTo, if_neg hne, ih, List.reverse_cons, List.append_assoc]
    rfl

/-- The walk has left what is on the stack or in a list, and has entered what has a
lowlink. -/
structure Tracks (st : Sccs) (w : Walk ExprId) : Prop where
  lowlink : ∀ x, st.lowlink x ≠ 0 ↔ x ∈ w.order
  mem_left : ∀ x, x ∈ w.left ↔ x ∈ st.stack ∨ x ∈ st.sccs.flatten
  nodup : (st.stack ++ st.sccs.flatten).Nodup
  nonempty : ∀ l ∈ st.sccs, l ≠ []
  depth : ∀ x ∈ w.order, w.depth x ≠ 0

/-- What is pushed after `st` was not entered in the walk `w`. -/
structure Grown (w : Walk ExprId) (st st' : Sccs) : Prop where
  stack : ∃ new, st'.stack = new ++ st.stack ∧ ∀ x ∈ new, x ∉ w.order
  sccs : st.sccs <:+ st'.sccs

theorem Grown.refl (w : Walk ExprId) (st : Sccs) : Grown w st st :=
  ⟨⟨[], rfl, by simp⟩, List.suffix_refl _⟩

theorem Grown.trans {st₁ st₂ st₃ : Sccs} (h : Grown w st₁ st₂) (hw : w.order ⊆ w'.order)
    (h' : Grown w' st₂ st₃) : Grown w st₁ st₃ := by
  obtain ⟨new, e, hnew⟩ := h.stack
  obtain ⟨new', e', hnew'⟩ := h'.stack
  refine ⟨⟨new' ++ new, by rw [e', e, List.append_assoc], fun x hx => ?_⟩, h.sccs.trans h'.sccs⟩
  rcases List.mem_append.mp hx with hx | hx
  · exact fun ho => hnew' x hx (hw ho)
  · exact hnew x hx

/-! ## What holds until a component is split -/

structure Good (deps : ExprId → List ExprId) (path : List ExprId) (st : Sccs)
    (w : Walk ExprId) : Prop where
  top_iff : ∀ x, st.lowlink x = ⊤ ↔ x ∈ st.sccs.flatten
  /-- A lowlink is no larger than the depth of what a chain leads to. -/
  le_depth : ∀ x ∈ w.order, ∀ y, Chain w.edges x y → y ∉ st.sccs.flatten →
    st.lowlink x ≤ w.depth y
  /-- A lowlink is the depth of something a chain leads to. -/
  eq_depth : ∀ x ∈ w.order, st.lowlink x ≠ ⊤ →
    ∃ y, Chain w.edges x y ∧ Reaches deps y x ∧ st.lowlink x = w.depth y
  mem_iff : ∀ l ∈ st.sccs, ∀ x ∈ l, ∀ y, y ∈ l ↔ Mutual deps x y
  older : DependsOnOlder deps st.sccs
  stack : ∀ x ∈ st.stack, ∃ p ∈ path, Mutual deps x p
  escapes : ∀ v ∈ w.left, ∀ r, Walk.EnteredAfter w v r → Mutual deps v r →
    Walk.Escapes deps w v

/-- A list leaves out part of a component, and a vertex says that the walk made it. -/
def Bad (deps : ExprId → List ExprId) (st : Sccs) (w : Walk ExprId) : Prop :=
  (∃ l ∈ st.sccs, ∃ v ∈ l, ∃ r, Mutual deps v r ∧ r ∉ l) ∧
    ∃ v ∈ w.left, ∃ r, Walk.EnteredAfter w v r ∧ Mutual deps v r ∧ ¬ Walk.Escapes deps w v

theorem Bad.mono (h : Bad deps st w) (hi : Walk.Inv deps path w) (hl : Walk.Later w w')
    (hn : w'.order.Nodup) (hs : st.sccs <:+ st'.sccs) : Bad deps st' w' := by
  obtain ⟨⟨l, hm, hrest⟩, v, hv, r, ha, hr, he⟩ := h
  refine ⟨⟨l, hs.subset hm, hrest⟩, v, hl.left v hv, r, ?_, hr, ?_⟩
  · exact (hl.enteredAfter_iff hn (hi.left_entered v hv)).mpr ha
  · rwa [hl.escapes_iff hi hv]

/-- What is in a component that has been taken off is in the list. -/
theorem Good.mem_flatten_of_mutual (h : Good deps path st w) {x y : ExprId}
    (hx : x ∈ st.sccs.flatten) (hm : Mutual deps x y) : y ∈ st.sccs.flatten := by
  obtain ⟨l, hl, hxl⟩ := List.mem_flatten.mp hx
  exact List.mem_flatten.mpr ⟨l, hl, (h.mem_iff l hl x hxl y).mpr hm⟩

/-! ## Entering, and lowering a lowlink -/

theorem Tracks.notMem_flatten (h : Tracks st w) (hs : s ∉ w.left) : s ∉ st.sccs.flatten :=
  fun hf => hs ((h.mem_left s).mpr (Or.inr hf))

theorem Tracks.enter {d : Nat} (h : Tracks st w) (hd : d ≠ 0) :
    Tracks (st.setLowlink s d) (w.enter s d) where
  lowlink x := by
    by_cases hx : x = s
    · simp [setLowlink, Walk.enter, hx, hd]
    · simp [setLowlink, Walk.enter, hx, h.lowlink]
  mem_left := h.mem_left
  nodup := h.nodup
  nonempty := h.nonempty
  depth x hx := by
    by_cases hxs : x = s
    · simp [Walk.enter, hxs, hd]
    · simpa [Walk.enter, hxs] using h.depth x ((List.mem_cons.mp hx).resolve_left hxs)

theorem Good.enter (h : Good deps path st w) (ht : Tracks st w) (hi : Walk.Inv deps path w)
    {d : Nat} (hs : s ∉ w.order) :
    Good deps (s :: path) (st.setLowlink s d) (w.enter s d) where
  top_iff x := by
    by_cases hx : x = s
    · have : s ∉ st.sccs.flatten := ht.notMem_flatten fun hl => hs (hi.left_entered s hl)
      simpa [setLowlink, hx] using this
    · simpa [setLowlink, hx] using h.top_iff x
  le_depth x hx y hc hy := by
    by_cases hxs : x = s
    · subst hxs
      -- No edge leaves a vertex that is only now entered.
      have hxy : y = x := by
        have hnone : ∀ e ∈ w.edges, e.1 ≠ x := fun e he hex =>
          hs (hex ▸ hi.edges_from e.1 e.2 he)
        have hcx : Chain (w.edges ++ []) x y := by simpa [Walk.enter] using hc
        exact Eq.symm ((chain_append_iff hnone).mp hcx)
      simp [setLowlink, Walk.enter, hxy]
    · have hxo := (List.mem_cons.mp hx).resolve_left hxs
      have hyo : y ∈ w.order := hi.chain_entered hxo hc
      have hys : y ≠ s := ne_of_mem_of_not_mem hyo hs
      simpa [setLowlink, Walk.enter, hxs, hys] using h.le_depth x hxo y hc hy
  eq_depth x hx htop := by
    by_cases hxs : x = s
    · exact ⟨s, hxs ▸ Chain.refl _ _, hxs ▸ .refl, by simp [setLowlink, Walk.enter, hxs]⟩
    · have hxo := (List.mem_cons.mp hx).resolve_left hxs
      obtain ⟨y, hc, hr, hy⟩ := h.eq_depth x hxo (by simpa [setLowlink, hxs] using htop)
      have hys : y ≠ s := ne_of_mem_of_not_mem (hi.chain_entered hxo hc) hs
      exact ⟨y, hc, hr, by simpa [setLowlink, Walk.enter, hxs, hys] using hy⟩
  mem_iff := h.mem_iff
  older := h.older
  stack x hx := by
    obtain ⟨p, hp, hm⟩ := h.stack x hx
    exact ⟨p, List.mem_cons_of_mem s hp, hm⟩
  escapes v hv r ha hr := by
    have hl := Walk.later_enter (d := d) hs
    have hvo := hi.left_entered v hv
    have hn : (w.enter s d).order.Nodup := List.nodup_cons.mpr ⟨hs, hi.nodup⟩
    exact (hl.escapes_iff hi hv).mpr (h.escapes v hv r ((hl.enteredAfter_iff hn hvo).mp ha) hr)

theorem lower_lowlink_self : (st.lower s t).lowlink s = min (st.lowlink t) (st.lowlink s) := by
  rw [lower]
  split
  · simp [setLowlink, min_eq_left (le_of_lt ‹_›)]
  · rw [min_eq_right (not_lt.mp ‹_›)]

theorem lower_lowlink_of_ne {x : ExprId} (hx : x ≠ s) :
    (st.lower s t).lowlink x = st.lowlink x := by
  rw [lower]
  split
  · simp [setLowlink, hx]
  · rfl

theorem lower_stack : (st.lower s t).stack = st.stack := by
  rw [lower]; split <;> rfl

theorem lower_sccs : (st.lower s t).sccs = st.sccs := by
  rw [lower]; split <;> rfl

theorem Tracks.lower (h : Tracks st w) (hs : s ∈ w.order) (ht : t ∈ w.order) :
    Tracks (st.lower s t) (w.finishEdge s t) where
  lowlink x := by
    by_cases hx : x = s
    · have hs' := (h.lowlink s).mpr hs
      have ht' := (h.lowlink t).mpr ht
      have hmin : min (st.lowlink t) (st.lowlink s) ≠ 0 := by
        rcases min_choice (st.lowlink t) (st.lowlink s) with e | e <;> rw [e] <;> assumption
      simpa [hx, lower_lowlink_self, hmin] using hs
    · rw [lower_lowlink_of_ne hx]
      exact h.lowlink x
  mem_left := by simpa [lower_stack, lower_sccs] using h.mem_left
  nodup := by simpa [lower_stack, lower_sccs] using h.nodup
  nonempty := by simpa [lower_sccs] using h.nonempty
  depth := h.depth

/-- What has not been taken off reaches the top of the path. -/
theorem Good.reaches_top (h : Good deps (s :: path) st w) (ht : Tracks st w)
    (hi : Walk.Inv deps (s :: path) w) {x : ExprId} (hx : x ∈ w.order)
    (hf : x ∉ st.sccs.flatten) : Reaches deps x s := by
  have below : ∀ p ∈ s :: path, Reaches deps p s := fun p hp => by
    rcases List.mem_cons.mp hp with rfl | hp
    · exact .refl
    · exact (List.pairwise_cons.mp hi.path_reaches).1 p hp
  by_cases hl : x ∈ w.left
  · obtain ⟨p, hp, hm⟩ := h.stack x (((ht.mem_left x).mp hl).resolve_right hf)
    exact hm.1.trans (below p hp)
  · exact below x ((hi.mem_path x).mpr ⟨hx, hl⟩)

theorem Good.lower (h : Good deps (s :: path) st w) (htr : Tracks st w)
    (hi : Walk.Inv deps (s :: path) w) (ht : t ∈ w.order) (he : t ∈ deps s) :
    Good deps (s :: path) (st.lower s t) (w.finishEdge s t) where
  top_iff x := by
    rw [lower_sccs]
    by_cases hx : x = s
    · have hs : st.lowlink s ≠ ⊤ := fun e =>
        htr.notMem_flatten hi.notMem_left_of_path ((h.top_iff s).mp e)
      have := (h.top_iff s).not.mp hs
      simp [hx, lower_lowlink_self, hs, this]
    · rw [lower_lowlink_of_ne hx]
      exact h.top_iff x
  le_depth x hx y hc hy := by
    rw [lower_sccs] at hy
    rcases hc with hc | ⟨rfl, hc⟩
    · by_cases hxs : x = s
      · subst hxs
        rw [lower_lowlink_self]
        exact min_le_of_right_le (h.le_depth x hx y hc hy)
      · rw [lower_lowlink_of_ne hxs]
        exact h.le_depth x hx y hc hy
    · rw [lower_lowlink_self]
      exact min_le_of_left_le (h.le_depth t ht y hc hy)
  eq_depth x hx htop := by
    by_cases hxs : x = s
    · subst hxs
      rw [lower_lowlink_self] at htop ⊢
      rcases min_choice (st.lowlink t) (st.lowlink x) with e | e <;> rw [e] at htop ⊢
      · obtain ⟨y, hc, hr, hy⟩ := h.eq_depth t ht htop
        have hts := h.reaches_top htr hi ht ((h.top_iff t).not.mp htop)
        exact ⟨y, Or.inr ⟨rfl, hc⟩, hr.trans hts, hy⟩
      · obtain ⟨y, hc, hr, hy⟩ := h.eq_depth x hx htop
        exact ⟨y, Or.inl hc, hr, hy⟩
    · rw [lower_lowlink_of_ne hxs] at htop ⊢
      obtain ⟨y, hc, hr, hy⟩ := h.eq_depth x hx htop
      exact ⟨y, Or.inl hc, hr, hy⟩
  mem_iff := by simpa [lower_sccs] using h.mem_iff
  older := by simpa [lower_sccs] using h.older
  stack := by simpa [lower_stack] using h.stack
  escapes v hv r ha hr := by
    have hl := Walk.later_finishEdge (t := t) hi.notMem_left_of_path
    exact (hl.escapes_iff hi hv).mpr (h.escapes v hv r ha hr)

/-! ## Leaving -/

/-- The loop over the dependencies of `s` has just ended; `st₀` and `w₀` are from before
`s` was entered at depth `d`. -/
structure Leaving (deps : ExprId → List ExprId) (path : List ExprId) (s : ExprId) (d : Nat)
    (st₀ : Sccs) (w₀ : Walk ExprId) (st : Sccs) (w : Walk ExprId) : Prop where
  inv₀ : Walk.Inv deps path w₀
  tracks₀ : Tracks st₀ w₀
  notMem : s ∉ w₀.order
  followed : Walk.Followed deps path s d (deps s) (w₀.enter s d) w
  tracks : Tracks st w
  grown : Grown (w₀.enter s d) (st₀.setLowlink s d) st

namespace Leaving

variable {d : Nat} {st₀ : Sccs} {w₀ : Walk ExprId}

theorem enteredAfter_iff (h : Leaving deps path s d st₀ w₀ st w) {r : ExprId} :
    Walk.EnteredAfter w s r ↔ r ∈ w₀.order := by
  have hsuf : s :: w₀.order <:+ w.order := h.followed.later.order
  constructor
  · rintro ⟨rest, hrest, hr⟩
    rwa [Walk.suffix_cons_unique h.followed.inv.nodup hrest hsuf] at hr
  · exact fun hr => ⟨w₀.order, hsuf, hr⟩

theorem depth_self (h : Leaving deps path s d st₀ w₀ st w) : w.depth s = d :=
  (h.followed.later.depth s List.mem_cons_self).trans Walk.enter_depth_self

theorem notMem_flatten (h : Leaving deps path s d st₀ w₀ st w) : s ∉ st.sccs.flatten :=
  h.tracks.notMem_flatten h.followed.inv.notMem_left_of_path

theorem mem_order (h : Leaving deps path s d st₀ w₀ st w) : s ∈ w.order :=
  h.followed.inv.mem_order_of_path

theorem exists_stack (h : Leaving deps path s d st₀ w₀ st w) :
    ∃ new, st.stack = new ++ st₀.stack ∧ ∀ x ∈ new, x ≠ s ∧ x ∉ w₀.order := by
  obtain ⟨new, e, hnew⟩ := h.grown.stack
  refine ⟨new, e, fun x hx => ?_⟩
  have := hnew x hx
  simpa [Walk.enter] using this

theorem path_entered (h : Leaving deps path s d st₀ w₀ st w) {p : ExprId} (hp : p ∈ path) :
    p ∈ w₀.order ∧ Reaches deps p s :=
  ⟨((h.inv₀.mem_path p).mp hp).1, (List.pairwise_cons.mp h.followed.inv.path_reaches).1 p hp⟩

theorem stack_entered (h : Leaving deps path s d st₀ w₀ st w) {x : ExprId}
    (hx : x ∈ st₀.stack) : x ∈ w₀.order :=
  h.inv₀.left_entered x ((h.tracks₀.mem_left x).mpr (Or.inl hx))

/-- The lowlink of `s` was lowered exactly if `s` escapes. -/
theorem lowlink_eq_iff (h : Leaving deps path s d st₀ w₀ st w)
    (hg : Good deps (s :: path) st w) :
    st.lowlink s = d ↔ ¬ Walk.Escapes deps w s := by
  have hs := h.mem_order
  have hnf := h.notMem_flatten
  constructor
  · rintro hlow ⟨y, hc, hr, hy⟩
    have hm : Mutual deps s y := ⟨hc.reaches h.followed.inv.edges_deps, hr⟩
    have hyf : y ∉ st.sccs.flatten := fun hyf => hnf (hg.mem_flatten_of_mutual hyf hm.symm)
    have hle := hg.le_depth s hs y hc hyf
    rw [hlow, Nat.cast_le] at hle
    rw [h.depth_self] at hy
    omega
  · intro hne
    have hle := hg.le_depth s hs s (Chain.refl _ _) hnf
    rw [h.depth_self] at hle
    obtain ⟨y, hc, hr, hy⟩ := hg.eq_depth s hs ((hg.top_iff s).not.mpr hnf)
    rw [hy, Nat.cast_le] at hle
    rw [hy, Nat.cast_inj]
    refine Nat.le_antisymm hle (Nat.le_of_not_lt fun hlt => hne ⟨y, hc, hr, ?_⟩)
    rwa [h.depth_self]

/-- No vertex of the component of `s` was entered before `s`. -/
def First (deps : ExprId → List ExprId) (s : ExprId) (w₀ : Walk ExprId) : Prop :=
  ∀ r ∈ w₀.order, ¬ Mutual deps s r

/-- The component of `s` is on the stack, above what was there before `s`. -/
theorem mutual_iff (h : Leaving deps path s d st₀ w₀ st w) (hg : Good deps (s :: path) st w)
    (hfirst : First deps s w₀) {new : List ExprId} (e : st.stack = new ++ st₀.stack)
    (hnew : ∀ x ∈ new, x ≠ s ∧ x ∉ w₀.order) {y : ExprId} :
    Mutual deps s y ↔ y ∈ s :: new := by
  have hstack : ∀ x ∈ new, Mutual deps s x := by
    intro x hx
    obtain ⟨p, hp, hm⟩ := hg.stack x (e ▸ List.mem_append_left _ hx)
    rcases List.mem_cons.mp hp with rfl | hp
    · exact hm.symm
    · obtain ⟨hpo, hps⟩ := h.path_entered hp
      have hxl : x ∈ w.left := (h.tracks.mem_left x).mpr (Or.inl (e ▸ List.mem_append_left _ hx))
      have hsx : Reaches deps s x :=
        (h.followed.fresh x (h.followed.inv.left_entered x hxl)
          (by simpa [Walk.enter] using hnew x hx)).2.1
      exact absurd ⟨hsx.trans hm.1, hps⟩ (hfirst p hpo)
  constructor
  · -- From `s` the walk cannot get to an older vertex of the path and still come back.
    intro hm
    have inside : ∀ z, Reaches deps s z → Reaches deps z s → z = s ∨ z ∈ w.left := by
      intro z hz
      induction hz with
      | refl => exact fun _ => Or.inl rfl
      | @tail a b hab hb ih =>
        intro hbs
        have hbo : b ∈ w.order := by
          rcases ih ((Reaches.edge hb).trans hbs) with rfl | ha
          · exact h.followed.entered b hb
          · exact h.followed.inv.left_closed a ha b hb
        by_cases hbl : b ∈ w.left
        · exact Or.inr hbl
        rcases List.mem_cons.mp ((h.followed.inv.mem_path b).mpr ⟨hbo, hbl⟩) with rfl | hbp
        · exact Or.inl rfl
        · exact absurd ⟨hab.trans (Reaches.edge hb), hbs⟩ (hfirst b (h.path_entered hbp).1)
    rcases inside y hm.1 hm.2 with rfl | hyl
    · exact List.mem_cons_self
    · rcases (h.tracks.mem_left y).mp hyl with hy | hy
      · rw [e] at hy
        rcases List.mem_append.mp hy with hy | hy
        · exact List.mem_cons_of_mem s hy
        · exact absurd hm (hfirst y (h.stack_entered hy))
      · exact absurd (hg.mem_flatten_of_mutual hy hm.symm) h.notMem_flatten
  · intro hy
    rcases List.mem_cons.mp hy with rfl | hy
    · exact Mutual.refl _
    · exact hstack y hy

theorem emit_push {new : List ExprId} (e : st.stack = new ++ st₀.stack) :
    (st.push s).emit st₀.stack =
      { lowlink := fun u => if u ∈ s :: new then ⊤ else st.lowlink u
        stack := st₀.stack
        sccs := (s :: new).reverse :: st.sccs } := by
  have hpop : popTo st₀.stack (st.push s).stack [] = (s :: new).reverse := by
    have := popTo_append (s :: new) st₀.stack []
    rwa [List.append_nil, List.cons_append, ← e] at this
  rw [emit, hpop]
  simp only [List.mem_reverse]
  rfl

theorem tracks_push (h : Leaving deps path s d st₀ w₀ st w) :
    Tracks (st.push s) (w.leave s) where
  lowlink := h.tracks.lowlink
  mem_left x := by
    rw [Walk.leave_left, List.mem_cons, h.tracks.mem_left, push, List.mem_cons, or_assoc]
  nodup := by
    refine List.nodup_cons.mpr ⟨fun hs => ?_, h.tracks.nodup⟩
    exact h.followed.inv.notMem_left_of_path
      ((h.tracks.mem_left s).mpr (List.mem_append.mp hs))
  nonempty := h.tracks.nonempty
  depth := h.tracks.depth

/-- Taking the top of the stack off into a list leaves its elements where they can be
found. -/
theorem tracks_emit (h : Leaving deps path s d st₀ w₀ st w) :
    Tracks ((st.push s).emit st₀.stack) (w.leave s) := by
  obtain ⟨new, e, -⟩ := h.exists_stack
  have hp := h.tracks_push
  rw [emit_push e]
  have hmem : ∀ x, (x ∈ (st.push s).stack ∨ x ∈ st.sccs.flatten) ↔
      x ∈ st₀.stack ∨ x ∈ ((s :: new).reverse :: st.sccs).flatten := by
    intro x
    simp only [push, e, List.flatten_cons, List.mem_append, List.mem_reverse, List.mem_cons]
    tauto
  have hperm : (st.push s).stack ++ st.sccs.flatten ~
      st₀.stack ++ ((s :: new).reverse :: st.sccs).flatten := by
    simp only [push, e, List.flatten_cons, ← List.append_assoc]
    refine List.Perm.append_right _ ?_
    have hcomm : s :: new ++ st₀.stack ~ st₀.stack ++ (s :: new) := List.perm_append_comm
    refine hcomm.trans ?_
    exact List.Perm.append_left _ (List.reverse_perm _).symm
  refine ⟨fun x => ?_, fun x => ?_, hperm.nodup_iff.mp hp.nodup, ?_, hp.depth⟩
  · by_cases hx : x ∈ s :: new
    · have hxl : x ∈ (w.leave s).left := (hp.mem_left x).mpr
        (Or.inl (by rw [push, e]; exact List.mem_append_left st₀.stack hx))
      have hxo : x ∈ w.order := by
        rcases List.mem_cons.mp hxl with rfl | hxl
        · exact h.mem_order
        · exact h.followed.inv.left_entered x hxl
      simp [hx, hxo]
    · simp only [hx, if_false]
      exact h.tracks.lowlink x
  · exact (hp.mem_left x).trans (hmem x)
  · intro l hl
    rcases List.mem_cons.mp hl with rfl | hl
    · simp
    · exact h.tracks.nonempty l hl

theorem tracks_finish (h : Leaving deps path s d st₀ w₀ st w) :
    Tracks (st.finish s d st₀.stack) (w.leave s) := by
  rw [finish]
  split
  · exact h.tracks_emit
  · exact h.tracks_push

theorem grown_finish (h : Leaving deps path s d st₀ w₀ st w) :
    Grown w₀ st₀ (st.finish s d st₀.stack) := by
  obtain ⟨new, e, hnew⟩ := h.exists_stack
  have hsccs : st₀.sccs <:+ st.sccs := h.grown.sccs
  rw [finish]
  split
  · rw [emit_push e]
    exact ⟨⟨[], rfl, by simp⟩, hsccs.trans (List.suffix_cons _ _)⟩
  · refine ⟨⟨s :: new, by simp [push, e], fun x hx => ?_⟩, hsccs⟩
    rcases List.mem_cons.mp hx with rfl | hx
    · exact h.notMem
    · exact (hnew x hx).2

theorem good_push (h : Leaving deps path s d st₀ w₀ st w) (hg₀ : Good deps path st₀ w₀)
    (hg : Good deps (s :: path) st w) (hesc : Walk.Escapes deps w s) :
    Good deps path (st.push s) (w.leave s) where
  top_iff := hg.top_iff
  le_depth := hg.le_depth
  eq_depth := hg.eq_depth
  mem_iff := hg.mem_iff
  older := hg.older
  stack := by
    -- What `s` escapes to was entered before `s`, and is on the path or was on the stack.
    have hs : ∃ p ∈ path, Mutual deps s p := by
      obtain ⟨y, hc, hr, hy⟩ := hesc
      have hm : Mutual deps s y := ⟨hc.reaches h.followed.inv.edges_deps, hr⟩
      have hyo : y ∈ w.order := h.followed.inv.chain_entered h.mem_order hc
      rw [h.depth_self] at hy
      have hyo₀ : y ∈ w₀.order := by
        by_contra hn
        by_cases hys : y = s
        · rw [hys, h.depth_self] at hy
          exact absurd hy (Nat.lt_irrefl d)
        · have := (h.followed.fresh y hyo (by simp [Walk.enter, hys, hn])).1
          omega
      by_cases hyl : y ∈ w₀.left
      · rcases (h.tracks₀.mem_left y).mp hyl with hst | hf
        · obtain ⟨p, hp, hyp⟩ := hg₀.stack y hst
          exact ⟨p, hp, hm.trans hyp⟩
        · have hyf : y ∈ st.sccs.flatten := by
            obtain ⟨l, hl, hyl⟩ := List.mem_flatten.mp hf
            exact List.mem_flatten.mpr ⟨l, h.grown.sccs.subset hl, hyl⟩
          exact absurd (hg.mem_flatten_of_mutual hyf hm.symm) h.notMem_flatten
      · exact ⟨y, (h.inv₀.mem_path y).mpr ⟨hyo₀, hyl⟩, hm⟩
    intro x hx
    obtain ⟨p, hp, hm⟩ : ∃ p ∈ s :: path, Mutual deps x p := by
      rcases List.mem_cons.mp hx with rfl | hx
      · exact ⟨x, List.mem_cons_self, Mutual.refl x⟩
      · exact hg.stack x hx
    rcases List.mem_cons.mp hp with rfl | hp
    · obtain ⟨q, hq, hpq⟩ := hs
      exact ⟨q, hq, hm.trans hpq⟩
    · exact ⟨p, hp, hm⟩
  escapes v hv r ha hr := by
    rcases List.mem_cons.mp hv with rfl | hv
    · exact hesc
    · exact hg.escapes v hv r ha hr

theorem good_emit (h : Leaving deps path s d st₀ w₀ st w) (hg : Good deps (s :: path) st w)
    (hfirst : First deps s w₀) :
    Good deps path ((st.push s).emit st₀.stack) (w.leave s) := by
  obtain ⟨new, e, hnew⟩ := h.exists_stack
  have hcomp : ∀ {y}, Mutual deps s y ↔ y ∈ s :: new := h.mutual_iff hg hfirst e hnew
  have entered : ∀ x ∈ s :: new, ∀ t ∈ deps x, t ∈ w.order := by
    intro x hx t ht
    rcases List.mem_cons.mp hx with rfl | hx
    · exact h.followed.entered t ht
    · have hxl : x ∈ w.left := (h.tracks.mem_left x).mpr (Or.inl (e ▸ List.mem_append_left _ hx))
      exact h.followed.inv.left_closed x hxl t ht
  have holder : DependsOnOlder deps ((s :: new).reverse :: st.sccs) := by
    refine ⟨fun x hx t ht => ?_, hg.older⟩
    rw [List.mem_reverse] at hx ⊢
    by_cases htf : t ∈ st.sccs.flatten
    · exact Or.inr htf
    have hsx := hcomp.mpr hx
    have hts : Reaches deps t s :=
      hg.reaches_top h.tracks h.followed.inv (entered x hx t ht) htf
    exact Or.inl (hcomp.mp ⟨hsx.1.trans (Reaches.edge ht), hts⟩)
  rw [emit_push e]
  refine ⟨fun x => ?_, fun x hx y hc hy => ?_, fun x hx htop => ?_, fun l hl x hx y => ?_, holder,
    fun x hx => ?_, fun v hv r ha hr => ?_⟩
  · by_cases hx : x ∈ s :: new
    · have hxf : x ∈ ((s :: new).reverse :: st.sccs).flatten := by
        rw [List.flatten_cons, List.mem_append, List.mem_reverse]
        exact Or.inl hx
      simp only [hx, if_true, hxf]
    · simp only [hx, if_false]
      rw [List.flatten_cons, List.mem_append, List.mem_reverse, or_iff_right hx]
      exact hg.top_iff x
  · by_cases hxn : x ∈ s :: new
    · -- The list is closed, so no chain leads out of it and past the older lists.
      have hxf : x ∈ ((s :: new).reverse :: st.sccs).flatten :=
        List.mem_append_left _ (List.mem_reverse.mpr hxn)
      exact absurd (holder.closed hxf (hc.reaches h.followed.inv.edges_deps)) hy
    · simp only [hxn, if_false]
      exact hg.le_depth x hx y hc fun hyf => hy (List.mem_append_right _ hyf)
  · by_cases hxn : x ∈ s :: new
    · simp [hxn] at htop
    · simp only [hxn, if_false] at htop ⊢
      exact hg.eq_depth x hx htop
  · rcases List.mem_cons.mp hl with rfl | hl
    · rw [List.mem_reverse] at hx ⊢
      have hsx := hcomp.mpr hx
      rw [← hcomp]
      exact ⟨fun hsy => hsx.symm.trans hsy, fun hxy => hsx.trans hxy⟩
    · exact hg.mem_iff l hl x hx y
  · obtain ⟨p, hp, hm⟩ := hg.stack x (e ▸ List.mem_append_right _ hx)
    rcases List.mem_cons.mp hp with rfl | hp
    · exact absurd hm.symm (hfirst x (h.stack_entered hx))
    · exact ⟨p, hp, hm⟩
  · rcases List.mem_cons.mp hv with rfl | hv
    · exact absurd hr (hfirst r (h.enteredAfter_iff.mp ha))
    · exact hg.escapes v hv r ha hr

theorem bad_emit (h : Leaving deps path s d st₀ w₀ st w) {r : ExprId} (hr : r ∈ w₀.order)
    (hm : Mutual deps s r) (hesc : ¬ Walk.Escapes deps w s) :
    Bad deps ((st.push s).emit st₀.stack) (w.leave s) := by
  obtain ⟨new, e, hnew⟩ := h.exists_stack
  rw [emit_push e]
  refine ⟨⟨(s :: new).reverse, List.mem_cons_self, s, by simp, r, hm, fun hrn => ?_⟩,
    s, List.mem_cons_self, r, h.enteredAfter_iff.mpr hr, hm, hesc⟩
  rcases List.mem_cons.mp (List.mem_reverse.mp hrn) with rfl | hrn
  · exact h.notMem hr
  · exact (hnew r hrn).2 hr

theorem finish_good_or_bad (h : Leaving deps path s d st₀ w₀ st w)
    (hg₀ : Good deps path st₀ w₀) (hg : Good deps (s :: path) st w) :
    Good deps path (st.finish s d st₀.stack) (w.leave s) ∨
      Bad deps (st.finish s d st₀.stack) (w.leave s) := by
  rw [finish]
  split
  · have hesc := (h.lowlink_eq_iff hg).mp ‹_›
    by_cases hfirst : First deps s w₀
    · exact Or.inl (h.good_emit hg hfirst)
    · simp only [First, not_forall, not_not] at hfirst
      obtain ⟨r, hr, hm⟩ := hfirst
      exact Or.inr (h.bad_emit hr hm hesc)
  · have hesc := not_not.mp ((h.lowlink_eq_iff hg).not.mp ‹_›)
    exact Or.inl (h.good_push hg₀ hg hesc)

end Leaving

/-! ## The walk and `construct_sccs` side by side -/

/-- What a visit within `path` does to the lowlinks, the stack and the lists. -/
structure Simulates (deps : ExprId → List ExprId) (path : List ExprId) (st : Sccs)
    (w : Walk ExprId) (st' : Sccs) (w' : Walk ExprId) : Prop where
  tracks : Tracks st' w'
  grown : Grown w st st'
  good : Good deps path st w → Good deps path st' w' ∨ Bad deps st' w'

theorem Simulates.refl (h : Tracks st w) : Simulates deps path st w st w :=
  ⟨h, Grown.refl w st, Or.inl⟩

theorem Simulates.trans {st₁ st₂ st₃ : Sccs} {w₁ w₂ w₃ : Walk ExprId}
    (h : Simulates deps path st₁ w₁ st₂ w₂) (h' : Simulates deps path st₂ w₂ st₃ w₃)
    (hi : Walk.Inv deps path w₂) (hl : Walk.Later w₁ w₂) (hl' : Walk.Later w₂ w₃)
    (hn : w₃.order.Nodup) : Simulates deps path st₁ w₁ st₃ w₃ where
  tracks := h'.tracks
  grown := h.grown.trans hl.order.subset h'.grown
  good hg := by
    rcases h.good hg with hg | hb
    · exact h'.good hg
    · exact Or.inr (hb.mono hi hl' hn h'.grown.sccs)

/-- A finished dependency of `s`, which is on top of the path. -/
theorem Simulates.lower (h : Simulates deps (s :: path) st w st' w') {d : Nat}
    (hv : Walk.Visited deps (s :: path) t d w w') (he : t ∈ deps s) :
    Simulates deps (s :: path) st w (st'.lower s t) (w'.finishEdge s t) where
  tracks := h.tracks.lower hv.inv.mem_order_of_path hv.entered
  grown := by
    obtain ⟨new, e, hnew⟩ := h.grown.stack
    exact ⟨⟨new, by rw [lower_stack, e], hnew⟩, by rw [lower_sccs]; exact h.grown.sccs⟩
  good hg := by
    rcases h.good hg with hg | hb
    · exact Or.inl (hg.lower h.tracks hv.inv hv.entered he)
    · have hl := Walk.later_finishEdge (t := t) hv.inv.notMem_left_of_path
      have hsuf : st'.sccs <:+ (st'.lower s t).sccs := by simp only [lower_sccs, List.suffix_refl]
      exact Or.inr (hb.mono hv.inv hl hv.inv.nodup hsuf)

theorem Leaving.simulates {d : Nat} {st₀ : Sccs} {w₀ : Walk ExprId}
    (h : Leaving deps path s d st₀ w₀ st w)
    (hsim : Simulates deps (s :: path) (st₀.setLowlink s d) (w₀.enter s d) st w) :
    Simulates deps path st₀ w₀ (st.finish s d st₀.stack) (w.leave s) where
  tracks := h.tracks_finish
  grown := h.grown_finish
  good hg₀ := by
    rcases hsim.good (hg₀.enter h.tracks₀ h.inv₀ h.notMem) with hg | hb
    · exact h.finish_good_or_bad hg₀ hg
    · refine Or.inr (hb.mono h.followed.inv (Walk.later_leave w s) h.followed.inv.nodup ?_)
      obtain ⟨new, e, -⟩ := h.exists_stack
      rw [finish]
      split
      · rw [emit_push e]
        exact List.suffix_cons _ _
      · exact List.suffix_refl _

end Sccs

open Sccs

variable {deps : ExprId → List ExprId} {st : Sccs} {w : Walk ExprId}

/-- Where the walk's visit of `s` returns, so does `construct_sccs`. -/
theorem constructSccs_simulates (n : Nat) : ∀ (s : ExprId) (d : Nat) (path : List ExprId)
    (st : Sccs) (w w' : Walk ExprId), Walk.visit deps n s d w = some w' →
    Walk.Inv deps path w → Tracks st w → d ≠ 0 → (∀ r ∈ path, Reaches deps r s) →
    (∀ r ∈ path, w.depth r < d) →
    Walk.Visited deps path s d w w' ∧
      ∃ st', constructSccs deps n s d st = some st' ∧ Simulates deps path st w st' w' := by
  induction n with
  | zero => exact fun _ _ _ _ _ _ h => absurd h (by simp [Walk.visit])
  | succ n ih =>
    intro s d path st w w' h hi ht hd hr hlt
    have hlow := ht.lowlink s
    rw [Walk.visit] at h
    rw [constructSccs]
    by_cases hs : s ∈ w.order
    · rw [if_pos hs, Option.some.injEq] at h
      subst h
      refine ⟨⟨hi, Walk.Later.refl w, hs, fun x hx hn => absurd hx hn⟩, st, ?_, .refl ht⟩
      exact if_neg (hlow.mpr hs)
    rw [if_neg hs] at h
    rw [if_pos (not_not.mp (hlow.not.mpr hs))]
    obtain ⟨w₂, hw₂, hw'⟩ := Option.bind_eq_some_iff.mp h
    obtain rfl : w₂.leave s = w' := Option.some.inj hw'
    -- The loop, for any part of the dependencies that is still to come.
    have loop : ∀ ts, (∀ t ∈ ts, t ∈ deps s) → ∀ st₁ w₁ w₂,
        Walk.follow (fun t => Walk.visit deps n t (d + 1)) s ts w₁ = some w₂ →
        Walk.Inv deps (s :: path) w₁ → w₁.depth s = d → Tracks st₁ w₁ →
        Walk.Followed deps path s d ts w₁ w₂ ∧
          ∃ st₂, constructDependencies (fun t => constructSccs deps n t (d + 1)) s ts st₁ =
            some st₂ ∧
            Simulates deps (s :: path) st₁ w₁ st₂ w₂ := by
      intro ts
      induction ts with
      | nil =>
        intro _ st₁ w₁ w₂ hf hi₁ _ ht₁
        obtain rfl : w₁ = w₂ := Option.some.inj hf
        exact ⟨Walk.Followed.nil hi₁, st₁, rfl, .refl ht₁⟩
      | cons t ts iht =>
        intro hts st₁ w₁ w₂ hf hi₁ hd₁ ht₁
        have he := hts t List.mem_cons_self
        obtain ⟨w₃, hw₃, hf₃⟩ := Option.bind_eq_some_iff.mp hf
        obtain ⟨hrt, hdt⟩ := hi₁.below hd₁ he
        obtain ⟨hv, st₃, hst₃, hsim⟩ :=
          ih t (d + 1) (s :: path) st₁ w₁ w₃ hw₃ hi₁ ht₁ (Nat.succ_ne_zero d) hrt hdt
        have hfol := hv.followed he
        have hsim' := hsim.lower hv he
        have hd₃ : (w₃.finishEdge s t).depth s = d :=
          (hfol.later.depth s hi₁.mem_order_of_path).trans hd₁
        obtain ⟨hfol', st₂, hst₂, hsim₂⟩ := iht (fun u hu => hts u (List.mem_cons_of_mem t hu))
          (st₃.lower s t) (w₃.finishEdge s t) w₂ hf₃ hfol.inv hd₃ hsim'.tracks
        refine ⟨hfol.trans hfol', st₂, ?_, ?_⟩
        · exact Option.bind_eq_some_iff.mpr ⟨st₃, hst₃, hst₂⟩
        · exact hsim'.trans hsim₂ hfol.inv hfol.later hfol'.later hfol'.inv.nodup
    obtain ⟨hfol, st₂, hst₂, hsim⟩ := loop (deps s) (fun _ ht => ht) (st.setLowlink s d)
      (w.enter s d) w₂ hw₂ (hi.enter hs hr hlt) Walk.enter_depth_self (ht.enter hd)
    have hleave : Leaving deps path s d st w st₂ w₂ := ⟨hi, ht, hs, hfol, hsim.tracks, hsim.grown⟩
    refine ⟨hfol.visited hs, st₂.finish s d st.stack, ?_, hleave.simulates hsim⟩
    exact Option.bind_eq_some_iff.mpr ⟨st₂, hst₂, rfl⟩

theorem constructAll_simulates {n : Nat} {ss : List ExprId} {w' : Walk ExprId}
    (h : Walk.visitAll deps n ss w = some w') (hi : Walk.Inv deps [] w) (ht : Tracks st w) :
    Walk.VisitedAll deps ss w w' ∧
      ∃ st', constructAll deps n ss st = some st' ∧ Simulates deps [] st w st' w' := by
  induction ss generalizing st w with
  | nil =>
    obtain rfl : w = w' := Option.some.inj h
    exact ⟨Walk.VisitedAll.nil hi, st, rfl, .refl ht⟩
  | cons s ss ih =>
    obtain ⟨w₁, hw₁, hw'⟩ := Option.bind_eq_some_iff.mp h
    obtain ⟨hv, st₁, hst₁, hsim⟩ := constructSccs_simulates n s 1 [] st w w₁ hw₁ hi ht
      Nat.one_ne_zero (by simp) (by simp)
    obtain ⟨hall, st', hst', hsim'⟩ := ih hw' hv.inv hsim.tracks
    refine ⟨hall.cons hv, st', Option.bind_eq_some_iff.mpr ⟨st₁, hst₁, hst'⟩, ?_⟩
    exact hsim.trans hsim' hv.inv hv.later hall.later hall.inv.nodup

theorem tracks_start : Tracks Sccs.start Walk.start := by
  constructor <;> simp [Sccs.start, Walk.start]

theorem good_start : Good deps [] Sccs.start Walk.start := by
  constructor <;> simp [Sccs.start, Walk.start, DependsOnOlder]

/-- At the end of a walk, `Good` is all that there is to prove. -/
theorem Sccs.Good.components {ss : List ExprId} (h : Good deps [] st w) (ht : Tracks st w)
    (hv : Walk.VisitedAll deps ss Walk.start w) : Components deps ss st.sccs.reverse where
  nodup := by
    have := (List.nodup_append.mp ht.nodup).2.1
    exact (List.reverse_perm st.sccs).flatten.nodup_iff.mpr this
  nonempty l hl := ht.nonempty l (List.mem_reverse.mp hl)
  mem_flatten x := by
    have hstack : x ∉ st.stack := fun hx => by simpa using h.stack x hx
    have hmem : x ∈ st.sccs.reverse.flatten ↔ x ∈ st.sccs.flatten :=
      (List.reverse_perm st.sccs).flatten.mem_iff
    rw [hmem, ← hv.mem_order_iff, ← hv.inv.mem_left, ht.mem_left, or_iff_right hstack]
  mem_iff l hl := h.mem_iff l (List.mem_reverse.mp hl)
  ordered _ _ _ e _ hx _ hr := h.older.ordered e hx hr

theorem Sccs.Bad.not_components {ss : List ExprId} (h : Bad deps st w) :
    ¬ Components deps ss st.sccs.reverse := by
  intro hc
  obtain ⟨⟨l, hl, v, hv, r, hm, hr⟩, -⟩ := h
  exact hr ((hc.mem_iff l (List.mem_reverse.mpr hl) v hv r).mpr hm)

theorem components_iff_settled {ss : List ExprId}
    (hsim : Simulates deps [] Sccs.start Walk.start st w)
    (hv : Walk.VisitedAll deps ss Walk.start w) :
    Components deps ss st.sccs.reverse ↔ Walk.Settled deps w := by
  rcases hsim.good good_start with hg | hb
  · refine iff_of_true (hg.components hsim.tracks hv) fun x hx => ?_
    exact hg.escapes x (hv.inv.mem_left.mpr hx)
  · refine iff_of_false hb.not_components fun hs => ?_
    obtain ⟨-, v, hl, r, ha, hm, he⟩ := hb
    exact he (hs v (hv.inv.left_entered v hl) r ha hm)

/-- On a finite graph `construct_sccs` finds the components in topological order exactly
if every expression that is not the first of its component to be entered escapes. -/
theorem exists_sccsOf {nodes : List ExprId}
    (hc : ∀ s ∈ nodes, ∀ t ∈ deps s, t ∈ nodes) {exprs : List ExprId}
    (hs : ∀ s ∈ exprs, s ∈ nodes) :
    ∃ w out, Walk.visitAll deps (nodes.length + 1) exprs Walk.start = some w ∧
      (∀ n, nodes.length < n → sccsOf deps n exprs = some out) ∧
      (Components deps exprs out ↔ Walk.Settled deps w) := by
  have hlt := Nat.lt_succ_of_le (Walk.length_unentered_start nodes)
  obtain ⟨w, hw⟩ := Walk.exists_visitAll hc hs hlt
  obtain ⟨hv, st, hst, hsim⟩ := constructAll_simulates hw Walk.Inv.start tracks_start
  refine ⟨w, st.sccs.reverse, hw, fun n hn => ?_, components_iff_settled hsim hv⟩
  have hn' := constructAll_stable.le (Nat.succ_le_of_lt hn) hst
  exact Option.bind_eq_some_iff.mpr ⟨st, hn', rfl⟩

end L2.Bootstrap
