import L2.Graph.Components
import Mathlib.Logic.Function.Basic

/-!
# Depth-first walks

`Walk.visit` enters a vertex unless it was entered before, visits the vertices its
edges lead to in order, and leaves it.  The walk keeps what a depth-first search can
be said to know: the order of entry, the depth at which each vertex was entered, which
vertices have been left, and the edges in the order in which they were finished with.

A chain is a path whose edges were finished with in the opposite order to the one it
takes them in, so that what its first edge brought back could already depend on all of
the others.  `Escapes` is the property of a finished walk that lowlinks detect when a
lowlink is a depth.
-/

namespace Graph

open Relation Function

variable {α : Type}

variable {deps : α → List α}

/-! ## Chains -/

/-- Some edges of the list, newest first, lead from `x` to `y`, each of them older than
the one before it. -/
def Chain : List (α × α) → α → α → Prop
  | [], x, y => x = y
  | (s, t) :: es, x, y => Chain es x y ∨ (x = s ∧ Chain es t y)

theorem Chain.refl (es : List (α × α)) (x : α) : Chain es x x := by
  induction es with
  | nil => rfl
  | cons e es ih => exact Or.inl ih

theorem Chain.reaches {es : List (α × α)} (hes : ∀ s t, (s, t) ∈ es → t ∈ deps s) {x y : α}
    (h : Chain es x y) : Reaches deps x y := by
  induction es generalizing x with
  | nil => exact h ▸ .refl
  | cons e es ih =>
    have ih := fun x => @ih (fun s t he => hes s t (List.mem_cons_of_mem e he)) x
    rcases h with h | ⟨rfl, h⟩
    · exact ih x h
    · exact ReflTransGen.head (hes _ _ List.mem_cons_self) (ih _ h)

/-- Edges out of other vertices do not lengthen the chains from `x`. -/
theorem chain_append_iff {new es : List (α × α)} {x y : α} (h : ∀ e ∈ new, e.1 ≠ x) :
    Chain (new ++ es) x y ↔ Chain es x y := by
  induction new with
  | nil => rfl
  | cons e new ih =>
    have hx : x ≠ e.1 := (h e List.mem_cons_self).symm
    have ih := ih fun e' he' => h e' (List.mem_cons_of_mem e he')
    simp only [List.cons_append, Chain, hx, false_and, or_false, ih]

structure Walk (α : Type) where
  /-- Vertices entered, newest first. -/
  order : List α
  depth : α → Nat
  left : List α
  /-- Edges finished with, newest first. -/
  edges : List (α × α)

namespace Walk

def start : Walk α := { order := [], depth := fun _ => 0, left := [], edges := [] }

def leave (w : Walk α) (s : α) : Walk α := { w with left := s :: w.left }

def finishEdge (w : Walk α) (s t : α) : Walk α := { w with edges := (s, t) :: w.edges }

@[simp] theorem finishEdge_order (w : Walk α) (s t : α) :
    (w.finishEdge s t).order = w.order := rfl

@[simp] theorem finishEdge_left (w : Walk α) (s t : α) : (w.finishEdge s t).left = w.left := rfl

@[simp] theorem finishEdge_depth (w : Walk α) (s t : α) :
    (w.finishEdge s t).depth = w.depth := rfl

@[simp] theorem leave_order (w : Walk α) (s : α) : (w.leave s).order = w.order := rfl

@[simp] theorem leave_left (w : Walk α) (s : α) : (w.leave s).left = s :: w.left := rfl

@[simp] theorem leave_depth (w : Walk α) (s : α) : (w.leave s).depth = w.depth := rfl

@[simp] theorem leave_edges (w : Walk α) (s : α) : (w.leave s).edges = w.edges := rfl

section Visit

variable [DecidableEq α]

def enter (w : Walk α) (s : α) (d : Nat) : Walk α :=
  { w with order := s :: w.order, depth := update w.depth s d }

/-- The edges out of `s`, with `visit` for the recursive call. -/
def follow (visit : α → Walk α → Option (Walk α)) (s : α) : List α → Walk α → Option (Walk α)
  | [], w => some w
  | t :: ts, w => do follow visit s ts ((← visit t w).finishEdge s t)

def visit (deps : α → List α) : Nat → α → Nat → Walk α → Option (Walk α)
  | 0, _, _, _ => none
  | n + 1, s, d, w =>
    if s ∈ w.order then some w
    else do return (← follow (fun t => visit deps n t (d + 1)) s (deps s) (w.enter s d)).leave s

/-- The walk from every root in turn, each entered at depth 1. -/
def visitAll (deps : α → List α) (n : Nat) : List α → Walk α → Option (Walk α)
  | [], w => some w
  | s :: ss, w => do visitAll deps n ss (← visit deps n s 1 w)

end Visit

/-- `v` was entered after `r`. -/
def EnteredAfter (w : Walk α) (v r : α) : Prop := ∃ rest, v :: rest <:+ w.order ∧ r ∈ rest

/-- A chain takes `v` to a vertex of its own component that was entered at a smaller
depth. -/
def Escapes (deps : α → List α) (w : Walk α) (v : α) : Prop :=
  ∃ y, Chain w.edges v y ∧ Reaches deps y v ∧ w.depth y < w.depth v

/-- What holds of a walk whose current path is `path`, deepest vertex first. -/
structure Inv (deps : α → List α) (path : List α) (w : Walk α) : Prop where
  nodup : w.order.Nodup
  mem_path : ∀ x, x ∈ path ↔ x ∈ w.order ∧ x ∉ w.left
  left_entered : ∀ x ∈ w.left, x ∈ w.order
  left_closed : ∀ x ∈ w.left, ∀ t ∈ deps x, t ∈ w.order
  edges_from : ∀ s t, (s, t) ∈ w.edges → s ∈ w.order
  edges_entered : ∀ s t, (s, t) ∈ w.edges → t ∈ w.order
  edges_deps : ∀ s t, (s, t) ∈ w.edges → t ∈ deps s
  path_reaches : path.Pairwise fun s r => Reaches deps r s
  path_depth : path.Pairwise fun s r => w.depth r < w.depth s

/-- `w'` continues `w` without touching what was settled when a vertex was left. -/
structure Later (w w' : Walk α) : Prop where
  order : w.order <:+ w'.order
  left : ∀ x ∈ w.left, x ∈ w'.left
  depth : ∀ x ∈ w.order, w'.depth x = w.depth x
  edges : ∃ new, w'.edges = new ++ w.edges ∧ ∀ e ∈ new, e.1 ∉ w.left

variable {w w' : Walk α} {path : List α} {s t : α}

theorem Later.refl (w : Walk α) : Later w w where
  order := List.suffix_refl _
  left _ h := h
  depth _ _ := rfl
  edges := ⟨[], rfl, by simp⟩

theorem Later.trans {w₁ w₂ w₃ : Walk α} (h : Later w₁ w₂) (h' : Later w₂ w₃) : Later w₁ w₃ where
  order := h.order.trans h'.order
  left x hx := h'.left x (h.left x hx)
  depth x hx := (h'.depth x (h.order.subset hx)).trans (h.depth x hx)
  edges := by
    obtain ⟨new, e, hnew⟩ := h.edges
    obtain ⟨new', e', hnew'⟩ := h'.edges
    refine ⟨new' ++ new, by rw [e', e, List.append_assoc], fun x hx => ?_⟩
    rcases List.mem_append.mp hx with hx | hx
    · exact fun hl => hnew' x hx (h.left _ hl)
    · exact hnew x hx

theorem Inv.chain_entered (h : Inv deps path w) {x y : α} (hx : x ∈ w.order)
    (hc : Chain w.edges x y) : y ∈ w.order := by
  have entered : ∀ es, (∀ s t, (s, t) ∈ es → t ∈ w.order) → ∀ x, x ∈ w.order →
      Chain es x y → y ∈ w.order := by
    intro es hes
    induction es with
    | nil => exact fun x hx hc => hc ▸ hx
    | cons e es ih =>
      have ih := ih fun s t he => hes s t (List.mem_cons_of_mem e he)
      rintro x hx (hc | ⟨rfl, hc⟩)
      · exact ih x hx hc
      · exact ih _ (hes _ _ List.mem_cons_self) hc
  exact entered w.edges h.edges_entered x hx hc

theorem Inv.notMem_left_of_path (h : Inv deps (s :: path) w) : s ∉ w.left :=
  ((h.mem_path s).mp List.mem_cons_self).2

theorem Inv.mem_order_of_path (h : Inv deps (s :: path) w) : s ∈ w.order :=
  ((h.mem_path s).mp List.mem_cons_self).1

/-! ## The three moves -/

theorem later_leave (w : Walk α) (s : α) : Later w (w.leave s) where
  order := List.suffix_refl _
  left _ h := List.mem_cons_of_mem s h
  depth _ _ := rfl
  edges := ⟨[], rfl, by simp⟩

theorem later_finishEdge (hs : s ∉ w.left) : Later w (w.finishEdge s t) where
  order := List.suffix_refl _
  left _ h := h
  depth _ _ := rfl
  edges := ⟨[(s, t)], rfl, by simpa using hs⟩

theorem Inv.leave (h : Inv deps (s :: path) w) (hs : ∀ t ∈ deps s, t ∈ w.order) :
    Inv deps path (w.leave s) where
  nodup := h.nodup
  mem_path x := by
    have hx := h.mem_path x
    have hsp : s ∉ path := fun hsp =>
      absurd ((List.pairwise_cons.mp h.path_depth).1 s hsp) (Nat.lt_irrefl _)
    have : x = s → x ∉ path := fun e => e ▸ hsp
    simp only [List.mem_cons] at hx
    simp only [Walk.leave, List.mem_cons, not_or]
    tauto
  left_entered x hx := by
    rcases List.mem_cons.mp hx with rfl | hx
    · exact h.mem_order_of_path
    · exact h.left_entered x hx
  left_closed x hx t ht := by
    rcases List.mem_cons.mp hx with rfl | hx
    · exact hs t ht
    · exact h.left_closed x hx t ht
  edges_from := h.edges_from
  edges_entered := h.edges_entered
  edges_deps := h.edges_deps
  path_reaches := (List.pairwise_cons.mp h.path_reaches).2
  path_depth := (List.pairwise_cons.mp h.path_depth).2

theorem Inv.finishEdge (h : Inv deps path w) (hs : s ∈ w.order) (ht : t ∈ w.order)
    (he : t ∈ deps s) : Inv deps path (w.finishEdge s t) :=
  { h with
    edges_from := fun x y hxy => by
      rcases List.mem_cons.mp hxy with e | hxy
      · exact (Prod.mk.inj e).1 ▸ hs
      · exact h.edges_from x y hxy
    edges_entered := fun x y hxy => by
      rcases List.mem_cons.mp hxy with e | hxy
      · exact (Prod.mk.inj e).2 ▸ ht
      · exact h.edges_entered x y hxy
    edges_deps := fun x y hxy => by
      rcases List.mem_cons.mp hxy with e | hxy
      · obtain ⟨rfl, rfl⟩ := Prod.mk.inj e
        exact he
      · exact h.edges_deps x y hxy }

section Visits

variable [DecidableEq α]

theorem enter_depth_self {d : Nat} : (w.enter s d).depth s = d := by
  simp [enter]

theorem later_enter {d : Nat} (hs : s ∉ w.order) : Later w (w.enter s d) where
  order := List.suffix_cons s w.order
  left _ h := h
  depth _ hx := update_of_ne (ne_of_mem_of_not_mem hx hs) _ _
  edges := ⟨[], rfl, by simp⟩

theorem Inv.enter (h : Inv deps path w) {d : Nat} (hs : s ∉ w.order)
    (hr : ∀ r ∈ path, Reaches deps r s) (hd : ∀ r ∈ path, w.depth r < d) :
    Inv deps (s :: path) (w.enter s d) where
  nodup := List.nodup_cons.mpr ⟨hs, h.nodup⟩
  mem_path x := by
    have : x = s → x ∉ w.left := fun e hx => hs (h.left_entered s (e ▸ hx))
    simp only [Walk.enter, List.mem_cons, h.mem_path]
    tauto
  left_entered x hx := List.mem_cons_of_mem s (h.left_entered x hx)
  left_closed x hx t ht := List.mem_cons_of_mem s (h.left_closed x hx t ht)
  edges_from x y hxy := List.mem_cons_of_mem s (h.edges_from x y hxy)
  edges_entered x y hxy := List.mem_cons_of_mem s (h.edges_entered x y hxy)
  edges_deps := h.edges_deps
  path_reaches := List.pairwise_cons.mpr ⟨hr, h.path_reaches⟩
  path_depth := by
    have hne : ∀ r ∈ path, r ≠ s := fun r hrp e => hs (e ▸ ((h.mem_path r).mp hrp).1)
    refine List.pairwise_cons.mpr ⟨fun r hrp => ?_, h.path_depth.imp_of_mem fun ha hb hab => ?_⟩
    · simpa [Walk.enter, update_of_ne (hne r hrp)] using hd r hrp
    · simpa [Walk.enter, update_of_ne (hne _ ha), update_of_ne (hne _ hb)] using hab

/-! ## What a visit does -/

/-- A visit of `s` at depth `d`: everything it enters it also leaves, at depth `d` or
more, and `s` reaches all of it. -/
structure Visited (deps : α → List α) (path : List α) (s : α) (d : Nat) (w w' : Walk α) :
    Prop where
  inv : Inv deps path w'
  later : Later w w'
  entered : s ∈ w'.order
  fresh : ∀ x ∈ w'.order, x ∉ w.order → d ≤ w'.depth x ∧ Reaches deps s x ∧ x ∈ w'.left

/-- The loop over the edges of `s`, which is on top of the path, has gone through `ts`. -/
structure Followed (deps : α → List α) (path : List α) (s : α) (d : Nat) (ts : List α)
    (w w' : Walk α) : Prop where
  inv : Inv deps (s :: path) w'
  later : Later w w'
  entered : ∀ t ∈ ts, t ∈ w'.order
  fresh : ∀ x ∈ w'.order, x ∉ w.order → d < w'.depth x ∧ Reaches deps s x ∧ x ∈ w'.left

omit [DecidableEq α] in
theorem Followed.nil {d : Nat} (h : Inv deps (s :: path) w) :
    Followed deps path s d [] w w :=
  ⟨h, Later.refl w, fun _ ht => absurd ht List.not_mem_nil, fun _ hx hn => absurd hx hn⟩

omit [DecidableEq α] in
theorem Followed.trans {d : Nat} {ts us : List α} {w₁ w₂ w₃ : Walk α}
    (h : Followed deps path s d ts w₁ w₂) (h' : Followed deps path s d us w₂ w₃) :
    Followed deps path s d (ts ++ us) w₁ w₃ where
  inv := h'.inv
  later := h.later.trans h'.later
  entered t ht := (List.mem_append.mp ht).elim
    (fun ht => h'.later.order.subset (h.entered t ht)) (h'.entered t)
  fresh x hx hn := by
    by_cases hx₂ : x ∈ w₂.order
    · obtain ⟨hd, hr, hl⟩ := h.fresh x hx₂ hn
      exact ⟨by rwa [h'.later.depth x hx₂], hr, h'.later.left x hl⟩
    · exact h'.fresh x hx hx₂

omit [DecidableEq α] in
theorem Visited.followed {d : Nat} (hv : Visited deps (s :: path) t (d + 1) w w')
    (he : t ∈ deps s) : Followed deps path s d [t] w (w'.finishEdge s t) where
  inv := hv.inv.finishEdge hv.inv.mem_order_of_path hv.entered he
  later := by
    have hl := hv.later
    refine hl.trans ?_
    exact later_finishEdge hv.inv.notMem_left_of_path
  entered _ hu := List.mem_singleton.mp hu ▸ hv.entered
  fresh x hx hn := by
    obtain ⟨hd, hr, hl⟩ := hv.fresh x hx hn
    exact ⟨hd, (Reaches.edge he).trans hr, hl⟩

omit [DecidableEq α] in
/-- The path and depth conditions that a visit of `t` needs, when `s` is on top. -/
theorem Inv.below (h : Inv deps (s :: path) w) {d : Nat} (hd : w.depth s = d) (he : t ∈ deps s) :
    (∀ r ∈ s :: path, Reaches deps r t) ∧ ∀ r ∈ s :: path, w.depth r < d + 1 := by
  constructor
  · intro r hr
    rcases List.mem_cons.mp hr with rfl | hr
    · exact Reaches.edge he
    · exact ((List.pairwise_cons.mp h.path_reaches).1 r hr).tail he
  · intro r hr
    rcases List.mem_cons.mp hr with rfl | hr
    · omega
    · have := (List.pairwise_cons.mp h.path_depth).1 r hr
      omega

/-- The visit of `s` from the loop over its edges. -/
theorem Followed.visited {d : Nat} (hs : s ∉ w.order)
    (hf : Followed deps path s d (deps s) (w.enter s d) w') :
    Visited deps path s d w (w'.leave s) where
  inv := hf.inv.leave hf.entered
  later := ((later_enter hs).trans hf.later).trans (later_leave w' s)
  entered := hf.later.order.subset List.mem_cons_self
  fresh x hx hn := by
    by_cases hxs : x = s
    · refine ⟨?_, hxs ▸ .refl, hxs ▸ List.mem_cons_self⟩
      have : w'.depth s = d := (hf.later.depth s List.mem_cons_self).trans enter_depth_self
      exact Nat.le_of_eq (by rw [hxs]; exact this.symm)
    · obtain ⟨hd', hr', hl⟩ := hf.fresh x hx (by simp [enter, hxs, hn])
      exact ⟨Nat.le_of_lt hd', hr', List.mem_cons_of_mem s hl⟩

/-! ## Every visit ends -/

/-- The vertices of a finite graph that are still to be entered. -/
def unentered (nodes : List α) (w : Walk α) : List α := nodes.filter (· ∉ w.order)

theorem length_unentered_le {nodes : List α} (h : w.order ⊆ w'.order) :
    (unentered nodes w').length ≤ (unentered nodes w).length := by
  refine List.Sublist.length_le (List.monotone_filter_right nodes fun x hx => ?_)
  simp only [decide_eq_true_eq] at hx ⊢
  exact fun hw => hx (h hw)

theorem length_unentered_enter {nodes : List α} {d : Nat} (hs : s ∈ nodes) (hn : s ∉ w.order) :
    (unentered nodes (w.enter s d)).length < (unentered nodes w).length := by
  have hmem : s ∈ unentered nodes w := by simpa [unentered] using ⟨hs, hn⟩
  have hsub : unentered nodes (w.enter s d) = (unentered nodes w).filter (· ≠ s) := by
    simp only [unentered, enter, List.filter_filter]
    refine List.filter_congr fun x _ => ?_
    simp
  rw [hsub]
  exact List.length_filter_lt_length_iff_exists.mpr ⟨s, hmem, by simp⟩

/-- A bound above the number of vertices still to be entered is enough. -/
theorem exists_visit {nodes : List α} (hc : ∀ s ∈ nodes, ∀ t ∈ deps s, t ∈ nodes) (n : Nat) :
    ∀ s ∈ nodes, ∀ d w, (unentered nodes w).length < n →
      ∃ w', visit deps n s d w = some w' ∧ w.order ⊆ w'.order := by
  induction n with
  | zero => exact fun _ _ _ w h => absurd h (Nat.not_lt_zero _)
  | succ n ih =>
    intro s hs d w hn
    by_cases hw : s ∈ w.order
    · exact ⟨w, by simp [visit, hw], List.Subset.refl _⟩
    have hsmall : (unentered nodes (w.enter s d)).length < n := by
      have := length_unentered_enter (d := d) hs hw
      omega
    have loop : ∀ ts : List α, (∀ t ∈ ts, t ∈ nodes) → ∀ w₁ : Walk α,
        (unentered nodes w₁).length < n →
        ∃ w₂, follow (fun t => visit deps n t (d + 1)) s ts w₁ = some w₂ ∧
          w₁.order ⊆ w₂.order := by
      intro ts
      induction ts with
      | nil => exact fun _ w₁ _ => ⟨w₁, rfl, List.Subset.refl _⟩
      | cons t ts iht =>
        intro hts w₁ h₁
        obtain ⟨w₂, e₂, sub₂⟩ := ih t (hts t List.mem_cons_self) (d + 1) w₁ h₁
        have h₂ : (unentered nodes w₂).length ≤ (unentered nodes w₁).length :=
          length_unentered_le sub₂
        obtain ⟨w₃, e₃, sub₃⟩ := iht (fun u hu => hts u (List.mem_cons_of_mem t hu))
          (w₂.finishEdge s t) (Nat.lt_of_le_of_lt h₂ h₁)
        exact ⟨w₃, by simp [follow, e₂, e₃], List.Subset.trans sub₂ sub₃⟩
    obtain ⟨w', e, sub⟩ := loop (deps s) (hc s hs) (w.enter s d) hsmall
    refine ⟨w'.leave s, by simp [visit, hw, e], ?_⟩
    exact List.Subset.trans (List.subset_cons_self s w.order) sub

theorem length_unentered_start (nodes : List α) :
    (unentered nodes (start : Walk α)).length ≤ nodes.length :=
  List.length_filter_le _ _

theorem exists_visitAll {nodes : List α} (hc : ∀ s ∈ nodes, ∀ t ∈ deps s, t ∈ nodes) {n : Nat}
    {ss : List α} (hs : ∀ s ∈ ss, s ∈ nodes) (hn : (unentered nodes w).length < n) :
    ∃ w', visitAll deps n ss w = some w' := by
  induction ss generalizing w with
  | nil => exact ⟨w, rfl⟩
  | cons s ss ih =>
    obtain ⟨w₁, e₁, sub⟩ := exists_visit hc n s (hs s List.mem_cons_self) 1 w hn
    have hle : (unentered nodes w₁).length ≤ (unentered nodes w).length :=
      length_unentered_le sub
    obtain ⟨w', e'⟩ := ih (fun t ht => hs t (List.mem_cons_of_mem s ht))
      (Nat.lt_of_le_of_lt hle hn)
    exact ⟨w', by simp [visitAll, e₁, e']⟩

end Visits

/-! ## From every root -/

/-- The walk from the roots `ss`, with nothing left on the path. -/
structure VisitedAll (deps : α → List α) (ss : List α) (w w' : Walk α) : Prop where
  inv : Inv deps [] w'
  later : Later w w'
  entered : ∀ s ∈ ss, s ∈ w'.order
  fresh : ∀ x ∈ w'.order, x ∉ w.order → ∃ s ∈ ss, Reaches deps s x

theorem VisitedAll.nil (h : Inv deps [] w) : VisitedAll deps [] w w :=
  ⟨h, Later.refl w, fun _ hs => absurd hs List.not_mem_nil, fun _ hx hn => absurd hx hn⟩

theorem VisitedAll.cons {d : Nat} {ss : List α} {w₁ w₂ w₃ : Walk α}
    (h : Visited deps [] s d w₁ w₂) (h' : VisitedAll deps ss w₂ w₃) :
    VisitedAll deps (s :: ss) w₁ w₃ where
  inv := h'.inv
  later := h.later.trans h'.later
  entered x hx := by
    rcases List.mem_cons.mp hx with rfl | hx
    · exact h'.later.order.subset h.entered
    · exact h'.entered x hx
  fresh x hx hn := by
    by_cases hx₂ : x ∈ w₂.order
    · exact ⟨s, List.mem_cons_self, (h.fresh x hx₂ hn).2.1⟩
    · obtain ⟨r, hr, hrx⟩ := h'.fresh x hx hx₂
      exact ⟨r, List.mem_cons_of_mem s hr, hrx⟩

theorem Inv.mem_left (h : Inv deps [] w) {x : α} : x ∈ w.left ↔ x ∈ w.order := by
  refine ⟨h.left_entered x, fun hx => ?_⟩
  by_contra hn
  exact absurd ((h.mem_path x).mpr ⟨hx, hn⟩) List.not_mem_nil

theorem Inv.start : Inv deps [] start := by
  constructor <;> simp [Walk.start]

/-- A whole walk enters what the roots reach. -/
theorem VisitedAll.mem_order_iff {ss : List α} (h : VisitedAll deps ss start w) {x : α} :
    x ∈ w.order ↔ ∃ s ∈ ss, Reaches deps s x := by
  constructor
  · exact fun hx => h.fresh x hx List.not_mem_nil
  · rintro ⟨s, hs, hr⟩
    induction hr with
    | refl => exact h.entered s hs
    | tail _ ht ih => exact h.inv.left_closed _ (h.inv.mem_left.mpr ih) _ ht

/-- Every vertex that is not the first of its component to be entered escapes. -/
def Settled (deps : α → List α) (w : Walk α) : Prop :=
  ∀ v ∈ w.order, ∀ r, EnteredAfter w v r → Mutual deps v r → Escapes deps w v

theorem EnteredAfter.ne (h : w.order.Nodup) {v r : α} (hr : EnteredAfter w v r) : v ≠ r := by
  obtain ⟨rest, hsuf, hm⟩ := hr
  exact fun e => (List.nodup_cons.mp (h.sublist hsuf.sublist)).1 (e ▸ hm)

/-- Without cycles there is nothing to escape from. -/
theorem settled_of_acyclic (h : w.order.Nodup) (ha : ∀ v r, Mutual deps v r → v = r) :
    Settled deps w :=
  fun v _ r hr hm => absurd (ha v r hm) (hr.ne h)

/-! ## Escapes are settled when a vertex is left -/

theorem suffix_cons_unique {l a b : List α} {v : α} (hl : l.Nodup) (ha : v :: a <:+ l)
    (hb : v :: b <:+ l) : a = b := by
  have tail_eq : ∀ {a b : List α}, (v :: b).Nodup → v :: a <:+ v :: b → a = b := by
    intro a b hn h
    rcases List.suffix_cons_iff.mp h with e | h
    · exact (List.cons.inj e).2
    · exact absurd (h.subset List.mem_cons_self) (List.nodup_cons.mp hn).1
  rcases List.suffix_or_suffix_of_suffix ha hb with h | h
  · exact tail_eq (hl.sublist hb.sublist) h
  · exact (tail_eq (hl.sublist ha.sublist) h).symm

theorem Later.enteredAfter_iff (h : Later w w') (hn : w'.order.Nodup) {v r : α}
    (hv : v ∈ w.order) : EnteredAfter w' v r ↔ EnteredAfter w v r := by
  obtain ⟨pre, rest, hw⟩ := List.append_of_mem hv
  have hsuf : v :: rest <:+ w.order := ⟨pre, hw.symm⟩
  constructor
  · rintro ⟨rest', hsuf', hr⟩
    rw [suffix_cons_unique hn hsuf' (hsuf.trans h.order)] at hr
    exact ⟨rest, hsuf, hr⟩
  · rintro ⟨rest', hsuf', hr⟩
    exact ⟨rest', hsuf'.trans h.order, hr⟩

theorem Later.chain_iff (h : Later w w') {v y : α} (hv : v ∈ w.left) :
    Chain w'.edges v y ↔ Chain w.edges v y := by
  obtain ⟨new, e, hnew⟩ := h.edges
  rw [e]
  exact chain_append_iff fun e he hev => hnew e he (hev ▸ hv)

theorem Later.escapes_iff (h : Later w w') (hi : Inv deps path w) {v : α} (hv : v ∈ w.left) :
    Escapes deps w' v ↔ Escapes deps w v := by
  have hvo := hi.left_entered v hv
  refine exists_congr fun y => ?_
  rw [h.chain_iff hv, h.depth v hvo]
  exact and_congr_right fun hc => by rw [h.depth y (hi.chain_entered hvo hc)]

end Walk

end Graph
