import L2.Graph.Forest
import L2.SelfHost.Initialize

/-!
# Where bindings may be used

A binding belongs to an expression, and is used below it.  The binding of a value is used
for the expression itself too, and the parameters of a continuation that is the target of a
jump also for the arguments of the jump.  `Usable` says this by what it excludes: whoever
is outside of a subtree with the owner of a binding does not use the binding, and the root
of the subtree only uses the one for its own value.
-/

namespace L2.SelfHost

open Scope (Binding)
open Graph

/-! ## Trees as forests -/

def Code.children : Code → List Code
  | .literal _ _ | .symbol _ _ => []
  | .storage _ _ arguments => arguments
  | .function _ _ _ e | .continuation _ _ _ e | .withExpr _ _ e | .constrain _ e => [e]
  | .invoke _ target arguments | .jump _ target arguments => target :: arguments
  | .ifExpr _ condition consequent alternate => [condition, consequent, alternate]

theorem Code.nodesOf_eq_flatMap (es : List Code) : nodesOf es = es.flatMap nodes := by
  induction es with
  | nil => rfl
  | cons e es ih =>
    show nodes e ++ nodesOf es = _
    rw [ih, List.flatMap_cons]

theorem Code.nodes_eq (n : Code) : n.nodes = n.children.flatMap nodes ++ [n] := by
  cases n <;> simp [nodes, children, nodesOf_eq_flatMap]

instance : Forest Code := ⟨Code.children, Code.nodes, Code.nodes_eq⟩

open Forest (mem_nodesOf)

/-- What is below an expression. -/
def Code.inside (n : Code) : List Code := Forest.nodesOf n.children

theorem Code.mem_nodes_iff {n v : Code} : v ∈ n.nodes ↔ v ∈ n.inside ∨ v = n :=
  Forest.mem_nodes_iff

theorem Code.inside_subset {n v : Code} (h : v ∈ n.inside) : v ∈ n.nodes :=
  Code.mem_nodes_iff.mpr (Or.inl h)

theorem Code.child_inside {n c : Code} (h : c ∈ n.children) : c ∈ n.inside :=
  mem_nodesOf.mpr ⟨c, h, Forest.mem_nodes_self c⟩

/-! ## Programs -/

def Code.arguments : Code → List Code
  | .storage _ _ arguments | .invoke _ _ arguments | .jump _ _ arguments => arguments
  | _ => []

/-- The continuation that is the target of a jump itself. -/
def Code.directTarget : Code → Option Code
  | .jump _ (.continuation m reference parameters e) _ =>
    some (.continuation m reference parameters e)
  | _ => none

/-- The expressions that symbols can stand for. -/
def Code.isConstruct : Code → Bool
  | .storage _ _ _ | .function _ _ _ _ | .continuation _ _ _ _ | .withExpr _ _ _ => true
  | _ => false

theorem Code.arguments_subset {n v : Code} (h : v ∈ Forest.nodesOf n.arguments) : v ∈ n.inside := by
  obtain ⟨a, ha, hv⟩ := mem_nodesOf.mp h
  apply mem_nodesOf.mpr
  refine ⟨a, ?_, hv⟩
  cases n <;> simp_all [arguments, children]

theorem Code.directTarget_mem {j c : Code} (h : j.directTarget = some c) : c ∈ j.children := by
  unfold directTarget at h
  split at h
  · cases h
    exact List.mem_cons_self
  · cases h

theorem Code.directTarget_isContinuation {j c : Code} (h : j.directTarget = some c) :
    c.isContinuation = true := by
  unfold directTarget at h
  split at h
  · cases h
    rfl
  · cases h

/-- The parameters of a construct are its own. -/
theorem Code.mem_parameters {w : Code} {b : BndgId} (h : b ∈ w.parameters) :
    ∃ binding, b = .named binding ∧ b.mode = .value ∧ b.expression = some w.id := by
  have key : ∀ kind names, b ∈ (Scope.parameterBindings kind w.id names).map BndgId.named →
      ∃ binding, b = .named binding ∧ b.mode = .value ∧ b.expression = some w.id := by
    intro kind names h
    obtain ⟨binding, hb, rfl⟩ := List.mem_map.mp h
    obtain ⟨i, hi, rfl⟩ := List.mem_mapIdx.mp hb
    exact ⟨_, rfl, rfl, rfl⟩
  cases w with
  | function _ _ _ _ | continuation _ _ _ _ | withExpr _ _ _ => exact key _ _ h
  | literal _ _ | symbol _ _ | storage _ _ _ | invoke _ _ _ | jump _ _ _ | ifExpr _ _ _ _
  | constrain _ _ => cases h

namespace Program

variable (p : Program)

def nodes : List Code := Forest.nodesOf p.exprs

/-- Whether the expression is a continuation that is jumped to where it stands. -/
def IsDirect (n : Code) : Prop := ∃ j ∈ p.nodes, j.directTarget = some n

/-- Where the parameters of `w` are used. -/
def Under (w v : Code) : Prop :=
  v ∈ w.inside ∨ ∃ j ∈ p.nodes, j.directTarget = some w ∧ v ∈ Forest.nodesOf j.arguments

/-- What the passes before leave: the expressions are objects of their own, a symbol has a
name and refers to a parameter of something around it, to a construct or to nothing that is
defined, and the analysis of escapes has found jumps where they are. -/
structure WellFormed : Prop where
  nodup : (p.nodes.map Code.id).Nodup
  linked : ∀ n b, Code.symbol n b ∈ p.nodes → (BndgId.named b).mode = .value →
    b.name ≠ none ∧ ∃ w ∈ p.nodes, .named b ∈ w.parameters ∧ p.Under w (.symbol n b)
  references : ∀ n b, Code.symbol n b ∈ p.nodes → (BndgId.named b).mode = .reference →
    (∃ name, b = .undefined name) ∨ ∃ w ∈ p.nodes, w.isConstruct = true ∧ w.reference = .named b
  direct : ∀ j ∈ p.nodes, ∀ c, j.directTarget = some c → p.shortCircuit j.id = some c
  shortCircuit : ∀ j ∈ p.nodes, ∀ w, p.shortCircuit j.id = some w →
    w ∈ p.nodes ∧ (p.Under w j ∨ j.directTarget = some w)
  jumps : ∀ w ∈ p.nodes, ∀ j ∈ p.jumps w.id, j ∈ w.inside ∨ j.directTarget = some w

/-- Whether `b` may be used for `v`. -/
def Usable (b : BndgId) (v : Code) : Prop :=
  b.mode = .value ∧ ∀ n ∈ p.nodes, ¬ p.IsDirect n →
    (∃ c ∈ n.nodes, b.expression = some c.id) →
    v ∈ n.nodes ∧ (v = n → b = .value n.id)

variable {p} {n v w : Code} {b : BndgId}

theorem mem_of_mem_nodes (hn : n ∈ p.nodes) (hv : v ∈ n.nodes) : v ∈ p.nodes :=
  Forest.nodes_subset_of_mem hn hv

theorem mem_of_inside (hn : n ∈ p.nodes) (hv : v ∈ n.inside) : v ∈ p.nodes :=
  mem_of_mem_nodes hn (Code.inside_subset hv)

namespace WellFormed

variable (hp : p.WellFormed)

include hp

theorem nodup_nodes : p.nodes.Nodup := hp.nodup.of_map _

theorem eq_of_id (hn : n ∈ p.nodes) (hv : v ∈ p.nodes) (h : n.id = v.id) : n = v :=
  List.inj_on_of_nodup_map hp.nodup hn hv h

theorem usable_value (hv : v ∈ p.nodes) : p.Usable (.value v.id) v := by
  refine ⟨rfl, ?_⟩
  rintro m hm _ ⟨c, hc, hcv⟩
  have hcv : v.id = c.id := by
    show v.id = c.id
    exact Option.some.inj hcv
  have hvc : v = c := hp.eq_of_id hv (mem_of_mem_nodes hm hc) hcv
  refine ⟨hvc ▸ hc, ?_⟩
  rintro rfl
  rfl

theorem usable_parameter (hw : w ∈ p.nodes) (hb : b.mode = .value)
    (he : b.expression = some w.id) (hv : p.Under w v) : p.Usable b v := by
  refine ⟨hb, ?_⟩
  rintro m hm hdirect ⟨c, hc, hcw⟩
  have hcw : w = c := by
    apply hp.eq_of_id hw (mem_of_mem_nodes hm hc)
    exact Option.some.inj (he.symm.trans hcw)
  subst hcw
  rcases hv with hv | ⟨j, hj, hjw, hv⟩
  · refine ⟨Forest.nodes_subset hc (Code.inside_subset hv), ?_⟩
    rintro rfl
    exact absurd hc (Forest.notMem_below hv)
  · have hjm : j ∈ m.nodes := by
      apply Forest.parent_mem hp.nodup_nodes hj hm (Code.directTarget_mem hjw) hc
      rintro rfl
      exact hdirect ⟨j, hj, hjw⟩
    refine ⟨Forest.nodes_subset hjm (Code.inside_subset (Code.arguments_subset hv)), ?_⟩
    rintro rfl
    exact absurd hjm (Forest.notMem_below (Code.arguments_subset hv))

/-- The parent of a node other than the root of a subtree is in the subtree. -/
theorem parent_mem (hw : w ∈ p.nodes) (hn : n ∈ p.nodes) (hc : v ∈ w.children)
    (hv : v ∈ n.nodes) (hne : v ≠ n) : w ∈ n.nodes :=
  Forest.parent_mem hp.nodup_nodes hw hn hc hv hne

/-- What a construct may use in the place of its parameters is usable wherever they are. -/
theorem usable_under (hw : w ∈ p.nodes) (hb : b ∈ w.parameters ∨ p.Usable b w)
    (hv : p.Under w v) : p.Usable b v := by
  rcases hb with hb | hb
  · obtain ⟨_, _, hmode, hb⟩ := Code.mem_parameters hb
    exact hp.usable_parameter hw hmode hb hv
  · refine ⟨hb.1, ?_⟩
    intro m hm hdirect hc
    have hwm := (hb.2 m hm hdirect hc).1
    rcases hv with hv | ⟨j, hj, hjw, hv⟩
    · refine ⟨Forest.nodes_subset hwm (Code.inside_subset hv), ?_⟩
      rintro rfl
      exact absurd hwm (Forest.notMem_below hv)
    · have hjm : j ∈ m.nodes := by
        apply hp.parent_mem hj hm (Code.directTarget_mem hjw) hwm
        rintro rfl
        exact hdirect ⟨j, hj, hjw⟩
      refine ⟨Forest.nodes_subset hjm (Code.inside_subset (Code.arguments_subset hv)), ?_⟩
      rintro rfl
      exact absurd hjm (Forest.notMem_below (Code.arguments_subset hv))

end WellFormed

theorem Usable.inside (h : p.Usable b n) (hv : v ∈ n.inside) : p.Usable b v := by
  refine ⟨h.1, ?_⟩
  intro m hm hdirect hc
  have hnm := (h.2 m hm hdirect hc).1
  refine ⟨Forest.nodes_subset hnm (Code.inside_subset hv), ?_⟩
  rintro rfl
  exact absurd hnm (Forest.notMem_below hv)

/-- What belongs to something in a subtree is used in the subtree only, and its root only
uses the binding for its value. -/
theorem Usable.mem (h : p.Usable b v) (hn : n ∈ p.nodes) (hdirect : ¬ p.IsDirect n)
    (hc : w ∈ n.nodes) (hb : b.expression = some w.id) : v ∈ n.nodes :=
  (h.2 n hn hdirect ⟨w, hc, hb⟩).1

theorem Usable.eq_value (h : p.Usable b n) (hn : n ∈ p.nodes) (hdirect : ¬ p.IsDirect n)
    (hc : w ∈ n.nodes) (hb : b.expression = some w.id) : b = .value n.id :=
  (h.2 n hn hdirect ⟨w, hc, hb⟩).2 rfl

theorem Under.nodes (h : p.Under w v) {u : Code} (hu : u ∈ v.nodes) : p.Under w u := by
  rcases h with h | ⟨j, hj, hjw, h⟩
  · exact Or.inl (Forest.nodes_subset_of_mem h hu)
  · exact Or.inr ⟨j, hj, hjw, Forest.nodes_subset_of_mem h hu⟩

end Program

end L2.SelfHost
