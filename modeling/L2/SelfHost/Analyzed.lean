import L2.SelfHost.EscapeAnalysis
import L2.SelfHost.Regions

/-!
# Analyzed programs

A program with the fields that `escape-analysis` sets.  If its expressions are objects of
their own and its symbols are linked to what is around them, it is well formed
(`WellScoped.wellFormed`): each jump to a continuation where it stands is short-circuited to it,
and every other jump that is short-circuited is inside of its target.
-/

namespace L2.SelfHost

open Scope (Occurrence ExprId occurrences programOccurrences occurrences_eq)
open Bootstrap (directTarget targetOf)
open Graph
open Forest (mem_nodesOf)

mutual

/-- The expression as `escape-analysis` sees it. -/
def Code.source : Code → Scope.Expr
  | .literal _ value => .literal value
  | .symbol _ binding => .linked binding
  | .storage n reference arguments => .storage n reference (sourcesOf arguments)
  | .function n reference parameters e => .function n reference parameters e.source
  | .continuation n reference parameters e => .continuation n reference parameters e.source
  | .withExpr n reference e => .withExpr n reference e.source
  | .invoke _ target arguments => .invoke target.source (sourcesOf arguments)
  | .jump n target arguments => .jump n target.source (sourcesOf arguments)
  | .ifExpr _ condition consequent alternate =>
    .ifExpr condition.source consequent.source alternate.source
  | .constrain _ e => .constrain e.source

def Code.sourcesOf : List Code → List Scope.Expr
  | [] => []
  | e :: es => e.source :: sourcesOf es

end

/-- The program of linked expressions, with what `escape-analysis` finds about them. -/
def analyzed (exprs : List Code) : Program :=
  let marks := escapeProgram (Code.sourcesOf exprs)
  let find (n : NodeId) : Option Code := (Code.nodesOf exprs).find? (·.id = n)
  { exprs
    escapes n := n ∈ marks.escapes
    jumps n := (marks.jumpsOf n).filterMap fun jump => find jump.1
    shortCircuit n := (marks.shortCircuit.find? (·.1 = n)).bind fun target => find target.2 }

/-! ## The nodes of a program and what the analysis visits -/

theorem Code.sourcesOf_eq (es : List Code) : sourcesOf es = es.map source := by
  induction es with
  | nil => rfl
  | cons e es ih =>
    show e.source :: sourcesOf es = _
    rw [ih, List.map_cons]

theorem children_source (n : Code) (path : Scope.Path) :
    (n.source.children path).map Occurrence.expr = n.children.map Code.source := by
  cases n <;> simp [Code.source, Code.children, Scope.Expr.children, Code.sourcesOf_eq,
    Occurrence.value]

theorem exists_occurrence_iff {n : Code} {path : Scope.Path} {jumpedBy : Option ExprId}
    {x : Scope.Expr} : (∃ o ∈ occurrences path jumpedBy n.source, o.expr = x) ↔
      ∃ v ∈ n.nodes, v.source = x := by
  induction n using Forest.induction generalizing path jumpedBy with
  | step n ih =>
    rw [occurrences_eq]
    constructor
    · rintro ⟨o, ho, rfl⟩
      rcases List.mem_cons.mp ho with rfl | ho
      · exact ⟨n, Forest.mem_nodes_self n, rfl⟩
      · obtain ⟨c, hc, ho⟩ := List.mem_flatMap.mp ho
        have hchild : c.expr ∈ n.children.map Code.source := by
          rw [← children_source n path]
          exact List.mem_map_of_mem hc
        obtain ⟨d, hd, hdc⟩ := List.mem_map.mp hchild
        rw [← hdc] at ho
        obtain ⟨v, hv, hvo⟩ := (ih d hd).mp ⟨o, ho, rfl⟩
        exact ⟨v, Forest.mem_nodes_of_child hd hv, hvo⟩
    · rintro ⟨v, hv, rfl⟩
      rcases Code.mem_nodes_iff.mp hv with hv | rfl
      · obtain ⟨d, hd, hvd⟩ := mem_nodesOf.mp hv
        have hchild : d.source ∈ (n.source.children path).map Occurrence.expr := by
          rw [children_source n path]
          exact List.mem_map_of_mem hd
        obtain ⟨c, hc, hcd⟩ := List.mem_map.mp hchild
        obtain ⟨o, ho, hov⟩ := (ih d hd).mpr ⟨v, hvd, rfl⟩
        refine ⟨o, List.mem_cons_of_mem _ (List.mem_flatMap.mpr ⟨c, hc, ?_⟩), hov⟩
        rw [hcd]
        exact ho
      · exact ⟨_, List.mem_cons_self, rfl⟩

variable {exprs : List Code}

theorem exists_programOccurrence_iff {x : Scope.Expr} :
    (∃ o ∈ programOccurrences (Code.sourcesOf exprs), o.expr = x) ↔
      ∃ v ∈ Forest.nodesOf exprs, v.source = x := by
  unfold programOccurrences
  rw [Scope.argumentOccurrences_eq_flatMap, Code.sourcesOf_eq]
  constructor
  · rintro ⟨o, ho, rfl⟩
    obtain ⟨c, hc, ho⟩ := List.mem_flatMap.mp ho
    obtain ⟨e, he, rfl⟩ := List.mem_map.mp hc
    obtain ⟨d, hd, rfl⟩ := List.mem_map.mp he
    obtain ⟨v, hv, hvo⟩ := exists_occurrence_iff.mp ⟨o, ho, rfl⟩
    exact ⟨v, mem_nodesOf.mpr ⟨d, hd, hv⟩, hvo⟩
  · rintro ⟨v, hv, rfl⟩
    obtain ⟨d, hd, hv⟩ := mem_nodesOf.mp hv
    obtain ⟨o, ho, hov⟩ := exists_occurrence_iff.mpr ⟨v, hv, rfl⟩
    exact ⟨o, List.mem_flatMap.mpr ⟨.value [] d.source,
      List.mem_map_of_mem (List.mem_map_of_mem hd), ho⟩, hov⟩

theorem targetOf_eq_some {b : Scope.Binding} {id : ExprId} (h : targetOf b = some id) :
    ∃ name type, b = .reference name type id ∧ (type = .continuation ∨ type = .withExpr) := by
  unfold targetOf at h
  split at h
  · cases h
    exact ⟨_, _, rfl, .inl rfl⟩
  · cases h
    exact ⟨_, _, rfl, .inr rfl⟩
  · cases h

/-- What is short-circuited, by the jumps of the program. -/
theorem mem_shortCircuit_iff {jump target : ExprId} :
    (jump, target) ∈ (escapeProgram (Code.sourcesOf exprs)).shortCircuit ↔
      ∃ reference arguments, .jump jump reference arguments ∈ Forest.nodesOf exprs ∧
        directTarget reference.source = some target := by
  have hpaired := paired_escapeProgram (Code.sourcesOf exprs)
  rw [hpaired, List.mem_map]
  constructor
  · rintro ⟨⟨t, j, arguments⟩, hmem, heq⟩
    cases heq
    obtain ⟨o, ho, reference, hexpr, htarget⟩ := mem_jumps_escapeProgram.mp hmem
    obtain ⟨v, hv, hvo⟩ := exists_programOccurrence_iff.mp ⟨o, ho, rfl⟩
    rw [hexpr] at hvo
    cases v with
    | jump n r args =>
      cases hvo
      exact ⟨r, args, hv, htarget⟩
    | _ => cases hvo
  · rintro ⟨reference, arguments, hmem, htarget⟩
    obtain ⟨o, ho, hexpr⟩ := exists_programOccurrence_iff.mpr ⟨_, hmem, rfl⟩
    exact ⟨(target, jump, Code.sourcesOf arguments),
      mem_jumps_escapeProgram.mpr ⟨o, ho, reference.source, hexpr, htarget⟩, rfl⟩

/-! ## Scopes -/

/-- What a jump can be short-circuited to. -/
def Code.isTarget : Code → Bool
  | .continuation _ _ _ _ | .withExpr _ _ _ => true
  | _ => false

/-- What linking leaves: the expressions are objects of their own, a symbol has a name and refers to
a parameter of something around it, to a construct or to nothing that is defined, and the
continuations and with expressions that it refers to are around it. -/
structure WellScoped (exprs : List Code) : Prop where
  nodup : ((Forest.nodesOf exprs).map Code.id).Nodup
  linked : ∀ n b, Code.symbol n b ∈ Forest.nodesOf exprs → (BndgId.named b).mode = .value →
    b.name ≠ none ∧
      ∃ w ∈ Forest.nodesOf exprs, .named b ∈ w.parameters ∧ .symbol n b ∈ w.inside
  references : ∀ n b, Code.symbol n b ∈ Forest.nodesOf exprs →
    (BndgId.named b).mode = .reference →
    (∃ name, b = .undefined name) ∨
      ∃ w ∈ Forest.nodesOf exprs, w.isConstruct = true ∧ w.reference = .named b ∧
        (w.isTarget = true → .symbol n b ∈ w.inside)

namespace WellScoped

variable (h : WellScoped exprs) {v w j c : Code}

include h

theorem eq_of_id (hv : v ∈ Forest.nodesOf exprs) (hw : w ∈ Forest.nodesOf exprs)
    (hid : v.id = w.id) : v = w := List.inj_on_of_nodup_map h.nodup hv hw hid

theorem find_node_iff {n : NodeId} :
    (Code.nodesOf exprs).find? (·.id = n) = some w ↔ w ∈ Forest.nodesOf exprs ∧ w.id = n := by
  rw [show Code.nodesOf exprs = Forest.nodesOf exprs from Code.nodesOf_eq_flatMap exprs]
  constructor
  · intro hfind
    exact ⟨List.mem_of_find?_eq_some hfind,
      of_decide_eq_true (List.find?_some (p := fun v : Code => decide (v.id = n)) hfind)⟩
  · rintro ⟨hw, rfl⟩
    cases hfind : (Forest.nodesOf exprs).find? (·.id = w.id) with
    | none => exact absurd (decide_eq_true rfl) (List.find?_eq_none.mp hfind w hw)
    | some v =>
      have hid : v.id = w.id :=
        of_decide_eq_true (List.find?_some (p := fun v : Code => decide (v.id = w.id)) hfind)
      rw [h.eq_of_id (List.mem_of_find?_eq_some hfind) hw hid]

/-- A jump is short-circuited to the node that its reference is known to be. -/
theorem shortCircuit_iff {n : NodeId} : (analyzed exprs).shortCircuit n = some w ↔
    w ∈ Forest.nodesOf exprs ∧ ∃ reference arguments,
      .jump n reference arguments ∈ Forest.nodesOf exprs ∧
        directTarget reference.source = some w.id := by
  show (List.find? _ _).bind _ = some w ↔ _
  rw [Option.bind_eq_some_iff]
  constructor
  · rintro ⟨⟨jump, target⟩, hfind, hnode⟩
    obtain ⟨hw, hid⟩ := h.find_node_iff.mp hnode
    have hid : w.id = target := hid
    have hjump : jump = n := of_decide_eq_true
      (List.find?_some (p := fun entry : ExprId × ExprId => decide (entry.1 = n)) hfind)
    have hmem := mem_shortCircuit_iff.mp (List.mem_of_find?_eq_some hfind)
    rw [hjump, ← hid] at hmem
    exact ⟨hw, hmem⟩
  · rintro ⟨hw, hjump⟩
    have hmem := mem_shortCircuit_iff.mpr hjump
    cases hfind : (escapeProgram (Code.sourcesOf exprs)).shortCircuit.find? (·.1 = n) with
    | none => exact absurd (decide_eq_true rfl) (List.find?_eq_none.mp hfind _ hmem)
    | some entry =>
      obtain ⟨jump, target⟩ := entry
      have hn : jump = n := of_decide_eq_true
        (List.find?_some (p := fun entry : ExprId × ExprId => decide (entry.1 = n)) hfind)
      obtain ⟨reference, arguments, hnode, htarget⟩ :=
        mem_shortCircuit_iff.mp (List.mem_of_find?_eq_some hfind)
      obtain ⟨reference', arguments', hnode', htarget'⟩ := hjump
      rw [hn] at hnode
      -- one jump has the address, so the entries are the same
      have hsame := h.eq_of_id hnode hnode' rfl
      cases hsame
      rw [htarget, Option.some.injEq] at htarget'
      exact ⟨_, rfl, h.find_node_iff.mpr ⟨hw, htarget'.symm⟩⟩

/-- What a symbol in the place of a target is known to be is around it. -/
theorem named_target {k : NodeId} {b : Scope.Binding}
    (hsymbol : .symbol k b ∈ Forest.nodesOf exprs) (hw : w ∈ Forest.nodesOf exprs)
    (ht : directTarget (Code.symbol k b).source = some w.id) :
    w.isTarget = true ∧ .symbol k b ∈ w.inside := by
  obtain ⟨name, type, rfl, htype⟩ := targetOf_eq_some ht
  rcases h.references k _ hsymbol rfl with ⟨name', heq⟩ | ⟨w', hw', hc, hwref, hin⟩
  · cases heq
  · obtain ⟨hid, htarget⟩ : w'.id = w.id ∧ w'.isTarget = true := by
      cases w' with
      | continuation | withExpr =>
        cases hwref
        exact ⟨rfl, rfl⟩
      | storage | function =>
        cases hwref
        rcases htype with htype | htype <;> cases htype
      | _ => cases hc
    obtain rfl := h.eq_of_id hw' hw hid
    exact ⟨htarget, hin htarget⟩

/-- What a jump is known to go to is around it or its reference itself. -/
theorem target_around {n : NodeId} {reference : Code} {arguments : List Code}
    (hj : .jump n reference arguments ∈ Forest.nodesOf exprs) (hw : w ∈ Forest.nodesOf exprs)
    (ht : directTarget reference.source = some w.id) :
    .jump n reference arguments ∈ w.inside ∨
      (Code.jump n reference arguments).directTarget = some w := by
  have hreference : reference ∈ Forest.nodesOf exprs := Forest.nodes_subset_of_mem hj
    (Forest.mem_nodes_of_child List.mem_cons_self (Forest.mem_nodes_self reference))
  cases reference with
  | symbol k b =>
    left
    obtain ⟨htarget, hsymbol⟩ := h.named_target hreference hw ht
    have hjump := Forest.parent_mem h.nodup.of_map hj hw List.mem_cons_self
      (Code.inside_subset hsymbol) (Forest.ne_of_below hsymbol)
    rcases Code.mem_nodes_iff.mp hjump with hinside | heq
    · exact hinside
    · rw [← heq] at htarget
      cases htarget
  | continuation m r ps e =>
    right
    have hid : m = w.id := Option.some.inj ht
    have hsame : Code.continuation m r ps e = w := h.eq_of_id hreference hw hid
    rw [← hsame]
    rfl
  | _ => cases ht

theorem wellFormed : (analyzed exprs).WellFormed where
  nodup := h.nodup
  linked n b hn hmode := by
    obtain ⟨hname, w, hw, hb, hin⟩ := h.linked n b hn hmode
    exact ⟨hname, w, hw, hb, .inl hin⟩
  references n b hn hmode := by
    rcases h.references n b hn hmode with hundefined | ⟨w, hw, hc, hr, -⟩
    · exact .inl hundefined
    · exact .inr ⟨w, hw, hc, hr⟩
  direct j hj c hc := by
    have hcn : c ∈ Forest.nodesOf exprs := Forest.nodes_subset_of_mem hj
      (Forest.mem_nodes_of_child (Code.directTarget_mem hc) (Forest.mem_nodes_self c))
    unfold Code.directTarget at hc
    split at hc
    · cases hc
      exact h.shortCircuit_iff.mpr ⟨hcn, _, _, hj, rfl⟩
    · cases hc
  shortCircuit j hj w hw := by
    obtain ⟨hw, reference, arguments, hjump, htarget⟩ := h.shortCircuit_iff.mp hw
    have heq := h.eq_of_id hj hjump rfl
    refine ⟨hw, ?_⟩
    rw [heq]
    rcases h.target_around hjump hw htarget with hin | hdirect
    · exact .inl (.inl hin)
    · exact .inr hdirect
  jumps w hw j hj := by
    obtain ⟨⟨jump, arguments⟩, hmem, hfind⟩ := List.mem_filterMap.mp hj
    obtain ⟨hjn, hid⟩ := h.find_node_iff.mp hfind
    have hpair : (jump, w.id) ∈ (escapeProgram (Code.sourcesOf exprs)).shortCircuit := by
      rw [paired_escapeProgram]
      exact List.mem_map_of_mem (mem_jumpsOf.mp hmem)
    obtain ⟨reference, arguments, hjump, htarget⟩ := mem_shortCircuit_iff.mp hpair
    obtain rfl := h.eq_of_id hjn hjump hid
    exact h.target_around hjump hw htarget

end WellScoped

end L2.SelfHost
