import L2.SelfHost.SkippedStores
import L2.SelfHost.UsedBindings

/-!
# Which jumps are reached

As long as the generators find what they call initialized they come to every jump with a target
of its own that is not below a store that is skipped.  If none of these targets escapes, that is
how far they get.
-/

namespace L2.SelfHost

open X86 (Word)
open Graph

variable {p : Program} {inits : List Intrinsics} {e n w : Code} {st F : Store}

/-! ## Conditions -/

section

variable {j : Code} (hj : j.directTarget ≠ none)

include hj

theorem Code.mem_ifExpr {k : NodeId} {condition consequent alternate : Code}
    (h : j ∈ (Code.ifExpr k condition consequent alternate).nodes) :
    j ∈ condition.nodes ∨ j ∈ consequent.nodes ∨ j ∈ alternate.nodes := by
  rcases Code.mem_nodes_iff.mp h with h | rfl
  · obtain ⟨x, hx, hjx⟩ := Forest.mem_nodesOf.mp h
    have hx : x ∈ [condition, consequent, alternate] := hx
    simp only [List.mem_cons, List.not_mem_nil, or_false] at hx
    rcases hx with rfl | rfl | rfl
    · exact .inl hjx
    · exact .inr (.inl hjx)
    · exact .inr (.inr hjx)
  · exact absurd rfl hj

/-- A jump in a condition is in one of those that are tested. -/
theorem genCond_holds (raw : Nat) (m : NodeId) (c : Code) (h : j ∈ c.nodes) :
    ∃ x ∈ expressionsOf (genCond F raw m c), j ∈ x.nodes := by
  have hleaf : ∀ n value, j ∉ (Code.literal n value).nodes :=
    fun n value => Code.notMem_leaf hj (.inr rfl)
  fun_induction genCond F raw m c with
  | case1 n value => exact absurd h (hleaf n value)
  | case2 n value => exact absurd h (hleaf n value)
  | case3 k condition alternate test _ n value ih =>
    rcases Code.mem_ifExpr hj h with h | h | h
    · exact ⟨condition, by simp [test, jumpPiece], h⟩
    · exact absurd h (hleaf n value)
    · obtain ⟨x, hx, hjx⟩ := ih h
      exact ⟨x, by simp [jumpPiece, hx], hjx⟩
  | case4 k condition consequent test _ n value _ ih =>
    rcases Code.mem_ifExpr hj h with h | h | h
    · exact ⟨condition, by simp [test, jumpPiece], h⟩
    · obtain ⟨x, hx, hjx⟩ := ih h
      exact ⟨x, by simp [jumpPiece, hx], hjx⟩
    · exact absurd h (hleaf n value)
  | case5 k condition consequent alternate _ _ =>
    exact ⟨_, by rw [expressionsOf_generateTest]; exact List.mem_cons_self, h⟩
  | case6 c _ _ => exact ⟨c, by rw [expressionsOf_generateTest]; exact List.mem_cons_self, h⟩

end

/-! ## Jumps to known targets -/

/-- A jump that is short-circuited goes to a continuation or to a `with` expression, and names it
or has it for its target. -/
def Program.Known (p : Program) : Prop :=
  ∀ j ∈ p.nodes, ∀ dest, p.shortCircuit j.id = some dest → dest.isTarget = true ∧
    ∃ m target arguments, j = .jump m target arguments ∧
      (target.isSymbol = true ∨ target.isContinuation = true ∧ target = dest)

theorem Program.Known.target (hk : p.Known) {m : NodeId} {target dest : Code}
    {arguments : List Code} (hj : .jump m target arguments ∈ p.nodes)
    (hd : p.shortCircuit m = some dest) : dest.isTarget = true ∧
      (target.isSymbol = true ∨ target.isContinuation = true ∧ target = dest) := by
  obtain ⟨ht, _, _, _, heq, htarget⟩ := hk _ hj dest hd
  cases heq
  exact ⟨ht, htarget⟩

theorem WellScoped.known {exprs : List Code} (h : WellScoped exprs) : (analyzed exprs).Known := by
  intro j hj dest hd
  obtain ⟨hw, target, arguments, hjump, htarget⟩ := h.shortCircuit_iff.mp hd
  have heq := h.eq_of_id hj hjump rfl
  have hreference : target ∈ Forest.nodesOf exprs := Forest.nodes_subset_of_mem hjump
    (Forest.mem_nodes_of_child List.mem_cons_self (Forest.mem_nodes_self target))
  cases target with
  | symbol k b =>
    exact ⟨(h.named_target hreference hw htarget).1, _, _, _, heq, .inl rfl⟩
  | continuation k r ps e =>
    have hid : k = dest.id := Option.some.inj htarget
    have hsame : Code.continuation k r ps e = dest := h.eq_of_id hreference hw hid
    exact ⟨hsame ▸ rfl, _, _, _, heq, .inr ⟨rfl, hsame⟩⟩
  | _ => cases htarget

/-- A `with` expression is jumped to with one argument. -/
theorem Program.Applied.single (happ : p.Applied) {j dest : Code} (hj : j ∈ p.nodes)
    (hd : p.shortCircuit j.id = some dest) (ht : dest.isTarget = true)
    (hc : dest.isContinuation = false) : ∃ arg, j.arguments = [arg] := by
  have hlen := happ j hj dest hd
  cases dest with
  | withExpr k ref body => exact List.length_eq_one_iff.mp hlen
  | continuation _ _ _ _ => cases hc
  | _ => cases ht

/-- A jump below a jump is below what is generated for that. -/
theorem generateJump_holds (hp : p.WellFormed) (hk : p.Known) (happ : p.Applied) {m : NodeId}
    {target : Code} {arguments : List Code} (hjump : .jump m target arguments ∈ p.nodes)
    {raw : Nat} {ps : List Piece} (hps : generateJump p F raw m target arguments = some ps)
    {j : Code} (hj : j.directTarget ≠ none) (h : j ∈ Forest.nodesOf (target :: arguments)) :
    ∃ x ∈ expressionsOf ps, j ∈ x.nodes := by
  have hcont : ∀ k ref params body, j ∈ (Code.continuation k ref params body).nodes →
      j ∈ body.nodes := by
    intro k ref params body h
    rcases Code.mem_nodes_iff.mp h with h | rfl
    · obtain ⟨x, hx, hjx⟩ := Forest.mem_nodesOf.mp h
      rw [List.mem_singleton.mp hx] at hjx
      exact hjx
    · exact absurd rfl hj
  obtain ⟨a, ha, hja⟩ := Forest.mem_nodesOf.mp h
  have htarget : target.isSymbol = true → a ∈ arguments := by
    intro hsymbol
    rcases List.mem_cons.mp ha with rfl | ha
    · exact absurd hja (Code.notMem_leaf hj (.inl hsymbol))
    · exact ha
  unfold generateJump at hps
  dsimp only at hps
  split at hps
  · next pieces hdirect =>
    cases hps
    split at hdirect
    · next k ref params body =>
      split at hdirect
      · cases hdirect
      · cases hdirect
        rcases List.mem_cons.mp ha with rfl | ha
        · exact ⟨body, by simp, hcont _ _ _ _ hja⟩
        · exact ⟨a, by simp [expressionsOf_map_expression, ha], hja⟩
    · cases hdirect
  · split at hps
    · next w hw =>
      obtain ⟨dest, hdest, henter⟩ := Option.bind_eq_some_iff.mp hw
      obtain ⟨ht, htarget'⟩ := hk.target hjump hdest
      have hc : dest.isContinuation = false := by
        by_contra hc
        have hc : dest.isContinuation = true := Bool.not_eq_false _ ▸ hc
        have hdp := (hp.shortCircuit _ hjump dest hdest).1
        have hnone := enter_continuation (j := .jump m target arguments) hc
          (isContinuation_ne hp hjump hdp hc) dest
        have henter : enter (Code.jump m target arguments).id dest dest = some w := henter
        rw [hnone] at henter
        cases henter
      have hsymbol : target.isSymbol = true := by
        rcases htarget' with h | ⟨h, rfl⟩
        · exact h
        · rw [hc] at h
          cases h
      obtain ⟨arg, harg⟩ := happ.single hjump hdest ht hc
      have harg : arguments = [arg] := harg
      subst harg
      cases hps
      exact ⟨a, by simpa using htarget hsymbol, hja⟩
    · split at hps
      · next dest hdest =>
        cases hps
        rcases (hk.target hjump hdest).2 with hs | ⟨hc, -⟩
        · exact ⟨a, by simp [expressionsOf_map_expression, htarget hs], hja⟩
        · refine ⟨a, ?_, hja⟩
          simp only [hc, if_true]
          simpa [expressionsOf_map_expression] using ha
      · cases hps
        refine ⟨a, ?_, hja⟩
        simpa [expressionsOf_map_expression, or_comm] using ha

/-- A jump below an expression that is not skipped is below what its generator calls. -/
theorem CallRun.holds {g : ExprGenerator} {call : InitCall} {offset : Word}
    {subs placed : Initialized} (hp : p.WellFormed)
    (h : CallRun p inits e n F st g call offset subs placed) (hk : p.Known) (happ : p.Applied)
    (href : SameReferences (Store.initial p) F)
    (hg : ∀ g', g = .intrinsic g' → initializeArithmeticIntrinsics (n.view F) = some g')
    (hskip : ¬ Skipped p inits n) {raw : Nat} {ps : List Piece}
    (hps : piecesOf p F raw n g = some ps) {j : Code} (hj : j.directTarget ≠ none)
    (hjn : j ∈ n.inside) : ∃ x ∈ expressionsOf ps, j ∈ x.nodes := by
  have hcall := h.called
  have hchildren : expressionsOf ps = n.children → ∃ x ∈ expressionsOf ps, j ∈ x.nodes := by
    intro heq
    rw [heq]
    exact Forest.mem_nodesOf.mp hjn
  cases n with
  | function m ref params body =>
    cases hcall
    cases hps
    exact hchildren (expressionsOf_function ..)
  | continuation m ref params body =>
    cases hcall
    cases hps
    exact hchildren (expressionsOf_continuation ..)
  | withExpr m ref body =>
    obtain ⟨_, _, heq⟩ := Option.map_eq_some_iff.mp hcall
    cases heq
    exact hchildren (expressionsOf_with hps)
  | storage m ref arguments =>
    cases hcall
    cases hps
    exact hchildren (expressionsOf_storage ..)
  | jump m target arguments =>
    obtain ⟨_, _, heq⟩ := Option.map_eq_some_iff.mp hcall
    cases heq
    exact generateJump_holds hp hk happ h.ready.mem_nodes hps hj hjn
  | invoke m target arguments =>
    unfold callOf at hcall
    dsimp only at hcall
    split at hcall
    · next g' hintrinsic =>
      obtain ⟨_, hcall, heq⟩ := Option.map_eq_some_iff.mp hcall
      cases heq
      cases hps
      rw [expressionsOf_intrinsic]
      apply intrinsicOperands_holds hj hcall (hg g' rfl) _ hjn
      intro name base offset value hm hname
      by_contra hwide
      refine hskip ((skipped_iff href).mpr ⟨?_, name, base, offset, value, hm, hname,
        Bool.eq_false_iff.mpr hwide⟩)
      rintro rfl
      cases hintrinsic
    · cases hcall
      cases hps
      rw [expressionsOf_invoke]
      split
      · next habs =>
        have hsymbol : target.isSymbol = true := by
          cases target with
          | symbol _ _ => rfl
          | literal _ _ | storage _ _ _ | function _ _ _ _ | continuation _ _ _ _ | withExpr _ _ _
          | invoke _ _ _ | jump _ _ _ | ifExpr _ _ _ _ | constrain _ _ => cases habs
        exact Code.mem_arguments hj hsymbol hjn
      · exact Forest.mem_nodesOf.mp hjn
  | ifExpr m condition consequent alternate =>
    cases hcall
    cases hps
    have hmem : ∀ x,
        x ∈ expressionsOf (generateOptimizedIf F raw m condition consequent alternate) ↔
        x ∈ expressionsOf (genCond F raw m condition) ∨ x = consequent ∨ x = alternate := by
      simp [generateOptimizedIf, generateBranch]
    rcases Code.mem_ifExpr hj (k := m) (Code.inside_subset hjn) with hjn | hjn | hjn
    · obtain ⟨x, hx, hjx⟩ := genCond_holds hj raw m condition hjn
      exact ⟨x, (hmem x).mpr (.inl hx), hjx⟩
    · exact ⟨consequent, (hmem _).mpr (.inr (.inl rfl)), hjn⟩
    · exact ⟨alternate, (hmem _).mpr (.inr (.inr rfl)), hjn⟩
  | constrain m body =>
    cases hcall
    cases hps
    apply hchildren
    unfold generateConstrain
    rw [expressionsOf_expression, expressionsOf_moveBndgBndg]
    rfl
  | symbol _ _ | literal _ _ => cases hcall

/-! ## What comes to be reached -/

theorem Program.Applied.withsApplied (happ : p.Applied) (hk : p.Known) : p.WithsApplied := by
  intro j hj dest hd hc
  obtain ⟨arg, harg⟩ := happ.single hj hd (hk j hj dest hd).1 hc
  rw [harg]
  exact List.cons_ne_nil _ _

section

variable (hp : p.WellFormed) (hk : p.Known) (happ : p.Applied) {fuel : Nat}
  (hF : initializeProgram p inits fuel = some F) (raw : Nat)

include hp hk happ hF

/-- A jump below what has been initialized is below what the generator of that calls. -/
theorem exists_pieces_holding (hn : n ∈ p.nodes) (hgen : F.generator n.id ≠ none)
    (hskip : ¬ Skipped p inits n) {j : Code} (hj : j.directTarget ≠ none) (hjn : j ∈ n.inside) :
    ∃ ps, pieces p F raw n = some ps ∧ ∃ x ∈ expressionsOf ps, j ∈ x.nodes := by
  have hok := initializeProgram_ok hp hF
  obtain ⟨e, st', g, call, offset, subs, placed, h⟩ := hok.exists_callRun hp hn hgen hjn
  obtain ⟨ps, hps, -⟩ := h.pieces hp (happ.withsApplied hk) hok.inv raw
  refine ⟨ps, ?_, ?_⟩
  · unfold pieces
    rw [h.generator]
    exact hps
  · apply h.holds hp hk happ (generator_invoke hp hF).1 _ hskip hps hj hjn
    rintro g' rfl
    exact (located_initializeProgram hp hF).intrinsic n hn g' h.generator

/-- A jump is reached from what is above it, unless it is in a store that is skipped. -/
theorem reached_jump (hgen : ∀ x, Reached p F raw x → F.generator x.id ≠ none) {j : Code}
    (hj : j.directTarget ≠ none) (hskip : ∀ s ∈ p.nodes, j ∈ s.inside → ¬ Skipped p inits s)
    (n : Code) : Reached p F raw n → j ∈ n.nodes → Reached p F raw j := by
  induction n using Forest.induction_below with
  | step n ih =>
    intro hn hjn
    rcases Code.mem_nodes_iff.mp hjn with hjn | rfl
    · obtain ⟨e, he, hne⟩ := hn.mem_nodes
      have hnp := Program.mem_of_root he hne
      obtain ⟨ps, hps, x, hx, hjx⟩ := exists_pieces_holding hp hk happ hF raw hnp
        (hgen n hn) (hskip n hnp hjn) hj hjn
      exact ih x (pieces_inside hps hx) (.call hn hps hx) hjx
    · exact hn

end

/-! ## What is reached is generated -/

/-- Each jump whose own target escapes is in a store that is skipped. -/
def Sheltered (p : Program) (inits : List Intrinsics) : Prop :=
  ∀ j ∈ p.nodes, ∀ c, j.directTarget = some c → p.escapes c.id = true →
    ∃ s ∈ p.nodes, j ∈ s.inside ∧ Skipped p inits s

section

variable (hp : p.WellFormed) (happ : p.WithsApplied) {fuel : Nat}
  (hF : initializeProgram p inits fuel = some F) (raw : Nat)

include hp happ hF

/-- The children of what is initialized and not below a skipped store are so, too. -/
theorem generated_step (hsheltered : Sheltered p inits) (hn : n ∈ p.nodes)
    (hgen : F.generator n.id ≠ none) (hout : ∀ s ∈ p.nodes, Skipped p inits s → n ∉ s.inside) :
    ∃ g ps, F.generator n.id = some g ∧ piecesOf p F raw n g = some ps ∧
      ∀ x ∈ expressionsOf ps, F.generator x.id ≠ none ∧
        ∀ s ∈ p.nodes, Skipped p inits s → x ∉ s.inside := by
  have hok := initializeProgram_ok hp hF
  obtain ⟨e, he, hne, hrun⟩ := hok.runs n hn hgen
  rcases hrun.cases hp with ⟨k, binding, rfl, hg⟩ | ⟨k, value, rfl, hg⟩ |
    ⟨st, g, call, offset, subs, placed, h⟩
  · refine ⟨_, _, hg, rfl, fun x hx => ?_⟩
    rw [expressionsOf_map fun _ => rfl] at hx
    cases hx
  · refine ⟨_, _, hg, rfl, fun x hx => ?_⟩
    rw [expressionsOf_map fun _ => rfl] at hx
    cases hx
  · obtain ⟨ps, hps, hsub⟩ := h.pieces hp happ hok.inv raw
    refine ⟨g, ps, h.generator, hps, fun x hx => ?_⟩
    have hdirect : ∀ c, n.directTarget = some c → p.escapes c.id = false := by
      intro c hc
      by_contra hesc
      obtain ⟨s, hs, hns, hskip⟩ := hsheltered n hn c hc (Bool.not_eq_false _ ▸ hesc)
      exact hout s hs hskip hns
    have hxc := hsub hdirect hx
    refine ⟨h.generated hp hxc, fun s hs hskip hxs => ?_⟩
    have hxn := h.waiting.inside x hxc
    have hpieces : pieces p F raw n = some ps := by
      unfold pieces
      rw [h.generator]
      exact hps
    rcases Forest.nested hp.nodup_nodes hs hn (Code.inside_subset hxs) (Code.inside_subset hxn) with
      hsn | hns
    · rcases Code.mem_nodes_iff.mp hsn with hsn | rfl
      · obtain ⟨k, target, arguments, rfl⟩ := hskip.exists_invoke
        cases h.passedOver hp hxc hsn hxs with
        | target hd =>
          have hcont := Code.directTarget_isContinuation hd
          cases hcont
        | condition hif => cases hif
        | address _ hhead hg =>
          have hg' : ∃ g', g = .intrinsic g' ∧ (g' = .getBaseOffset ∨ g' = .setBaseOffset) := by
            rcases hg with rfl | rfl
            · exact ⟨_, rfl, .inl rfl⟩
            · exact ⟨_, rfl, .inr rfl⟩
          obtain ⟨g', rfl, hkind⟩ := hg'
          have hinit := (located_initializeProgram hp hF).intrinsic n hn g' h.generator
          exact address_matches hinit hkind hhead
            (hskip.matchBaseOffset_eq (generator_invoke hp hF).1)
      · rw [hskip.expressionsOf_eq_nil hp hF hn hpieces] at hx
        cases hx
    · rcases Code.mem_nodes_iff.mp hns with hns | rfl
      · exact hout s hs hskip hns
      · rw [hskip.expressionsOf_eq_nil hp hF hn hpieces] at hx
        cases hx

/-- Everything that is reached has been initialized. -/
theorem reached_generated (hsheltered : Sheltered p inits) (hn : Reached p F raw n) :
    F.generator n.id ≠ none ∧ ∀ s ∈ p.nodes, Skipped p inits s → n ∉ s.inside := by
  induction hn with
  | @root e he =>
    refine ⟨(initializeProgram_ok hp hF).generated e he, fun s hs _ hes => ?_⟩
    have hep := Program.mem_of_root he (Forest.mem_nodes_self e)
    obtain ⟨r, hr, hsr⟩ := Forest.mem_nodesOf.mp hs
    have her : e = r := Forest.eq_of_mem_of_mem hp.nodup_nodes he hr (Forest.mem_nodes_self e)
      (Forest.nodes_subset hsr (Code.inside_subset hes))
    exact Forest.notMem_below hes (her ▸ hsr)
  | call hn hps hx ih =>
    obtain ⟨e, he, hne⟩ := hn.mem_nodes
    obtain ⟨g, ps', hg, hps', hsub⟩ := generated_step hp happ hF raw hsheltered
      (Program.mem_of_root he hne) ih.1 ih.2
    unfold pieces at hps
    rw [hg, Option.bind_some, hps'] at hps
    cases hps
    exact hsub _ hx

end

end L2.SelfHost
