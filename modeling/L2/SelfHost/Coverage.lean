import L2.SelfHost.Analyzed
import L2.SelfHost.Initialized
import L2.SelfHost.Pieces

/-!
# What is generated has been initialized

An initialized expression is as its own initializer left it, and so is the call that this
made.  What the generators come to has been in such a call, but for the continuations that
are targets of jumps themselves and escape.
-/

namespace L2.SelfHost

open X86 (Word)
open Graph

variable {p : Program} {inits : List Intrinsics} {e n m v c x : Code} {b : BndgId}
  {st F : Store}

/-! ## Calls that have been made -/

/-- The initializer of `n` has made the call `call` in the store `st`, and `F` has `n` as it
was left. -/
structure CallRun (p : Program) (inits : List Intrinsics) (e n : Code) (F st : Store)
    (g : ExprGenerator) (call : InitCall) (offset : Word) (subs placed : Initialized) :
    Prop where
  ready : Ready p e n st
  called : callOf p inits st n = some (g, call)
  ok : CallOk p n st call
  waiting : Waiting p e n call.exprs call.store
  ran : ∃ fuel offset', initSubs (initializeExpression p inits fuel) offset'
    ⟨offset', call.mask, call.store⟩ call.exprs = some subs
  subsOk : SubsOk p inits e n call.exprs call.store subs.store
  located : locate call (callOffset n offset st) (st.depth n.id) subs = some placed
  agree : SameBelow n (finish g n offset placed).store F

theorem Ready.waiting (hp : p.WellFormed) (hr : Ready p e n st) {call : InitCall}
    (hok : CallOk p n st call) : Waiting p e n call.exprs call.store := by
  refine ⟨hr.root, hr.mem, ?_, hok.step.inv hr.inv, hok.live, ?_, ?_, hok.direct, hok.pristine⟩
  · unfold Deepens
    rw [hok.step.frame.depth]
    exact hr.deep
  · obtain ⟨l, hl, hsub⟩ := hok.exprs
    exact hl.nodup_iff.mp (hsub.nodup (hr.nodup_inside hp))
  · exact fun c hc => hok.exprs.subset (Forest.mem_nodesOf.mpr ⟨c, hc, Forest.mem_nodes_self c⟩)

/-- What has been initialized is a symbol, a literal, or has made a call. -/
theorem LocalRun.cases (hp : p.WellFormed) (h : LocalRun p inits e n F) :
    (∃ k binding, n = .symbol k binding ∧ F.generator n.id = some .symbol) ∨
      (∃ k value, n = .literal k value ∧ F.generator n.id = some .literal) ∨
      ∃ st g call offset subs placed, CallRun p inits e n F st g call offset subs placed := by
  obtain ⟨fuel, offset, st, r, hr, heq, hagree⟩ := h
  have hself := hagree.fields n (Forest.mem_nodes_self n)
  cases fuel with
  | zero => cases heq
  | succ fuel =>
    unfold initializeExpression at heq
    split at heq
    · next k binding =>
      cases heq
      refine .inl ⟨k, binding, rfl, ?_⟩
      rw [generator_of_fields hself]
      exact (movedAt_setGenerated .symbol (.symbol k binding) [] st).2
    · next k value =>
      cases heq
      refine .inr (.inl ⟨k, value, rfl, ?_⟩)
      rw [generator_of_fields hself]
      exact (movedAt_setGenerated .literal (.literal k value) [] st).2
    · obtain ⟨⟨g, call⟩, hcall, heq⟩ := Option.bind_eq_some_iff.mp heq
      obtain ⟨placed, hcalled, hfinish⟩ := Option.bind_eq_some_iff.mp heq
      cases hfinish
      obtain ⟨subs, hsubs, hlocate⟩ := Option.bind_eq_some_iff.mp hcalled
      have hok := callOf_ok hp hr hcall
      have hw := hr.waiting hp hok
      refine .inr (.inr ⟨st, g, call, offset, subs, placed, hr, hcall, hok, hw, ⟨fuel, _, hsubs⟩,
        ?_, hlocate, hagree⟩)
      exact initSubs_ok hp (initializeExpression_ok hp fuel) hw hsubs

namespace CallRun

variable {g : ExprGenerator} {call : InitCall} {offset : Word} {subs placed : Initialized}
  (h : CallRun p inits e n F st g call offset subs placed)
include h

theorem generator : F.generator n.id = some g := by
  rw [generator_of_fields (h.agree.fields n (Forest.mem_nodes_self n))]
  exact (movedAt_finish g n call.exprs offset placed).2

/-- The fields of `n` itself are those that the initializer has passed on. -/
theorem self (hp : p.WellFormed) : subs.store.fields n.id = call.store.fields n.id := by
  apply h.subsOk.fields
  intro c hc hid
  have hcn := h.ok.exprs.subset hc
  exact Forest.ne_of_below hcn (hp.eq_of_id (h.ready.inside_mem hcn) h.ready.mem_nodes hid)

theorem bndgs (hp : p.WellFormed) : call.bndgs = [] ∨ call.bndgs = subs.store.parameters n.id := by
  rw [parameters_of_fields (h.self hp)]
  exact h.ok.bndgs

theorem moved (hp : p.WellFormed) :
    MovedAt n call.exprs subs.store (finish g n offset placed).store :=
  (movedAt_locate (h.bndgs hp) h.located).trans (movedAt_finish g n call.exprs offset placed).1

/-- What is below one of the expressions of the call is as it was left there. -/
theorem below (hp : p.WellFormed) (hc : c ∈ call.exprs) : SameBelow c subs.store F := by
  have hcn := h.waiting.inside c hc
  have hinv := h.subsOk.step.inv h.waiting.inv
  have hmoved := (h.moved hp).agree hp hinv h.ready.mem_nodes h.ready.direct h.waiting.nodup
    h.waiting.inside h.waiting.direct hc
  exact hmoved.trans (h.agree.mono hp h.ready.mem_nodes (Code.inside_subset hcn))

theorem generated (hp : p.WellFormed) (hc : c ∈ call.exprs) : F.generator c.id ≠ none := by
  rw [generator_of_fields ((h.below hp hc).fields c (Forest.mem_nodes_self c))]
  exact h.subsOk.generated c hc

/-- Nothing below `n` is initialized that is not in the call. -/
theorem only (hp : p.WellFormed) (hm : m ∈ n.inside) (hgen : F.generator m.id ≠ none) :
    m ∈ Forest.nodesOf call.exprs := by
  by_contra hmem
  apply hgen
  have hmp := h.ready.inside_mem hm
  have hid : m.id ≠ n.id := fun hid => Forest.ne_of_below hm (hp.eq_of_id hmp h.ready.mem_nodes hid)
  have hsame : subs.store.fields m.id = call.store.fields m.id := by
    apply h.subsOk.fields
    intro c hc hid
    have hcm : c = m := hp.eq_of_id (h.ready.inside_mem (h.ok.exprs.subset hc)) hmp hid
    exact hmem (hcm ▸ hc)
  rw [generator_of_fields (h.agree.fields m (Code.inside_subset hm)),
    generator_of_fields ((h.moved hp).fields m.id hid), generator_of_fields hsame, h.ok.generator]
  exact h.ready.pristine.generator m (Code.inside_subset hm)

end CallRun

/-! ## What the generators come to -/

/-- A jump to a `with` expression has an argument. -/
def Program.WithsApplied (p : Program) : Prop :=
  ∀ j ∈ p.nodes, ∀ dest, p.shortCircuit j.id = some dest → dest.isContinuation = false →
    j.arguments ≠ []

/-- A continuation is not in the place of the value of a `with` expression. -/
theorem enter_continuation {j dest : Code} (hc : dest.isContinuation = true)
    (hne : dest.id ≠ j.id) (w : Code) : enter j.id w dest = none := by
  cases dest with
  | continuation k ref params body => exact if_neg hne
  | _ => cases hc

theorem isContinuation_ne {m : NodeId} {target : Code} {arguments : List Code} (hp : p.WellFormed)
    (hj : .jump m target arguments ∈ p.nodes) {dest : Code} (hd : dest ∈ p.nodes)
    (hc : dest.isContinuation = true) : dest.id ≠ m := by
  intro hid
  have heq : dest = .jump m target arguments := hp.eq_of_id hd hj hid
  rw [heq] at hc
  cases hc

theorem generateJump_isSome (hp : p.WellFormed) (happ : p.WithsApplied) {m : NodeId}
    {target : Code} {arguments : List Code} (hj : .jump m target arguments ∈ p.nodes)
    (raw : Nat) : ∃ ps, generateJump p F raw m target arguments = some ps := by
  unfold generateJump
  dsimp only
  split
  · exact ⟨_, rfl⟩
  · split
    · next w hw =>
      obtain ⟨dest, hdest, henter⟩ := Option.bind_eq_some_iff.mp hw
      have hdp := (hp.shortCircuit _ hj dest hdest).1
      cases hc : dest.isContinuation with
      | true =>
        have hnone := enter_continuation (j := .jump m target arguments) hc
          (isContinuation_ne hp hj hdp hc) dest
        have henter : enter (Code.jump m target arguments).id dest dest = some w := henter
        rw [hnone] at henter
        cases henter
      | false =>
        have hne : arguments ≠ [] := happ _ hj dest hdest hc
        obtain ⟨arg, rest, rfl⟩ := List.exists_cons_of_ne_nil hne
        exact ⟨_, rfl⟩
    · split
      · exact ⟨_, rfl⟩
      · exact ⟨_, rfl⟩

/-- What the generator of a jump calls has been in the call of its initializer. -/
theorem expressionsOf_jump_subset {m : NodeId} {target : Code} {arguments : List Code}
    {call : InitCall} (hcall : initializeJump p st m target arguments = some call) {raw : Nat}
    {ps : List Piece} (hps : generateJump p F raw m target arguments = some ps)
    (hd : ∀ c, (Code.jump m target arguments).directTarget = some c → p.escapes c.id = false) :
    expressionsOf ps ⊆ call.exprs := by
  have hother : call.exprs = target :: arguments → target.isContinuation = false →
      expressionsOf ps ⊆ call.exprs := by
    intro hexprs hc x hx
    rw [hexprs]
    rcases expressionsOf_jump hps hx with hx | rfl | ⟨k, ref, params, rfl⟩
    · exact List.mem_cons_of_mem _ hx
    · exact List.mem_cons_self
    · cases hc
  cases target with
  | continuation k ref params body =>
    cases hcall
    have hesc : p.escapes k = false := hd _ rfl
    unfold generateJump at hps
    simp only [hesc, Bool.false_eq_true, if_false, Option.some.injEq] at hps
    subst hps
    intro x hx
    have hx : x ∈ arguments ∨ x = body := by
      simpa [expressionsOf_map_expression] using hx
    rcases hx with hx | rfl
    · exact List.mem_cons_of_mem _ hx
    · exact List.mem_cons_self
  | _ =>
    refine hother ?_ rfl
    unfold initializeJump at hcall
    dsimp only at hcall
    split at hcall
    · obtain ⟨arg, _, rfl⟩ := Option.map_eq_some_iff.mp hcall
      rfl
    · cases hcall
      rfl

theorem exprs_initializeBinaryOperator (st : Store) (n arg1 arg2 : Code) :
    (initializeBinaryOperator st n arg1 arg2).exprs = [arg1, arg2] := by
  unfold initializeBinaryOperator
  dsimp only
  split
  · rfl
  · split
    · rfl
    · split
      · rfl
      · rfl

/-- And so it is for the operands of an intrinsic. -/
theorem intrinsicOperands_subset {n : Code} {g : Generator} {arguments : List Code}
    {call : InitCall} (hcall : initializeIntrinsic st n g arguments = some call) :
    intrinsicOperands F g n arguments ⊆ call.exprs := by
  intro x hx
  unfold initializeIntrinsic at hcall
  split at hcall
  · next arg1 =>
    split at hcall
    · obtain ⟨base, hbase, rfl⟩ := Option.map_eq_some_iff.mp hcall
      have hx : x ∈ (baseOf arg1).toList := hx
      rw [hbase] at hx
      exact hx
    · cases hcall
      exact hx
    · cases hcall
  · next arg1 arg2 =>
    split at hcall
    · obtain ⟨base, hbase, rfl⟩ := Option.map_eq_some_iff.mp hcall
      unfold intrinsicOperands at hx
      dsimp only at hx
      rw [hbase] at hx
      show x ∈ [base, arg2]
      split at hx
      · rcases List.mem_cons.mp hx with rfl | hx
        · exact List.mem_cons_of_mem _ List.mem_cons_self
        · exact List.mem_cons.mpr (.inl (List.mem_singleton.mp hx))
      · cases hx
    · cases hcall
      exact hx
    · cases hcall
      rw [exprs_initializeBinaryOperator]
      exact hx
    · cases hcall
  · cases hcall

namespace CallRun

variable {g : ExprGenerator} {call : InitCall} {offset : Word} {subs placed : Initialized}
  (h : CallRun p inits e n F st g call offset subs placed)
include h

/-- The generator of an expression has been initialized for what it calls. -/
theorem pieces (hp : p.WellFormed) (happ : p.WithsApplied) (hs : Scoped p F) (raw : Nat) :
    ∃ ps, piecesOf p F raw n g = some ps ∧
      ((∀ c, n.directTarget = some c → p.escapes c.id = false) →
        expressionsOf ps ⊆ call.exprs) := by
  have hcall := h.called
  have hn := h.ready.mem_nodes
  cases n with
  | function m ref params body =>
    cases hcall
    refine ⟨_, rfl, fun _ => ?_⟩
    rw [expressionsOf_function]
    exact List.Subset.refl _
  | continuation m ref params body =>
    cases hcall
    refine ⟨_, rfl, fun _ => ?_⟩
    rw [expressionsOf_continuation]
    exact List.Subset.refl _
  | withExpr m ref body =>
    obtain ⟨call', hwith, heq⟩ := Option.map_eq_some_iff.mp hcall
    cases heq
    have hexprs : call.exprs = [body] := by
      obtain ⟨st', _, heq⟩ := Option.bind_eq_some_iff.mp hwith
      cases heq
      rfl
    have hlen := hs.arity _ hn
    obtain ⟨param, rest, hparams⟩ := List.exists_cons_of_ne_nil
      (List.ne_nil_of_length_pos (hlen.symm ▸ Nat.one_pos : 0 < (F.parameters m).length))
    have hparams : F.parameters m = param :: rest := hparams
    have hsome : ∃ ps, generateWith p F raw m (Code.withExpr m ref body).reference body =
        some ps := by
      unfold generateWith
      rw [hparams]
      exact ⟨_, rfl⟩
    obtain ⟨ps, hps⟩ := hsome
    refine ⟨ps, hps, fun _ => ?_⟩
    rw [expressionsOf_with hps, hexprs]
    exact List.Subset.refl _
  | storage m ref arguments =>
    cases hcall
    refine ⟨_, rfl, fun _ => ?_⟩
    rw [expressionsOf_storage]
    exact List.Subset.refl _
  | jump m target arguments =>
    obtain ⟨call', hjump, heq⟩ := Option.map_eq_some_iff.mp hcall
    cases heq
    obtain ⟨ps, hps⟩ := generateJump_isSome hp happ hn raw (F := F)
    exact ⟨ps, hps, expressionsOf_jump_subset hjump hps⟩
  | invoke m target arguments =>
    unfold callOf at hcall
    dsimp only at hcall
    split at hcall
    · next g' hg =>
      obtain ⟨call', hintrinsic, heq⟩ := Option.map_eq_some_iff.mp hcall
      cases heq
      refine ⟨_, rfl, fun _ => ?_⟩
      rw [expressionsOf_intrinsic]
      exact intrinsicOperands_subset hintrinsic
    · cases hcall
      refine ⟨_, rfl, fun _ => ?_⟩
      rw [expressionsOf_invoke]
      split
      · exact List.subset_cons_self _ _
      · exact List.Subset.refl _
  | ifExpr m condition consequent alternate =>
    cases hcall
    refine ⟨_, rfl, fun _ => ?_⟩
    intro x hx
    have hx : x ∈ expressionsOf (genCond F raw m condition) ∨ x = consequent ∨ x = alternate := by
      simpa [generateOptimizedIf, generateBranch] using hx
    show x ∈ consequent :: alternate :: (genConds [] st condition).2
    rcases hx with hx | rfl | rfl
    · exact List.mem_cons_of_mem _ (List.mem_cons_of_mem _ (expressionsOf_genCond m _ [] st hx))
    · exact List.mem_cons_self
    · exact List.mem_cons_of_mem _ List.mem_cons_self
  | constrain m body =>
    cases hcall
    refine ⟨_, rfl, fun _ => ?_⟩
    unfold generateConstrain
    rw [expressionsOf_expression, expressionsOf_moveBndgBndg]
    exact List.Subset.refl _
  | symbol _ _ | literal _ _ => cases hcall

end CallRun

/-! ## The whole program -/

/-- What is reached has been initialized, as long as no target of a jump itself escapes. -/
theorem LoopOk.reached (hp : p.WellFormed) (happ : p.WithsApplied)
    (hok : LoopOk p inits p.exprs st F) {raw : Nat}
    (hd : ∀ j, Reached p F raw j → ∀ c, j.directTarget = some c → p.escapes c.id = false)
    (hn : Reached p F raw n) : F.generator n.id ≠ none ∧ pieces p F raw n ≠ none := by
  have hpieces : ∀ n, Reached p F raw n → F.generator n.id ≠ none →
      pieces p F raw n ≠ none ∧ ∀ ps, pieces p F raw n = some ps →
        ∀ x ∈ expressionsOf ps, F.generator x.id ≠ none := by
    intro n hn hgen
    obtain ⟨e, he, hne⟩ := hn.mem_nodes
    obtain ⟨e', he', hne', hrun⟩ := hok.runs n (Forest.mem_nodesOf.mpr ⟨e, he, hne⟩) hgen
    rcases hrun.cases hp with ⟨k, binding, rfl, hg⟩ | ⟨k, value, rfl, hg⟩ |
      ⟨st', g, call, offset, subs, placed, hrun⟩
    · unfold pieces
      rw [hg]
      refine ⟨Option.some_ne_none _, ?_⟩
      intro ps hps x hx
      cases hps
      rw [expressionsOf_map fun _ => rfl] at hx
      cases hx
    · unfold pieces
      rw [hg]
      refine ⟨Option.some_ne_none _, ?_⟩
      intro ps hps x hx
      cases hps
      rw [expressionsOf_map fun _ => rfl] at hx
      cases hx
    · obtain ⟨ps, hps, hsub⟩ := hrun.pieces hp happ hok.inv raw
      unfold pieces
      rw [hrun.generator, Option.bind_some, hps]
      refine ⟨Option.some_ne_none _, ?_⟩
      intro ps' heq x hx
      cases heq
      exact hrun.generated hp (hsub (hd n hn) hx)
  induction hn with
  | root he =>
    have hgen := hok.generated _ he
    exact ⟨hgen, (hpieces _ (.root he) hgen).1⟩
  | call hn hps hx ih =>
    have hgen := (hpieces _ hn ih.1).2 _ hps _ hx
    exact ⟨hgen, (hpieces _ (.call hn hps hx) hgen).1⟩

/-- A target that escapes is generated with its jump, although it has not been initialized. -/
theorem LoopOk.reached_target (hp : p.WellFormed) (hok : LoopOk p inits p.exprs st F) {raw : Nat}
    (hn : Reached p F raw n) (hgen : F.generator n.id ≠ none) (hc : n.directTarget = some c)
    (hesc : p.escapes c.id = true) : Reached p F raw c ∧ F.generator c.id = none := by
  obtain ⟨e, he, hne⟩ := hn.mem_nodes
  obtain ⟨e', he', hne', hrun⟩ := hok.runs n (Forest.mem_nodesOf.mpr ⟨e, he, hne⟩) hgen
  unfold Code.directTarget at hc
  split at hc
  · next m k ref params body arguments =>
    cases hc
    rcases hrun.cases hp with ⟨_, _, heq, _⟩ | ⟨_, _, heq, _⟩ |
      ⟨st', g, call, offset, subs, placed, hrun⟩
    · cases heq
    · cases heq
    · have hcalled := hrun.called
      cases hcalled
      have hj := hrun.ready.mem_nodes
      have htarget : p.shortCircuit m = some (.continuation k ref params body) :=
        hp.direct _ hj _ rfl
      have hdp := (hp.shortCircuit _ hj _ htarget).1
      have hid : k ≠ m := isContinuation_ne hp hj hdp rfl
      have henter : enter m (.continuation k ref params body)
          (.continuation k ref params body) = none := if_neg hid
      -- the target is generated with the arguments
      have hps : pieces p F raw (.jump m (.continuation k ref params body) arguments) =
          some ([.expression (.continuation k ref params body)] ++
            arguments.map .expression ++ generateArgumentMoves F raw arguments (F.parameters k) ++
            [.instr (.jmpTo (instrBndg k))]) := by
        unfold pieces
        rw [hrun.generator]
        show generateJump p F raw m (.continuation k ref params body) arguments = _
        have hesc : p.escapes k = true := hesc
        unfold generateJump
        simp only [hesc, if_true, htarget, Option.bind_some, henter]
        rfl
      refine ⟨.call hn hps (mem_expressionsOf.mpr List.mem_cons_self), ?_⟩
      by_contra hcont
      have hin : Code.continuation k ref params body ∈
          (Code.jump m (.continuation k ref params body) arguments).inside :=
        Code.child_inside List.mem_cons_self
      have hmem : Code.continuation k ref params body ∈ Forest.nodesOf (body :: arguments) :=
        hrun.only hp hin hcont
      rw [Forest.nodesOf_cons] at hmem
      rcases List.mem_append.mp hmem with hmem | hmem
      · exact Forest.notMem_below (Code.child_inside (List.mem_singleton.mpr rfl)) hmem
      · exact Forest.notMem_rest (hrun.ready.nodup_inside hp) (Forest.mem_nodes_self _) hmem
  · cases hc

/-- So the generators stop there, if they have come that far. -/
theorem LoopOk.escaping (hp : p.WellFormed) (hok : LoopOk p inits p.exprs st F) {raw : Nat}
    (hn : Reached p F raw n) (hc : n.directTarget = some c) (hesc : p.escapes c.id = true) :
    ∃ x, Reached p F raw x ∧ pieces p F raw x = none := by
  have hnone : ∀ x, F.generator x.id = none → pieces p F raw x = none := by
    intro x hx
    unfold pieces
    rw [hx]
    rfl
  by_cases hgen : F.generator n.id = none
  · exact ⟨n, hn, hnone n hgen⟩
  · obtain ⟨hreached, hgen⟩ := hok.reached_target hp hn hgen hc hesc
    exact ⟨c, hreached, hnone c hgen⟩

/-- The code of a program is generated exactly if no continuation escapes that is the target
of a jump itself. -/
theorem generateProgram_answers_iff (hp : p.WellFormed) (happ : p.WithsApplied) {fuel : Nat}
    (h : initializeProgram p inits fuel = some F) (raw : Nat) :
    (∃ k listing, generateProgram p F raw k = some listing) ↔
      ∀ n, Reached p F raw n → ∀ c, n.directTarget = some c → p.escapes c.id = false := by
  have hok := initializeProgram_ok hp h
  rw [generateProgram_iff]
  constructor
  · intro hall n hn c hc
    by_contra hesc
    obtain ⟨x, hx, hnone⟩ := hok.escaping hp hn hc (Bool.not_eq_false _ ▸ hesc)
    exact hall x hx hnone
  · exact fun hd n hn => (hok.reached hp happ hd hn).2

/-! ## A jump to a continuation -/

theorem callee_name : "f" ≠ "" := by decide

theorem parameter_name : "x" ≠ "" := by decide

theorem target_name : "k" ≠ "" := by decide

def parameterBndg : Scope.Binding := .parameter (some ⟨"x", parameter_name⟩) .continuation 1 0

def targetBndg : Scope.Binding := .reference (some ⟨"k", target_name⟩) .continuation 1

/-- The target of `{(continuation k (x) [f x]) 5}`, or of `{(continuation k (x) [f k]) 5}`. -/
def jumpTarget (escaping : Bool) : Code :=
  .continuation 1 (some ⟨"k", target_name⟩) [some ⟨"x", parameter_name⟩]
    (.invoke 2 (.symbol 3 (.undefined ⟨"f", callee_name⟩))
      [.symbol 4 (if escaping then targetBndg else parameterBndg)])

def calledJump (escaping : Bool) : Code := .jump 0 (jumpTarget escaping) [.literal 5 5]

/-- A program of the jump alone, in which the target escapes or not. -/
def jumpProgram (escaping : Bool) : Program := analyzed [calledJump escaping]

variable {escaping : Bool}

theorem escapes_jumpProgram (n : NodeId) :
    (jumpProgram escaping).escapes n = (escaping && n == 1) := by
  cases escaping with
  | false => rfl
  | true =>
    show decide (n ∈ [1]) = (n == 1)
    rw [Bool.eq_iff_iff, decide_eq_true_eq, beq_iff_eq, List.mem_singleton]

theorem shortCircuit_jumpProgram (n : NodeId) :
    (jumpProgram escaping).shortCircuit n = if n = 0 then some (jumpTarget escaping) else none := by
  show (List.find? (fun e => decide (e.1 = n)) [(0, 1)]).bind _ = _
  by_cases hn : n = 0
  · subst hn
    rfl
  · rw [if_neg hn, List.find?_cons_of_neg (by simpa using Ne.symm hn)]
    rfl

theorem nodes_jumpProgram : (jumpProgram escaping).nodes =
    [.symbol 3 (.undefined ⟨"f", callee_name⟩),
      .symbol 4 (if escaping then targetBndg else parameterBndg),
      .invoke 2 (.symbol 3 (.undefined ⟨"f", callee_name⟩))
        [.symbol 4 (if escaping then targetBndg else parameterBndg)],
      jumpTarget escaping, .literal 5 5, calledJump escaping] := rfl

theorem symbol_jumpProgram {n : NodeId} {b : Scope.Binding}
    (h : Code.symbol n b ∈ (jumpProgram escaping).nodes) :
    (n = 3 ∧ b = .undefined ⟨"f", callee_name⟩) ∨
      n = 4 ∧ b = if escaping then targetBndg else parameterBndg := by
  rw [nodes_jumpProgram] at h
  simp only [List.mem_cons, Code.symbol.injEq, List.not_mem_nil, or_false] at h
  rcases h with h | h | h | h | h | h
  · exact .inl h
  · exact .inr h
  all_goals cases h

theorem target_mem_jumpProgram : jumpTarget escaping ∈ (jumpProgram escaping).nodes := by
  rw [nodes_jumpProgram]
  simp

theorem wellScoped_jumpProgram : WellScoped [calledJump escaping] := by
  refine ⟨?_, ?_, ?_⟩
  · cases escaping <;> decide
  · intro n b hn hm
    rcases symbol_jumpProgram hn with ⟨rfl, rfl⟩ | ⟨rfl, rfl⟩
    · cases hm
    · cases escaping with
      | false =>
        refine ⟨Option.some_ne_none _, _, target_mem_jumpProgram, List.mem_cons_self, ?_⟩
        show Code.symbol 4 parameterBndg ∈ [Code.symbol 3 _, Code.symbol 4 parameterBndg, _]
        simp
      | true => cases hm
  · intro n b hn hm
    rcases symbol_jumpProgram hn with ⟨rfl, rfl⟩ | ⟨rfl, rfl⟩
    · exact .inl ⟨_, rfl⟩
    · cases escaping with
      | false => cases hm
      | true =>
        refine .inr ⟨_, target_mem_jumpProgram, rfl, rfl, fun _ => ?_⟩
        show Code.symbol 4 targetBndg ∈ [Code.symbol 3 _, Code.symbol 4 targetBndg, _]
        simp

theorem wellFormed_jumpProgram : (jumpProgram escaping).WellFormed :=
  wellScoped_jumpProgram.wellFormed

/-- The symbol in the body of the escaping continuation refers to a binding in its place. -/
theorem prepare_symbol_target :
    ((prepare (jumpProgram true) 0 (Store.initial (jumpProgram true))
      (jumpProgram true).exprs).2.bndg (.named targetBndg)).storage ≠ .nil := by
  have hsymbol : Code.symbol 4 targetBndg ∈ (jumpProgram true).nodes := by
    rw [nodes_jumpProgram]
    simp
  exact prepare_symbol wellFormed_jumpProgram hsymbol rfl 0

theorem withsApplied_jumpProgram : (jumpProgram escaping).WithsApplied := by
  intro j hj dest hdest hc
  rw [shortCircuit_jumpProgram] at hdest
  split at hdest
  · cases hdest
    cases hc
  · cases hdest

/-- The code of the jump is generated if its target does not escape, and only then. -/
theorem generateProgram_answers_jump :
    (∃ F, initializeProgram (jumpProgram false) [] 5 = some F ∧
      ∃ k listing, generateProgram (jumpProgram false) F 0 k = some listing) ∧
    ∃ F, initializeProgram (jumpProgram true) [] 5 = some F ∧
      ∀ k, generateProgram (jumpProgram true) F 0 k = none := by
  obtain ⟨F, hF⟩ := Option.isSome_iff_exists.mp
    (show (initializeProgram (jumpProgram false) [] 5).isSome = true from rfl)
  obtain ⟨F', hF'⟩ := Option.isSome_iff_exists.mp
    (show (initializeProgram (jumpProgram true) [] 5).isSome = true from rfl)
  refine ⟨⟨F, hF, ?_⟩, F', hF', ?_⟩
  · apply (generateProgram_answers_iff wellFormed_jumpProgram withsApplied_jumpProgram hF 0).mpr
    exact fun _ _ c _ => escapes_jumpProgram c.id
  · intro k
    by_contra hsome
    obtain ⟨listing, hsome⟩ := Option.ne_none_iff_exists'.mp hsome
    have hd := (generateProgram_answers_iff wellFormed_jumpProgram withsApplied_jumpProgram
      hF' 0).mp ⟨k, listing, hsome⟩ (calledJump true) (.root List.mem_cons_self)
        (jumpTarget true) rfl
    rw [escapes_jumpProgram] at hd
    cases hd

end L2.SelfHost
