import L2.Fuel
import L2.SelfHost.Calls
import L2.SelfHost.GenerateProgram

/-!
# Which expressions are generated

The generators call `generate-expression` for expressions below their own only.  What the
calls come to from the top of a program on is `Reached`, and the code of a program is
generated exactly if everything that is reached has a generator.
-/

namespace L2.SelfHost

open Graph

variable {p : Program} {st : Store} {raw : Nat} {n x : Code}

/-! ## The calls of a generator -/

/-- The expressions that `generate-expression` is called for. -/
def expressionsOf (ps : List Piece) : List Code :=
  ps.filterMap fun
    | .expression e => some e
    | .instr _ => none

@[simp] theorem expressionsOf_nil : expressionsOf [] = [] := rfl

@[simp] theorem expressionsOf_expression (e : Code) (ps : List Piece) :
    expressionsOf (.expression e :: ps) = e :: expressionsOf ps := rfl

@[simp] theorem expressionsOf_instr (i : ListedInstr) (ps : List Piece) :
    expressionsOf (.instr i :: ps) = expressionsOf ps := rfl

@[simp] theorem expressionsOf_plain (code : InstrCode) (operands : List Operand)
    (ps : List Piece) : expressionsOf (.plain code operands :: ps) = expressionsOf ps := rfl

@[simp] theorem expressionsOf_append (ps qs : List Piece) :
    expressionsOf (ps ++ qs) = expressionsOf ps ++ expressionsOf qs :=
  List.filterMap_append ..

theorem expressionsOf_map_expression (es : List Code) :
    expressionsOf (es.map .expression) = es := by
  induction es with
  | nil => rfl
  | cons e es ih => exact congrArg (e :: ·) ih

theorem expressionsOf_map {α : Type} {f : α → Piece} (h : ∀ a, expressionsOf [f a] = [])
    (as : List α) : expressionsOf (as.map f) = [] := by
  induction as with
  | nil => rfl
  | cons a as ih =>
    show expressionsOf ([f a] ++ as.map f) = []
    rw [expressionsOf_append, h, ih]
    rfl

theorem expressionsOf_flatMap {α : Type} {f : α → List Piece} (h : ∀ a, expressionsOf (f a) = [])
    (as : List α) : expressionsOf (as.flatMap f) = [] := by
  induction as with
  | nil => rfl
  | cons a as ih =>
    rw [List.flatMap_cons, expressionsOf_append, h, ih]
    rfl

@[simp] theorem expressionsOf_moveBndgBndg (dst src : BndgId) (tmp : Register) :
    expressionsOf (moveBndgBndg st raw dst src tmp) = [] := expressionsOf_map (fun _ => rfl) _

@[simp] theorem expressionsOf_moveRegisterBndg (dst : Register) (src : BndgId) :
    expressionsOf (moveRegisterBndg st raw dst src) = [] := by
  unfold moveRegisterBndg
  split <;> rfl

@[simp] theorem expressionsOf_moveBndgRegister (dst : BndgId) (src : Register) :
    expressionsOf (moveBndgRegister st raw dst src) = [] := by
  unfold moveBndgRegister
  split <;> rfl

@[simp] theorem expressionsOf_generateParams (offset : X86.Word) (bs : List BndgId) :
    expressionsOf (generateParams st raw offset bs) = [] := by
  induction bs generalizing offset with
  | nil => rfl
  | cons b bs ih => exact ih _

@[simp] theorem expressionsOf_bufferToDest (reg : Register) (offset : X86.Word) (es : List Code) :
    expressionsOf (generateBufferToDest st raw reg offset es) = [] := by
  induction es generalizing offset with
  | nil => rfl
  | cons e es ih => exact ih _

@[simp] theorem expressionsOf_storeContinuation (m : NodeId) (ref : BndgId) :
    expressionsOf (generateStoreContinuation st raw m ref) = [] := rfl

@[simp] theorem expressionsOf_loadContinuation (reg : Register) :
    expressionsOf (generateLoadContinuation reg) = [] := rfl

@[simp] theorem expressionsOf_argumentMoves (arguments : List Code) (params : List BndgId) :
    expressionsOf (generateArgumentMoves st raw arguments params) = [] :=
  expressionsOf_flatMap (fun _ => expressionsOf_moveBndgBndg ..) _

@[simp] theorem expressionsOf_testPieces (b : BndgId) :
    expressionsOf (testPieces st raw b) = [] := by
  unfold testPieces
  split <;> rfl

theorem expressionsOf_function (m : NodeId) (ref : BndgId) (body : Code) :
    expressionsOf (generateFunction st raw m ref body) = [body] := by
  have hsave : expressionsOf (saveRegs st m) = [] := expressionsOf_map (fun _ => rfl) _
  have hrestore : expressionsOf (restoreRegs st m) = [] := expressionsOf_map (fun _ => rfl) _
  have hmoves : expressionsOf (generateProloguePieces st raw (st.parameters m)) = [] := by
    unfold generateProloguePieces
    rw [expressionsOf_append, expressionsOf_generateParams,
      expressionsOf_flatMap fun _ => expressionsOf_moveBndgRegister ..]
    rfl
  unfold generateFunction
  simp [hsave, hrestore, hmoves, enterFunction, leaveFunction]

theorem expressionsOf_continuation (m : NodeId) (ref : BndgId) (body : Code) :
    expressionsOf (generateContinuation p st raw m ref body) = [body] := by
  unfold generateContinuation generateBuffer
  split <;> simp

theorem expressionsOf_joinWith (m : NodeId) (param : BndgId) :
    expressionsOf (joinWith st raw m param) = [] := by
  unfold joinWith
  split <;> simp

theorem expressionsOf_with {m : NodeId} {ref : BndgId} {body : Code} {ps : List Piece}
    (h : generateWith p st raw m ref body = some ps) : expressionsOf ps = [body] := by
  obtain ⟨param, _, rfl⟩ := Option.map_eq_some_iff.mp h
  split <;> simp [expressionsOf_joinWith]

theorem expressionsOf_storage (m : NodeId) (ref : BndgId) (arguments : List Code) :
    expressionsOf (generateStorage st raw m ref arguments) = arguments := by
  unfold generateStorage
  simp [expressionsOf_map_expression]

theorem expressionsOf_invoke (m : NodeId) (target : Code) (arguments : List Code) :
    expressionsOf (generateInvoke st raw m target arguments) =
      (if absoluteReferenceSymbol st target then [] else [target]) ++ arguments := by
  have hpush : expressionsOf (generateArgumentPieces st raw (arguments.map st.aug)) = [] := by
    unfold generateArgumentPieces
    rw [expressionsOf_append, expressionsOf_map fun _ => rfl,
      expressionsOf_flatMap fun _ => expressionsOf_moveRegisterBndg ..]
    rfl
  have hdrop : expressionsOf (dropArguments arguments.length) = [] := by
    unfold dropArguments
    split <;> rfl
  unfold generateInvoke generateCall
  split <;> simp [hpush, hdrop, expressionsOf_map_expression]

theorem expressionsOf_intrinsic (g : Generator) (m : Code) (arguments : List Code) :
    expressionsOf (generateIntrinsic st raw g m arguments) =
      intrinsicOperands st g m arguments := by
  unfold generateIntrinsic
  rw [expressionsOf_append, expressionsOf_map_expression, expressionsOf_map fun _ => rfl,
    List.append_nil]

theorem subset_genConds (conds : List Code) (st : Store) (c : Code) :
    conds ⊆ (genConds conds st c).2 := by
  fun_induction genConds conds st c with
  | case1 conds st m condition consequent alternate _ ih =>
    exact fun x hx => ih (List.mem_cons_of_mem _ hx)
  | case2 conds st m condition consequent alternate _ _ ih =>
    exact fun x hx => ih (List.mem_cons_of_mem _ hx)
  | case3 conds st m condition consequent alternate _ _ => exact List.subset_cons_self _ _
  | case4 conds st c _ => exact List.subset_cons_self _ _

theorem expressionsOf_generateTest (m : NodeId) (c : Code) :
    expressionsOf (generateTest st raw m c) = [c] := by
  unfold generateTest jumpPiece
  simp

/-- The conditions of a chain that are generated have been initialized. -/
theorem expressionsOf_genCond (m : NodeId) (c : Code) (conds : List Code) (st' : Store) :
    expressionsOf (genCond st raw m c) ⊆ (genConds conds st' c).2 := by
  fun_induction genConds conds st' c with
  | case1 conds st' k condition consequent alternate hlit ih =>
    cases consequent with
    | literal n value =>
      intro x hx
      have hx : x ∈ condition :: expressionsOf (genCond st raw m alternate) := by
        simpa [genCond, jumpPiece] using hx
      rcases List.mem_cons.mp hx with rfl | hx
      · exact subset_genConds _ _ _ List.mem_cons_self
      · exact ih hx
    | _ => cases hlit
  | case2 conds st' k condition consequent alternate hcons hlit ih =>
    cases alternate with
    | literal n value =>
      intro x hx
      have hx : x ∈ condition :: expressionsOf (genCond st raw m consequent) := by
        cases consequent with
        | literal _ _ => exact absurd rfl hcons
        | _ => simpa [genCond, jumpPiece] using hx
      rcases List.mem_cons.mp hx with rfl | hx
      · exact subset_genConds _ _ _ List.mem_cons_self
      · exact ih hx
    | _ => cases hlit
  | case3 conds st' k condition consequent alternate hcons halt =>
    have heq : genCond st raw m (.ifExpr k condition consequent alternate) =
        generateTest st raw m (.ifExpr k condition consequent alternate) := by
      cases consequent with
      | literal _ _ => exact absurd rfl hcons
      | _ =>
        cases alternate with
        | literal _ _ => exact absurd rfl halt
        | _ => rfl
    rw [heq, expressionsOf_generateTest]
    exact List.cons_subset_cons _ (List.nil_subset _)
  | case4 conds st' c hif =>
    cases c with
    | literal n value =>
      unfold genCond
      split
      · exact List.nil_subset _
      · exact List.nil_subset _
    | ifExpr k condition consequent alternate =>
      exact absurd rfl (hif k condition consequent alternate)
    | _ =>
      intro x hx
      have hx : x ∈ expressionsOf (generateTest st raw m _) := hx
      rw [expressionsOf_generateTest] at hx
      exact List.mem_cons.mpr (.inl (List.mem_singleton.mp hx))

/-! ## Jumps -/

/-- The arguments of a jump that is not in the place of a value are all generated, with the
target or with the body of a target that does not escape. -/
theorem expressionsOf_jump {m : NodeId} {target : Code} {arguments : List Code} {ps : List Piece}
    (h : generateJump p st raw m target arguments = some ps) (hx : x ∈ expressionsOf ps) :
    x ∈ arguments ∨ x = target ∨ ∃ k ref params, target = .continuation k ref params x := by
  unfold generateJump at h
  dsimp only at h
  split at h
  · next pieces hdirect =>
    cases h
    split at hdirect
    · next k ref params body =>
      split at hdirect
      · cases hdirect
      · cases hdirect
        have hx : x ∈ arguments ∨ x = body := by
          simpa [expressionsOf_map_expression] using hx
        rcases hx with hx | rfl
        · exact .inl hx
        · exact .inr (.inr ⟨k, ref, params, rfl⟩)
    · cases hdirect
  · split at h
    · obtain ⟨arg, harg, rfl⟩ := Option.map_eq_some_iff.mp h
      have hx : x = arg := by simpa using hx
      rw [hx]
      exact .inl (List.mem_of_mem_head? harg)
    · split at h
      · cases h
        have hx : x ∈ (if target.isContinuation then [target] else []) ++ arguments := by
          split at hx
          · next hc =>
            rw [if_pos hc]
            simpa [expressionsOf_map_expression] using hx
          · next hc =>
            rw [if_neg hc]
            simpa [expressionsOf_map_expression] using hx
        rcases List.mem_append.mp hx with hx | hx
        · split at hx
          · exact .inr (.inl (List.mem_singleton.mp hx))
          · cases hx
        · exact .inl hx
      · cases h
        have hx : x ∈ arguments ∨ x = target := by
          simpa [expressionsOf_map_expression] using hx
        exact hx.imp_right .inl

/-! ## What is below -/

theorem mem_baseOf {arg : Code} (h : x ∈ (baseOf arg).toList) : x ∈ arg.inside := by
  have h : baseOf arg = some x := Option.mem_toList.mp h
  unfold baseOf at h
  apply Code.child_inside
  split at h
  · cases h
    simp [Code.children]
  · cases h
    simp [Code.children]
  · cases h

theorem intrinsicOperands_inside {g : Generator} {m : Code} {arguments : List Code}
    (hx : x ∈ intrinsicOperands st g m arguments) : x ∈ Forest.nodesOf arguments := by
  have hself : ∀ a ∈ arguments, a ∈ Forest.nodesOf arguments :=
    fun a ha => Forest.mem_nodesOf.mpr ⟨a, ha, Forest.mem_nodes_self a⟩
  have hbase : ∀ a ∈ arguments, x ∈ (baseOf a).toList → x ∈ Forest.nodesOf arguments :=
    fun a ha hb => Forest.mem_nodesOf.mpr ⟨a, ha, Code.inside_subset (mem_baseOf hb)⟩
  unfold intrinsicOperands at hx
  split at hx
  · next arg1 =>
    split at hx
    · exact hbase arg1 List.mem_cons_self hx
    · exact hself x hx
    · cases hx
  · next arg1 arg2 =>
    split at hx
    · split at hx
      · rcases List.mem_cons.mp hx with rfl | hx
        · exact hself x (by simp)
        · exact hbase arg1 List.mem_cons_self hx
      · cases hx
    · exact hself x (List.mem_cons.mpr (.inl (List.mem_singleton.mp hx)))
    · exact hself x hx
    · cases hx
  · cases hx

/-- A generator only calls `generate-expression` for what is below the expression. -/
theorem expressionsOf_inside {g : ExprGenerator} {ps : List Piece}
    (h : piecesOf p st raw n g = some ps) (hx : x ∈ expressionsOf ps) : x ∈ n.inside := by
  have hchild : x ∈ n.children → x ∈ n.inside := Code.child_inside
  unfold piecesOf at h
  split at h
  · cases h
    rw [expressionsOf_function] at hx
    exact hchild hx
  · cases h
    rw [expressionsOf_continuation] at hx
    exact hchild hx
  · rw [expressionsOf_with h] at hx
    exact hchild hx
  · cases h
    rw [expressionsOf_storage] at hx
    exact hchild hx
  · rcases expressionsOf_jump h hx with hx | rfl | ⟨k, ref, params, rfl⟩
    · exact hchild (List.mem_cons_of_mem _ hx)
    · exact hchild List.mem_cons_self
    · exact Forest.inside_of_mem (Code.inside_subset (Code.child_inside List.mem_cons_self))
        (Code.child_inside (List.mem_singleton.mpr rfl))
  · cases h
    rw [expressionsOf_invoke] at hx
    apply hchild
    rcases List.mem_append.mp hx with hx | hx
    · split at hx
      · cases hx
      · exact List.mem_cons.mpr (.inl (List.mem_singleton.mp hx))
    · exact List.mem_cons_of_mem _ hx
  · next m condition consequent alternate =>
    cases h
    have hx : x ∈ expressionsOf (genCond st raw m condition) ∨ x = consequent ∨ x = alternate := by
      simpa [generateOptimizedIf, generateBranch] using hx
    rcases hx with hx | rfl | rfl
    · have hconds := (genConds_exprs [] st condition).1.subset
        (Forest.mem_nodesOf.mpr ⟨x, expressionsOf_genCond m condition [] st hx,
          Forest.mem_nodes_self x⟩)
      rw [Forest.nodesOf, List.flatMap_nil, List.append_nil] at hconds
      exact Forest.mem_nodesOf.mpr ⟨condition, List.mem_cons_self, hconds⟩
    · exact hchild (List.mem_cons_of_mem _ List.mem_cons_self)
    · exact hchild (List.mem_cons_of_mem _ (List.mem_cons_of_mem _ List.mem_cons_self))
  · cases h
    have hx : x ∈ expressionsOf (generateConstrain st raw _ _) := hx
    unfold generateConstrain at hx
    rw [expressionsOf_expression, expressionsOf_moveBndgBndg] at hx
    exact hchild hx
  · cases h
    rw [expressionsOf_map fun _ => rfl] at hx
    cases hx
  · cases h
    rw [expressionsOf_map fun _ => rfl] at hx
    cases hx
  · next g m target arguments =>
    cases h
    rw [expressionsOf_intrinsic] at hx
    exact List.mem_append_right _ (intrinsicOperands_inside hx)
  · cases h

/-! ## What is reached -/

/-- What `generate-expression` is called for from the top of the program on. -/
inductive Reached (p : Program) (st : Store) (raw : Nat) : Code → Prop
  | root {e : Code} (h : e ∈ p.exprs) : Reached p st raw e
  | call {n x : Code} {ps : List Piece} (h : Reached p st raw n)
      (hps : pieces p st raw n = some ps) (hx : x ∈ expressionsOf ps) : Reached p st raw x

theorem pieces_inside {ps : List Piece} (h : pieces p st raw n = some ps)
    (hx : x ∈ expressionsOf ps) : x ∈ n.inside := by
  obtain ⟨g, _, h⟩ := Option.bind_eq_some_iff.mp h
  exact expressionsOf_inside h hx

theorem Reached.mem_nodes (h : Reached p st raw n) : ∃ e ∈ p.exprs, n ∈ e.nodes := by
  induction h with
  | root h => exact ⟨_, h, Forest.mem_nodes_self _⟩
  | call _ hps hx ih =>
    obtain ⟨e, he, hn⟩ := ih
    exact ⟨e, he, Forest.nodes_subset hn (Code.inside_subset (pieces_inside hps hx))⟩

theorem mem_expressionsOf {ps : List Piece} :
    x ∈ expressionsOf ps ↔ Piece.expression x ∈ ps := by
  induction ps with
  | nil => simp
  | cons piece ps ih =>
    cases piece with
    | expression e => simp [ih]
    | instr i => simp [ih]

theorem stable_generateExpression : Fuel.Stable (generateExpression p st raw) := by
  intro k
  induction k with
  | zero =>
    intro n code h
    cases h
  | succ k ih =>
    intro n code h
    obtain ⟨ps, hps, h⟩ := Option.bind_eq_some_iff.mp h
    obtain ⟨codes, hcodes, h⟩ := Option.bind_eq_some_iff.mp h
    refine Option.bind_eq_some_iff.mpr ⟨ps, hps, Option.bind_eq_some_iff.mpr ⟨codes, ?_, h⟩⟩
    apply Fuel.mapM_mono _ hcodes
    intro piece c hc
    cases piece with
    | expression e => exact ih e c hc
    | instr i => exact hc

theorem stable_generatePiece :
    Fuel.Stable fun k => generatePiece (generateExpression p st raw k) := by
  intro k piece code h
  cases piece with
  | expression e => exact stable_generateExpression k e code h
  | instr i => exact h

/-- The code of an expression is generated if everything has a generator that is reached
from it. -/
theorem exists_generateExpression (e : Code) : ∀ n ∈ e.nodes, Reached p st raw n →
    (∀ x, Reached p st raw x → pieces p st raw x ≠ none) →
      ∃ k code, generateExpression p st raw k n = some code := by
  induction e using Forest.induction with
  | step e ih =>
    intro n hn hreached h
    rcases Code.mem_nodes_iff.mp hn with hn | rfl
    · obtain ⟨c, hc, hn⟩ := Forest.mem_nodesOf.mp hn
      exact ih c hc n hn hreached h
    · obtain ⟨ps, hps⟩ := Option.ne_none_iff_exists'.mp (h n hreached)
      have hall : ∀ piece ∈ ps, ∃ k code,
          generatePiece (generateExpression p st raw k) piece = some code := by
        intro piece hpiece
        cases piece with
        | expression x =>
          have hx : x ∈ expressionsOf ps := mem_expressionsOf.mpr hpiece
          obtain ⟨c, hc, hxc⟩ := Forest.mem_nodesOf.mp (pieces_inside hps hx)
          exact ih c hc x hxc (.call hreached hps hx) h
        | instr i => exact ⟨0, [i], rfl⟩
      obtain ⟨k, codes, hcodes⟩ := Fuel.exists_mapM_of_forall stable_generatePiece hall
      refine ⟨k + 1, codes.flatten, ?_⟩
      show (pieces p st raw n).bind _ = _
      rw [hps, Option.bind_some, hcodes]
      rfl

/-- Everything that is reached from what is generated has a generator. -/
theorem answers_call {k : Nat} {code : List ListedInstr}
    (hcode : generateExpression p st raw k n = some code) :
    ∃ ps, pieces p st raw n = some ps ∧ ∀ x ∈ expressionsOf ps,
      ∃ k code, generateExpression p st raw k x = some code := by
  cases k with
  | zero => cases hcode
  | succ k =>
    obtain ⟨ps, hps, hcode⟩ := Option.bind_eq_some_iff.mp hcode
    obtain ⟨codes, hcodes, _⟩ := Option.bind_eq_some_iff.mp hcode
    refine ⟨ps, hps, ?_⟩
    intro x hx
    obtain ⟨code, hx⟩ := Fuel.exists_of_mapM hcodes (mem_expressionsOf.mp hx)
    exact ⟨k, code, hx⟩

theorem exists_generateAll {es : List Code}
    (h : ∀ e ∈ es, ∃ k code, generateExpression p st raw k e = some code) :
    ∃ k listing, generateAll p st raw k es = some listing := by
  have hmono : ∀ es k k' listing, k ≤ k' → generateAll p st raw k es = some listing →
      generateAll p st raw k' es = some listing := by
    intro es
    induction es with
    | nil => exact fun _ _ _ _ h => h
    | cons e es ih =>
      intro k k' listing hle h
      obtain ⟨code, hcode, h⟩ := Option.bind_eq_some_iff.mp h
      obtain ⟨listing', hrest, h⟩ := Option.bind_eq_some_iff.mp h
      exact Option.bind_eq_some_iff.mpr ⟨code, stable_generateExpression.le hle hcode,
        Option.bind_eq_some_iff.mpr ⟨listing', ih k k' listing' hle hrest, h⟩⟩
  induction es with
  | nil => exact ⟨0, _, rfl⟩
  | cons e es ih =>
    obtain ⟨k, code, hcode⟩ := h e List.mem_cons_self
    obtain ⟨k', listing, hrest⟩ := ih fun x hx => h x (List.mem_cons_of_mem _ hx)
    have hcode := stable_generateExpression.le (Nat.le_max_left k k') hcode
    have hrest := hmono es k' (max k k') listing (Nat.le_max_right k k') hrest
    unfold generateAll
    by_cases hf : e.isFunction = true
    · refine ⟨max k k', { listing with funcSecs :=
        (e.reference.name, code) :: listing.funcSecs }, ?_⟩
      rw [hcode, hrest]
      exact if_pos hf
    · refine ⟨max k k', { listing with instrs := code ++ listing.instrs }, ?_⟩
      rw [hcode, hrest]
      exact if_neg hf

theorem answers_of_generateAll {k : Nat} {es : List Code} {listing : Listing}
    (h : generateAll p st raw k es = some listing) {e : Code} (he : e ∈ es) :
    ∃ code, generateExpression p st raw k e = some code := by
  induction es generalizing listing with
  | nil => cases he
  | cons e' es ih =>
    obtain ⟨code, hcode, h⟩ := Option.bind_eq_some_iff.mp h
    obtain ⟨listing', hrest, _⟩ := Option.bind_eq_some_iff.mp h
    rcases List.mem_cons.mp he with rfl | he
    · exact ⟨code, hcode⟩
    · exact ih hrest he

/-- The code of a program is generated exactly if everything that is reached has a
generator. -/
theorem generateProgram_iff : (∃ k listing, generateProgram p st raw k = some listing) ↔
    ∀ n, Reached p st raw n → pieces p st raw n ≠ none := by
  constructor
  · intro h n hn
    obtain ⟨k, listing, h⟩ := h
    have hanswers : ∃ k code, generateExpression p st raw k n = some code := by
      induction hn with
      | root he => exact ⟨k, answers_of_generateAll h he⟩
      | call _ hps hx ih =>
        obtain ⟨_, _, hcode⟩ := ih
        obtain ⟨ps, hps', hcalls⟩ := answers_call hcode
        rw [hps] at hps'
        cases hps'
        exact hcalls _ hx
    obtain ⟨_, _, hcode⟩ := hanswers
    obtain ⟨ps, hps, _⟩ := answers_call hcode
    rw [hps]
    exact Option.some_ne_none ps
  · intro h
    apply exists_generateAll
    exact fun e he => exists_generateExpression e e (Forest.mem_nodes_self e) (.root he) h

end L2.SelfHost
