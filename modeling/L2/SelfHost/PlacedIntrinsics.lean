import L2.SelfHost.ArithmeticSafe
import L2.SelfHost.Located

/-!
# Arithmetic in initialized programs

The places of an arithmetic intrinsic in a program are those that the initializers have given
its operands and its value.
-/

namespace L2.SelfHost

open X86 (Word Reg signed)
open Graph

variable {p : Program} {inits : List Intrinsics} {n c : Code} {st F : Store} {name : String}
  {op : Operation} {g : Generator}

/-! ## Operands -/

theorem bindingAug_view (st : Store) (e : Code) : (e.view st).bindingAug = st.view (st.aug e) := by
  cases e <;> rfl

theorem placed_of_sound {b : Bndg} (hsize : b.size = wordSize) (hstate : b.state = .defined)
    (hsound : b.storage.Sound) (hnil : b.storage ≠ .nil)
    (hframe : ∀ o, b.storage = .frameRelative o → signed 4 o = o) :
    Placed stackRegisters b ∧ b.Aligned := by
  constructor
  · refine ⟨hsize, ?_⟩
    cases hst : b.storage with
    | register reg =>
      rw [hst] at hsound
      exact hsound
    | frameRelative o => exact ⟨hstate, hframe o hst⟩
    | absolute _ => trivial
    | nil => exact hnil hst
  · intro o ho
    rw [ho] at hsound
    exact hsound

/-- What has been initialized is placed, if it has a place. -/
theorem Located.placed_view (hl : Located p F) (hs : Scoped p F) (hc : c ∈ p.nodes)
    (hgen : F.generator c.id ≠ none) (hnil : (c.view F).bindingAug.storage ≠ .nil)
    (hframe : ∀ o, (c.view F).bindingAug.storage = .frameRelative o → signed 4 o = o) :
    Placed stackRegisters (c.view F).bindingAug ∧ (c.view F).bindingAug.Aligned := by
  rw [bindingAug_view] at *
  exact placed_of_sound (hl.size c hc hgen) (state_value (hs.aug c hc).1)
    (hl.sound.storage (F.aug c)) hnil hframe

/-- An invocation with the generator of an intrinsic has been initialized with what that
starts with. -/
theorem LoopOk.intrinsic (hp : p.WellFormed) (hok : LoopOk p inits p.exprs st F)
    (hn : n ∈ p.nodes) (hg : F.generator n.id = some (.intrinsic g)) :
    ∃ k target arguments, n = .invoke k target arguments ∧
      ∀ c ∈ intrinsicOperands F g n arguments, c ∈ p.nodes ∧ F.generator c.id ≠ none := by
  obtain ⟨e, -, -, hrun⟩ := hok.runs n hn (hg ▸ Option.some_ne_none _)
  rcases hrun.cases hp with ⟨_, _, _, hgen⟩ | ⟨_, _, _, hgen⟩ | ⟨st, g', call, _, _, _, hrun⟩
  · rw [hg] at hgen
    cases hgen
  · rw [hg] at hgen
    cases hgen
  · have hcall := hrun.called
    have hg' : some (ExprGenerator.intrinsic g) = some g' := hg.symm.trans hrun.generator
    cases hg'
    obtain ⟨k, target, arguments, rfl, hcall⟩ : ∃ k target arguments,
        n = .invoke k target arguments ∧ initializeIntrinsic st n g arguments = some call := by
      cases n with
      | invoke k target arguments =>
        unfold callOf at hcall
        dsimp only at hcall
        split at hcall
        · obtain ⟨_, hcall, heq⟩ := Option.map_eq_some_iff.mp hcall
          cases heq
          exact ⟨k, target, arguments, rfl, hcall⟩
        · cases hcall
      | withExpr k ref body | jump k target arguments =>
        obtain ⟨_, _, heq⟩ := Option.map_eq_some_iff.mp hcall
        cases heq
      | function _ _ _ _ | continuation _ _ _ _ | storage _ _ _ | ifExpr _ _ _ _ | constrain _ _
      | symbol _ _ | literal _ _ => cases hcall
    refine ⟨k, target, arguments, rfl, fun c hc => ?_⟩
    have hexprs : c ∈ call.exprs := intrinsicOperands_subset hcall hc
    exact ⟨hrun.ready.inside_mem (hrun.waiting.inside c hexprs), hrun.generated hp hexprs⟩

theorem matchUndefinedInvoke_invoke {k : NodeId} {target : Code} {codes : List Code}
    {arguments : List Expr}
    (h : matchUndefinedInvoke ((Code.invoke k target codes).view st) = some (name, arguments)) :
    arguments = viewArguments st codes := by
  cases target with
  | symbol m binding =>
    have h : (if (st.symbolReference m).state = .undefined then some (_, viewArguments st codes)
      else none) = some (name, arguments) := h
    split at h
    · cases h
      rfl
    · cases h
  | literal _ _ | storage _ _ _ | function _ _ _ _ | continuation _ _ _ _ | withExpr _ _ _
  | invoke _ _ _ | jump _ _ _ | ifExpr _ _ _ _ | constrain _ _ => cases h

/-- The forms with an offset are not those of arithmetic. -/
theorem initialize_arithmetic {n : Expr} {arguments : List Expr}
    (hn : matchUndefinedInvoke n = some (name, arguments)) (hop : operationOf name = some op) :
    initializeArithmeticIntrinsics n =
      (initializeUnary n <|> initializeRightImm n <|> initializeBinary n) := by
  have hnames := not_setName hop
  have hget : initializeGetBaseOffset n = none := by
    unfold initializeGetBaseOffset matchGetBaseOffset
    rw [hn]
    match arguments with
    | [] | _ :: _ :: _ => rfl
    | [a] =>
      dsimp only
      cases matchBaseOffset a with
      | none => rfl
      | some p => exact if_neg fun h => hnames.2 h.2
  have hset : initializeSetBaseOffset n = none := by
    unfold initializeSetBaseOffset matchSetBaseOffset
    rw [hn]
    match arguments with
    | [] | [_] | _ :: _ :: _ :: _ => rfl
    | [a, b] =>
      dsimp only
      cases matchBaseOffset a with
      | none => rfl
      | some p => exact if_neg hnames.1
  unfold initializeArithmeticIntrinsics
  rw [hget, hset]
  rfl

/-- With another number of arguments an arithmetic operation is no intrinsic. -/
theorem initialize_arguments {n : Expr} {arguments : List Expr}
    (hn : matchUndefinedInvoke n = some (name, arguments)) (hop : operationOf name = some op)
    (hlen : arguments.length ≠ op.arity) : initializeArithmeticIntrinsics n = none := by
  have hunary : initializeUnary n = none := by
    unfold initializeUnary matchUndefinedUnaryInvoke
    rw [hn]
    match arguments with
    | [] | _ :: _ :: _ => rfl
    | [a] =>
      apply if_neg
      rintro (hget | rfl)
      · exact (not_setName hop).2 hget
      · cases hop
        exact hlen rfl
  have hright : initializeRightImm n = none := by
    unfold initializeRightImm matchUndefinedBinaryRightImmInvoke
    rw [hn]
    match arguments with
    | [] | [_] => rfl
    | _ :: b :: _ :: _ => cases b <;> rfl
    | [a, b] =>
      rcases arity_cases hop with h2 | ⟨rfl, rfl⟩
      · exact absurd h2.symm hlen
      · cases b <;> rfl
  have hbinary : initializeBinary n = none := by
    unfold initializeBinary matchUndefinedBinaryInvoke
    rw [hn]
    match arguments with
    | [] | [_] | _ :: _ :: _ :: _ => rfl
    | [a, b] =>
      rcases arity_cases hop with h2 | ⟨rfl, rfl⟩
      · exact absurd h2.symm hlen
      · rfl
  rw [initialize_arithmetic hn hop, hunary, hright, hbinary]
  rfl

theorem length_arguments {n : Expr} {arguments : List Expr}
    (hg : initializeArithmeticIntrinsics n = some g)
    (hn : matchUndefinedInvoke n = some (name, arguments)) (hop : operationOf name = some op) :
    arguments.length = op.arity := by
  by_contra hlen
  rw [initialize_arguments hn hop hlen] at hg
  cases hg

theorem generator_ne {n : Expr} {arguments : List Expr}
    (hg : initializeArithmeticIntrinsics n = some g)
    (hn : matchUndefinedInvoke n = some (name, arguments)) (hop : operationOf name = some op) :
    g ≠ .getBaseOffset ∧ g ≠ .setBaseOffset := by
  have hlen := length_arguments hg hn hop
  rcases arity_cases hop with h2 | ⟨rfl, rfl⟩
  · rw [h2] at hlen
    obtain ⟨a, b, rfl⟩ := List.length_eq_two.mp hlen
    rw [initialize_operation hop (matchBinary_of_invoke hn) h2] at hg
    split at hg
    · cases hg
      exact ⟨nofun, nofun⟩
    · cases hg
      exact ⟨nofun, nofun⟩
  · obtain ⟨a, rfl⟩ := List.length_eq_one_iff.mp hlen
    rw [initialize_complement hn] at hg
    cases hg
    exact ⟨nofun, nofun⟩

/-- The operands of the intrinsic are those that its generator starts with. -/
theorem operands_view {k : NodeId} {target : Code} {codes : List Code}
    (hg : initializeArithmeticIntrinsics ((Code.invoke k target codes).view st) = some g)
    {arguments : List Expr}
    (hn : matchUndefinedInvoke ((Code.invoke k target codes).view st) = some (name, arguments))
    (hbase : g ≠ .getBaseOffset ∧ g ≠ .setBaseOffset) {e : Expr}
    (he : e ∈ operands ((Code.invoke k target codes).view st)) :
    ∃ c ∈ intrinsicOperands st g (.invoke k target codes) codes, e = c.view st := by
  have harguments := matchUndefinedInvoke_invoke hn
  unfold operands operandsOf matchUndefinedUnaryInvoke matchUndefinedBinaryInvoke
    matchUndefinedBinaryRightImmInvoke at he
  rw [hg, hn, harguments] at he
  match codes, g with
  | _, .getBaseOffset => exact absurd rfl hbase.1
  | _, .setBaseOffset => exact absurd rfl hbase.2
  | [a], .unary => exact ⟨a, List.mem_cons_self, List.mem_singleton.mp he⟩
  | [a, b], .rightImm =>
    refine ⟨a, List.mem_cons_self, ?_⟩
    cases b <;> first | exact List.mem_singleton.mp he | cases he
  | [a, b], .binary =>
    rcases List.mem_pair.mp he with rfl | rfl
    · exact ⟨a, List.mem_cons_self, rfl⟩
    · exact ⟨b, List.mem_cons_of_mem _ List.mem_cons_self, rfl⟩
  | [], .unary | [], .rightImm | [], .binary | [_], .rightImm | [_], .binary | [_, _], .unary
  | _ :: _ :: _ :: _, .unary | _ :: _ :: _ :: _, .binary => cases he
  | _ :: b :: _ :: _, .rightImm => cases b <;> cases he

/-! ## Every placement of a program -/

section
variable (hp : p.WellFormed) {fuel : Nat} (h : initializeProgram p inits fuel = some F)
  (hn : n ∈ p.nodes) (hg : F.generator n.id = some (.intrinsic g))
include hp h hn hg

theorem initialized_intrinsic : initializeArithmeticIntrinsics (n.view F) = some g :=
  (located_initializeProgram hp h).intrinsic n hn g hg

variable {arguments : List Expr} (hm : matchUndefinedInvoke (n.view F) = some (name, arguments))
  (hop : operationOf name = some op)
  (hplaced : ∀ b ∈ operandBndgs (n.view F), b.storage ≠ .nil)
  (hframe : ∀ b ∈ operandBndgs (n.view F), ∀ o, b.storage = .frameRelative o → signed 4 o = o)
include hm hop hplaced hframe

/-- The result and the operands are where the code for them may have them. -/
theorem placed_initialized :
    ∀ b ∈ operandBndgs (n.view F), Placed stackRegisters b ∧ b.Aligned := by
  have hok := initializeProgram_ok hp h
  have hl := located_initializeProgram hp h
  have hinit := initialized_intrinsic hp h hn hg
  intro b hb
  rcases List.mem_cons.mp hb with rfl | hmem
  · exact hl.placed_view hok.inv hn (hg ▸ Option.some_ne_none _) (hplaced _ hb) (hframe _ hb)
  · obtain ⟨e, he, rfl⟩ := List.mem_map.mp hmem
    obtain ⟨k, target, codes, rfl, hcodes⟩ := hok.intrinsic hp hn hg
    obtain ⟨c, hc, rfl⟩ := operands_view hinit hm (generator_ne hinit hm hop) he
    obtain ⟨hcp, hgen⟩ := hcodes c hc
    exact hl.placed_view hok.inv hcp hgen (hplaced _ hb) (hframe _ hb)

theorem computes_iff_initialized :
    Computes (n.view F) name op ↔ Supported (n.view F) op := by
  have hplaces := placed_initialized hp h hn hg hm hop hplaced hframe
  have hd := (hplaces _ List.mem_cons_self).1
  have hoperands : ∀ e ∈ operands (n.view F), Placed stackRegisters e.bindingAug :=
    fun e he => (hplaces _ (List.mem_cons_of_mem _ (List.mem_map_of_mem he))).1
  have hlen := length_arguments (initialized_intrinsic hp h hn hg) hm hop
  rcases arity_cases hop with h2 | ⟨rfl, rfl⟩
  · rw [h2] at hlen
    obtain ⟨a, b, rfl⟩ := List.length_eq_two.mp hlen
    exact computes_iff_pair hop hd hoperands hm h2 fun b hb => (hplaces b hb).2
  · obtain ⟨a, rfl⟩ := List.length_eq_one_iff.mp hlen
    exact computes_iff_single hop hd hoperands hm rfl

end

theorem loop_nonempty : "lp" ≠ "" := by decide

theorem count_nonempty : "i" ≠ "" := by decide

theorem minus_nonempty : "-" ≠ "" := by decide

def loopBndg : Scope.Binding := .reference (some ⟨"lp", loop_nonempty⟩) .continuation 1

def countBndg : Scope.Binding := .parameter (some ⟨"i", count_nonempty⟩) .continuation 1 0

/-- `[- i 5]` or `[- 5 i]`. -/
def difference (swapped : Bool) : Code :=
  .invoke 4 (.symbol 5 (.undefined ⟨"-", minus_nonempty⟩))
    (if swapped then [.literal 6 5, .symbol 7 countBndg] else [.symbol 7 countBndg, .literal 6 5])

def countLoop (swapped : Bool) : Code :=
  .continuation 1 (some ⟨"lp", loop_nonempty⟩) [some ⟨"i", count_nonempty⟩]
    (.jump 2 (.symbol 3 loopBndg) [difference swapped])

/-- `{(continuation lp (i) {lp [- i 5]}) 7}`, or the same with `[- 5 i]`. -/
def loopJump (swapped : Bool) : Code := .jump 0 (countLoop swapped) [.literal 8 7]

def loopProgram (swapped : Bool) : Program := analyzed [loopJump swapped]

variable {swapped : Bool}

theorem mem_loopProgram {v : Code} : v ∈ (loopProgram swapped).nodes ↔
    v ∈ [.symbol 5 (.undefined ⟨"-", minus_nonempty⟩), .literal 6 5, .symbol 7 countBndg,
      difference swapped, .symbol 3 loopBndg, .jump 2 (.symbol 3 loopBndg) [difference swapped],
      countLoop swapped, .literal 8 7, loopJump swapped] := by
  cases swapped with
  | false =>
    show v ∈ [_, _, _, _, _, _, _, _, _] ↔ _
    simp only [List.mem_cons]
    tauto
  | true =>
    show v ∈ [_, _, _, _, _, _, _, _, _] ↔ _
    simp only [List.mem_cons]
    tauto

theorem symbol_loopProgram {n : NodeId} {b : Scope.Binding}
    (h : Code.symbol n b ∈ (loopProgram swapped).nodes) :
    n = 5 ∧ b = .undefined ⟨"-", minus_nonempty⟩ ∨ n = 7 ∧ b = countBndg ∨
      n = 3 ∧ b = loopBndg := by
  rw [mem_loopProgram] at h
  simp only [List.mem_cons, Code.symbol.injEq, List.not_mem_nil, or_false] at h
  rcases h with h | h | h | h | h | h | h | h | h
  · exact .inl h
  · cases h
  · exact .inr (.inl h)
  · cases h
  · exact .inr (.inr h)
  all_goals cases h

theorem wellFormed_loopProgram : (loopProgram swapped).WellFormed := by
  have hloop : countLoop swapped ∈ (loopProgram swapped).nodes := by
    rw [mem_loopProgram]
    simp
  have hscoped : WellScoped [loopJump swapped] := by
    refine ⟨?_, ?_, ?_⟩
    · cases swapped <;> decide
    · intro n b hn hm
      rcases symbol_loopProgram hn with ⟨rfl, rfl⟩ | ⟨rfl, rfl⟩ | ⟨rfl, rfl⟩
      · cases hm
      · refine ⟨Option.some_ne_none _, _, hloop, List.mem_cons_self, ?_⟩
        cases swapped with
        | false =>
          show _ ∈ [Code.symbol 3 loopBndg, _, Code.symbol 7 countBndg, _, _, _]
          simp
        | true =>
          show _ ∈ [Code.symbol 3 loopBndg, _, _, Code.symbol 7 countBndg, _, _]
          simp
      · cases hm
    · intro n b hn hm
      rcases symbol_loopProgram hn with ⟨rfl, rfl⟩ | ⟨rfl, rfl⟩ | ⟨rfl, rfl⟩
      · exact .inl ⟨_, rfl⟩
      · cases hm
      · refine .inr ⟨_, hloop, rfl, rfl, fun _ => ?_⟩
        cases swapped <;> exact List.mem_cons_self
  exact hscoped.wellFormed

/-- The places of the difference and of the two operands, with what has been found. -/
def loopPlaces (swapped : Bool) (F : Store) : Bool :=
  F.symbolReference 5 = .named (.undefined ⟨"-", minus_nonempty⟩) &&
  F.generator 4 = some (.intrinsic (if swapped then .binary else .rightImm)) &&
  (F.bndg (F.bindingAug 4)).storage = .register (reg64 (if swapped then 8 else 9)) &&
  (F.bndg (F.bindingAug 6)).storage = (if swapped then .register rax else .nil) &&
  (F.bndg (F.bindingAug 7)).storage = .register (reg64 (if swapped then 8 else 9))

theorem initialized_loopProgram : ∃ F, initializeProgram (loopProgram swapped) [.arithmetic] 6 =
    some F ∧ loopPlaces swapped F = true := by
  apply (Option.any_eq_true _ _).mp
  cases swapped with
  | false => decide +kernel
  | true => decide +kernel

theorem difference_mem : difference swapped ∈ (loopProgram swapped).nodes := by
  rw [mem_loopProgram]
  simp

section
variable (h : initializeProgram (loopProgram swapped) [.arithmetic] 6 = some F)
  (hplaces : loopPlaces swapped F = true)
include hplaces

theorem loopPlaces_iff : (F.symbolReference 5 = .named (.undefined ⟨"-", minus_nonempty⟩) ∧
    F.generator 4 = some (.intrinsic (if swapped then .binary else .rightImm))) ∧
    (F.bndg (F.bindingAug 4)).storage = .register (reg64 (if swapped then 8 else 9)) ∧
    (F.bndg (F.bindingAug 6)).storage = (if swapped then .register rax else .nil) ∧
    (F.bndg (F.bindingAug 7)).storage = .register (reg64 (if swapped then 8 else 9)) := by
  unfold loopPlaces at hplaces
  simp only [Bool.and_eq_true, decide_eq_true_eq] at hplaces
  obtain ⟨⟨⟨hfound, hdst⟩, hfive⟩, hcount⟩ := hplaces
  exact ⟨hfound, hdst, hfive, hcount⟩

theorem matchUndefinedInvoke_difference : matchUndefinedInvoke ((difference swapped).view F) =
    some ("-", viewArguments F (if swapped then [.literal 6 5, .symbol 7 countBndg]
      else [.symbol 7 countBndg, .literal 6 5])) := by
  have href := (loopPlaces_iff hplaces).1.1
  show (if (F.symbolReference 5).state = .undefined then
    some ((F.symbolReference 5).name, _) else none) = _
  rw [href]
  rfl

theorem supported_difference :
    Supported ((difference swapped).view F) (.accumulate .sub (by decide)) ↔ swapped = false := by
  obtain ⟨_, hdst, hfive, hcount⟩ := loopPlaces_iff hplaces
  unfold Supported
  rw [matchUndefinedInvoke_difference hplaces]
  cases swapped with
  | false => exact ⟨fun _ => rfl, fun _ => trivial⟩
  | true =>
    constructor
    · intro hsafe
      have hsafe : (F.bndg (F.bindingAug 4)).storage = (F.bndg (F.bindingAug 6)).storage ∨
        (F.bndg (F.bindingAug 7)).storage ≠ (F.bndg (F.bindingAug 4)).storage ∧ _ := hsafe
      rw [hdst, hfive, hcount] at hsafe
      rcases hsafe with hsame | hother
      · exact absurd hsame (by decide)
      · exact absurd rfl hother.1
    · exact nofun

include h

/-- The result and the operands are in registers. -/
theorem placed_difference : (∀ b ∈ operandBndgs ((difference swapped).view F), b.storage ≠ .nil) ∧
    ∀ b ∈ operandBndgs ((difference swapped).view F), ∀ o,
      b.storage = .frameRelative o → signed 4 o = o := by
  obtain ⟨⟨_, hgen⟩, hdst, hfive, hcount⟩ := loopPlaces_iff hplaces
  have hinit := initialized_intrinsic wellFormed_loopProgram h difference_mem hgen
  have hm := matchUndefinedInvoke_difference hplaces
  have hregister : ∀ b ∈ operandBndgs ((difference swapped).view F),
      ∃ reg, b.storage = .register reg := by
    intro b hb
    rcases List.mem_cons.mp hb with rfl | hb
    · exact ⟨_, hdst⟩
    · obtain ⟨e, he, rfl⟩ := List.mem_map.mp hb
      obtain ⟨c, hc, rfl⟩ := operands_view hinit hm (generator_ne hinit hm rfl) he
      cases swapped with
      | false =>
        rw [List.mem_singleton.mp hc]
        exact ⟨_, hcount⟩
      | true =>
        rcases List.mem_pair.mp hc with rfl | rfl
        · exact ⟨_, hfive⟩
        · exact ⟨_, hcount⟩
  constructor
  · intro b hb
    obtain ⟨reg, hreg⟩ := hregister b hb
    rw [hreg]
    exact nofun
  · intro b hb o ho
    obtain ⟨reg, hreg⟩ := hregister b hb
    rw [hreg] at ho
    cases ho

end

end L2.SelfHost
