import L2.SelfHost.Initialized

/-!
# The search for a free register

`binding-to-register/memory` goes through its table until a register is free, and the loop
does not look at where the table ends.  Every initializer begins with a mask that keeps
`rsp`, `rbp` and all bits that are no registers, and masks only grow.  The call for an
expression at the top begins with an empty one, but it places nothing.
-/

namespace L2.SelfHost

open X86 (Word)
open Graph

/-! ## Where registers are searched for -/

/-- What the loop `init-subs` begins with. -/
def startOf (call : InitCall) (offset : Word) : Initialized :=
  ⟨offset - words (call.exprs.length + call.bndgs.length), call.mask, call.store⟩

/-- What there is once the preferred locations have been tried. -/
def preferredOf (call : InitCall) (depth : Nat) (r : Initialized) : RegUseVec × Store :=
  let exprs := call.exprs.map r.store.aug
  let preferred := tryPreferred (depth + 1) r.inUse (clear (clear r.store exprs) call.bndgs) exprs
  tryPreferred depth preferred.1 preferred.2 call.bndgs

variable (p : Program) (inits : List Intrinsics)

/-- The calls of `initialize-expressions` when a program is compiled, with their offsets and
depths. -/
inductive Called : InitCall → Word → Nat → Prop
  /-- `compile-program` has come to the expression `e`. -/
  | program {before after : List Code} {e : Code} {fuel : Nat} {offset : Word} {st₀ st : Store}
      (hprepare : prepare p (-words 1) (Store.initial p) p.exprs = (offset, st₀))
      (hexprs : p.exprs = before ++ e :: after)
      (hbefore : initializeAll p inits fuel (offset - words 1) st₀ before = some st) :
      Called ⟨assignDepths 0 st e, [e], [], 0⟩ (offset - words 1) 0
  /-- The loop `init-subs` of a call has come to the expression `u`. -/
  | nested {call call' : InitCall} {offset : Word} {depth fuel : Nat} {before after : List Code}
      {u : Code} {r : Initialized} {g : ExprGenerator} (hcalled : Called call offset depth)
      (hexprs : call.exprs = before ++ u :: after)
      (hbefore : initSubs (initializeExpression p inits fuel) (startOf call offset).bottomOffset
        (startOf call offset) before = some r)
      (hcall : callOf p inits r.store u = some (g, call')) :
      Called call' (callOffset u (startOf call offset).bottomOffset r.store) (r.store.depth u.id)

/-- The calls of `binding-to-register/memory` in one of the loops `assign-args`. -/
inductive Asks (depth : Nat) (offset : Word) (inUse : RegUseVec) (st : Store) (us : List BndgId) :
    Store → BndgId → Word → RegUseVec → Prop
  | round {before after : List BndgId} {v : BndgId} {r : RegUseVec × Store}
      (hus : us = before ++ v :: after)
      (hbefore : assignArgs depth offset inUse st before = some r)
      (hcond : depth ≤ r.2.bndgDepth v ∧ ¬ r.2.assigned v ∧ (r.2.bndg v).isRead) :
      Asks depth offset inUse st us r.2 v (offset + words before.length) r.1

/-- The calls of `binding-to-register/memory` when a program is compiled, in a call of
`initialize-expressions` whose loop `init-subs` has come to `r`. -/
inductive Searches : Store → BndgId → Word → RegUseVec → Prop
  | exprs {call : InitCall} {offset o : Word} {depth fuel : Nat} {r : Initialized} {st : Store}
      {b : BndgId} {u : RegUseVec} (hcalled : Called p inits call offset depth)
      (hsubs : initSubs (initializeExpression p inits fuel) (startOf call offset).bottomOffset
        (startOf call offset) call.exprs = some r)
      (hasks : Asks (depth + 1) (offset - words call.exprs.length) (preferredOf call depth r).1
        (preferredOf call depth r).2 (call.exprs.map r.store.aug) st b o u) :
      Searches st b o u
  | bndgs {call : InitCall} {offset o : Word} {depth fuel : Nat} {r : Initialized} {st : Store}
      {b : BndgId} {u : RegUseVec} {s : RegUseVec × Store}
      (hcalled : Called p inits call offset depth)
      (hsubs : initSubs (initializeExpression p inits fuel) (startOf call offset).bottomOffset
        (startOf call offset) call.exprs = some r)
      (hassign : assignArgs (depth + 1) (offset - words call.exprs.length)
        (preferredOf call depth r).1 (preferredOf call depth r).2 (call.exprs.map r.store.aug)
          = some s)
      (hasks : Asks depth (offset - words (call.exprs.length + call.bndgs.length)) s.1 s.2
        call.bndgs st b o u) :
      Searches st b o u

variable {p : Program} {inits : List Intrinsics} {n u v : Code} {st st' st'' : Store}

/-! ## Masks -/

/-- All registers are in use. -/
def allInUse : RegUseVec := 0xFFFFFFFFFFFFFFFF

/-- All bits above 15 are set, and so are those of `rsp` and `rbp`. -/
def Reserves (u : RegUseVec) : Prop :=
  ∀ i < 64, 16 ≤ i ∨ i = 4 ∨ i = 5 → u.getLsbD i = true

instance (u : RegUseVec) : Decidable (Reserves u) := by
  unfold Reserves
  infer_instance

theorem Reserves.or_left {u : RegUseVec} (h : Reserves u) (u' : RegUseVec) :
    Reserves (u ||| u') := by
  intro i hi hor
  rw [BitVec.getLsbD_or, h i hi hor, Bool.true_or]

theorem Reserves.useRegister {u : RegUseVec} (h : Reserves u) (reg : Register) :
    Reserves (useRegister reg u) := by
  intro i hi hor
  unfold SelfHost.useRegister
  rw [BitVec.getLsbD_or, h i hi hor, Bool.or_true]

theorem reserves_plainMask : Reserves plainMask := by decide

theorem reserves_operandMask : Reserves operandMask := by decide

theorem reserves_bodyMask : Reserves bodyMask := by decide

theorem reserves_invokeMask : Reserves invokeMask := by decide

theorem reserves_divisionMask : Reserves divisionMask := by decide

theorem reserves_multiplicationMask : Reserves multiplicationMask := by decide

/-- The search ends at a register that is neither `rsp` nor `rbp`. -/
theorem Reserves.search {u : RegUseVec} (h : Reserves u) (hne : u ≠ allInUse) :
    ∃ reg, (bindingToRegisterMemoryPrefs.find? fun testReg => !registerInUse testReg u) = some reg ∧
      reg ≠ rsp ∧ reg ≠ rbp ∧ registerInUse reg u = false := by
  -- some bit is clear, and it is that of a register in the table
  obtain ⟨i, hi, hclear⟩ : ∃ i < 64, u.getLsbD i = false := by
    by_contra hnone
    apply hne
    apply BitVec.eq_of_getLsbD_eq
    intro i hi
    have hones : ∀ i < 64, allInUse.getLsbD i = true := by decide
    rw [hones i hi]
    by_contra hclear
    exact hnone ⟨i, hi, Bool.eq_false_iff.mpr hclear⟩
  have hlt : i < 16 ∧ i ≠ 4 ∧ i ≠ 5 := by
    refine ⟨?_, ?_, ?_⟩
    all_goals
      by_contra hout
      have hset := h i hi (by omega)
      rw [hclear] at hset
      cases hset
  have htable : ∀ i < 16, ∃ reg ∈ bindingToRegisterMemoryPrefs, number reg = i := by decide
  obtain ⟨reg, hreg, hnum⟩ := htable i hlt.1
  have hfree : registerInUse reg u = false := by
    rw [registerInUse_eq, hnum]
    exact hclear
  have hfind : (bindingToRegisterMemoryPrefs.find? fun testReg =>
      !registerInUse testReg u).isSome := by
    rw [List.find?_isSome]
    exact ⟨reg, hreg, by rw [hfree]; rfl⟩
  obtain ⟨found, hfound⟩ := Option.isSome_iff_exists.mp hfind
  have hnot := List.find?_some hfound
  have hfoundFree : registerInUse found u = false := by simpa using hnot
  refine ⟨found, hfound, ?_, ?_, hfoundFree⟩
  · rintro rfl
    have hnum : number rsp = 4 := rfl
    rw [registerInUse_eq, hnum, h 4 (by omega) (by omega)] at hfoundFree
    cases hfoundFree
  · rintro rfl
    have hnum : number rbp = 5 := rfl
    rw [registerInUse_eq, hnum, h 5 (by omega) (by omega)] at hfoundFree
    cases hfoundFree

/-! ## What initializers leave alone -/

/-- Depths stay, and so do the bindings of expressions that are not below `n`. -/
structure Confined (n : Code) (st st' : Store) : Prop where
  depth : st'.depth = st.depth
  aug : ∀ x, (∀ v ∈ n.inside, v.id ≠ x) → st'.bindingAug x = st.bindingAug x

theorem Confined.refl (n : Code) (st : Store) : Confined n st st := ⟨rfl, fun _ _ => rfl⟩

theorem Confined.trans (h : Confined n st st') (h' : Confined n st' st'') : Confined n st st'' :=
  ⟨h'.depth.trans h.depth, fun x hx => (h'.aug x hx).trans (h.aug x hx)⟩

theorem Confined.mono (h : Confined v st st') (hv : v ∈ n.nodes) : Confined n st st' :=
  ⟨h.depth, fun x hx => h.aug x fun w hw => hx w (Forest.inside_of_mem hv hw)⟩

theorem SameFields.confined (h : SameFields st st') (n : Code) : Confined n st st' := by
  rw [h]
  exact ⟨rfl, fun _ _ => rfl⟩

theorem Confined.setBindingAug (hv : v ∈ n.inside) (st : Store) (b : BndgId) :
    Confined n st (st.setBindingAug v.id b) :=
  ⟨rfl, fun _ hx => Function.update_of_ne (hx v hv).symm _ _⟩

theorem confined_setBindingAugs {us : List Code} (hus : us ⊆ n.inside) (bs : List BndgId)
    (st : Store) : Confined n st (setBindingAugs st us bs) := by
  induction us generalizing st bs with
  | nil => exact Confined.refl n st
  | cons u us ih =>
    cases bs with
    | nil => exact Confined.refl n st
    | cons b bs =>
      have hu := List.cons_subset.mp hus
      exact (Confined.setBindingAug hu.1 st b).trans (ih hu.2 bs _)

theorem confined_coalesceExprBndg (hu : u ∈ n.inside) (st : Store) :
    Confined n st (coalesceExprBndg st u) := by
  unfold coalesceExprBndg
  split
  · split
    · exact Confined.setBindingAug hu st _
    · exact Confined.refl n st
  · exact Confined.refl n st

theorem confined_vreplaceValueBindings (hv : v ∈ n.inside) (replTarget replacement : BndgId)
    (st : Store) : Confined n st (vreplaceValueBindings replTarget replacement st v) := by
  have hfirst : Confined n st
      (if st.aug v = replTarget then st.setBindingAug v.id replacement else st) := by
    split
    · exact Confined.setBindingAug hv st _
    · exact Confined.refl n st
  unfold vreplaceValueBindings
  generalize (if st.aug v = replTarget then st.setBindingAug v.id replacement else st) = st₁ at *
  cases v with
  | continuation _ _ _ _ | withExpr _ _ _ | function _ _ _ _ => exact ⟨hfirst.depth, hfirst.aug⟩
  | symbol m binding =>
    show Confined n st (if st₁.symbolReference m = replTarget then _ else st₁)
    split
    · exact ⟨hfirst.depth, hfirst.aug⟩
    · exact hfirst
  | literal _ _ | storage _ _ _ | invoke _ _ _ | jump _ _ _ | ifExpr _ _ _ _ | constrain _ _ =>
    exact hfirst

theorem confined_foldl_vreplace {l : List Code} (hl : l ⊆ n.inside)
    (replTarget replacement : BndgId) (st : Store) :
    Confined n st (l.foldl (vreplaceValueBindings replTarget replacement) st) := by
  induction l generalizing st with
  | nil => exact Confined.refl n st
  | cons v l ih =>
    have hv := List.cons_subset.mp hl
    exact (confined_vreplaceValueBindings hv.1 replTarget replacement st).trans (ih hv.2 _)

theorem confined_genConds (conds : List Code) (st : Store) (c : Code) :
    Confined n st (genConds conds st c).1 :=
  (genConds_bndg conds st c).1.confined n

theorem confined_assignConditionJump (st : Store) (v : Code) :
    Confined n st (assignConditionJump st v) := by
  unfold assignConditionJump
  split
  · exact (sameFields_modify ..).confined n
  · exact Confined.refl n st

/-! ## The calls of initializers -/

/-- A call for what is below `n`. -/
structure CallConfined (n : Code) (st : Store) (call : InitCall) : Prop where
  store : Confined n st call.store
  exprs : call.exprs ⊆ n.inside
  mask : Reserves call.mask

theorem children_inside {cs : List Code} (h : cs ⊆ n.children) : cs ⊆ n.inside :=
  fun _ hc => Code.child_inside (h hc)

theorem singleton_inside (hv : v ∈ n.inside) : [v] ⊆ n.inside :=
  List.cons_subset.mpr ⟨hv, List.nil_subset _⟩

theorem callConfined_function {m : NodeId} {ref : Option Scope.Name}
    {ps : List (Option Scope.Name)} {body : Code} (st : Store) :
    CallConfined (.function m ref ps body) st (initializeFunction st m body) := by
  refine ⟨?_, children_inside (List.Subset.refl _), reserves_plainMask⟩
  have hsame₁ := sameFields_setPrefs st (st.parameters m) callRegs
  generalize hst₁ : setPrefs st (st.parameters m) callRegs = st₁ at hsame₁
  have hsame₂ := sameFields_assignParams st₁ (words 2) ((st₁.parameters m).drop 6)
  generalize hst₂ : assignParams st₁ (words 2) ((st₁.parameters m).drop 6) = st₂ at hsame₂
  have hstore : (initializeFunction st m body).store =
      st₂.modify (st₂.aug body) (setPreferred (.register rax)) := by
    rw [← hst₂, ← hst₁]
    rfl
  rw [hstore]
  exact ((hsame₁.trans hsame₂).trans (sameFields_modify ..)).confined _

theorem callConfined_with {m : NodeId} {ref : Option Scope.Name} {body : Code} {call : InitCall}
    (h : initializeWith p st m body = some call) : CallConfined (.withExpr m ref body) st call := by
  have hin : body ∈ (Code.withExpr m ref body).inside :=
    Code.child_inside (List.mem_singleton.mpr rfl)
  unfold initializeWith at h
  obtain ⟨st', hsearch, hcall⟩ := Option.bind_eq_some_iff.mp h
  cases hcall
  have hbody : [body] ⊆ (Code.withExpr m ref body).inside :=
    children_inside (List.Subset.refl _)
  have hfirst : Confined (.withExpr m ref body) st (if p.escapes m then
      st.setBindingAug body.id (st.bindingAug m)
      else (st.setBindingAug body.id (st.bindingAug m)).setParameters m
        ((st.setBindingAug body.id (st.bindingAug m)).bindingAug m ::
          ((st.setBindingAug body.id (st.bindingAug m)).parameters m).tail)) := by
    have hset := Confined.setBindingAug hin st (st.bindingAug m)
    split
    · exact hset
    · exact ⟨hset.depth, hset.aug⟩
  refine ⟨?_, hbody, reserves_bodyMask⟩
  rcases searchJumps_cases hsearch with rfl | ⟨_, _, _, _, _, _, _, _, _, _, rfl⟩
  · exact hfirst
  · apply hfirst.trans
    apply confined_foldl_vreplace
    intro v hv
    exact Forest.mem_nodesOf.mpr ⟨body, List.mem_singleton.mpr rfl, hv⟩

theorem callConfined_jump {m : NodeId} {target : Code} {arguments : List Code} {call : InitCall}
    (h : initializeJump p st m target arguments = some call) :
    CallConfined (.jump m target arguments) st call := by
  have hall : target :: arguments ⊆ (Code.jump m target arguments).inside :=
    children_inside (List.Subset.refl _)
  have hargs := (List.cons_subset.mp hall).2
  unfold initializeJump at h
  split at h
  · next k ref ps body =>
    cases h
    have hbody : body ∈ (Code.jump m (.continuation k ref ps body) arguments).inside := by
      apply Forest.inside_of_mem (Code.inside_subset (List.cons_subset.mp hall).1)
      exact Code.child_inside (List.mem_singleton.mpr rfl)
    exact ⟨confined_setBindingAugs hargs _ st, List.cons_subset.mpr ⟨hbody, hargs⟩,
      reserves_bodyMask⟩
  · split at h
    · next param _ =>
      obtain ⟨arg, harg, rfl⟩ := Option.map_eq_some_iff.mp h
      have harg := hargs (List.mem_of_head? harg)
      exact ⟨Confined.setBindingAug harg st param, hall, reserves_operandMask⟩
    · cases h
      exact ⟨Confined.refl _ st, hall, reserves_operandMask⟩

theorem callConfined_invoke {m : NodeId} {target : Code} {arguments : List Code} (st : Store) :
    CallConfined (.invoke m target arguments) st (initializeInvoke st target arguments) :=
  ⟨(sameFields_setPrefs ..).confined _, children_inside (List.Subset.refl _), reserves_invokeMask⟩

theorem callConfined_ifExpr {m : NodeId} {condition consequent alternate : Code} (st : Store) :
    CallConfined (.ifExpr m condition consequent alternate) st
      (initializeOptimizedIf st m condition consequent alternate) := by
  have hall : [condition, consequent, alternate] ⊆
      (Code.ifExpr m condition consequent alternate).inside :=
    children_inside (List.Subset.refl _)
  obtain ⟨hcondition, hbranches⟩ := List.cons_subset.mp hall
  obtain ⟨hconsequent, halternate⟩ := List.cons_subset.mp hbranches
  have halternate := halternate List.mem_cons_self
  have hconds : (genConds [] st condition).2 ⊆
      (Code.ifExpr m condition consequent alternate).inside := by
    intro c hc
    have hsub := (genConds_exprs [] st condition).1.subset
    have hc : c ∈ condition.nodes ++ Forest.nodesOf [] :=
      hsub (Forest.mem_nodesOf.mpr ⟨c, hc, Forest.mem_nodes_self c⟩)
    rw [show Forest.nodesOf ([] : List Code) = [] from rfl, List.append_nil] at hc
    exact Forest.nodes_subset_of_mem hcondition hc
  refine ⟨?_, List.cons_subset.mpr ⟨hconsequent, List.cons_subset.mpr ⟨halternate, hconds⟩⟩,
    reserves_plainMask⟩
  apply (confined_genConds [] st condition).trans
  exact (Confined.setBindingAug hconsequent _ _).trans (Confined.setBindingAug halternate _ _)

theorem callConfined_constrain {m : NodeId} {e : Code} (st : Store) :
    CallConfined (.constrain m e) st (initializeConstrain st m e) :=
  ⟨Confined.setBindingAug (Code.child_inside (List.mem_singleton.mpr rfl)) st _,
    children_inside (List.Subset.refl _), reserves_plainMask⟩

theorem callConfined_binaryOperator {m : NodeId} {target arg1 arg2 : Code} (st : Store) :
    CallConfined (.invoke m target [arg1, arg2]) st
      (initializeBinaryOperator st (.invoke m target [arg1, arg2]) arg1 arg2) := by
  have hargs : [arg1, arg2] ⊆ (Code.invoke m target [arg1, arg2]).inside :=
    children_inside (List.subset_cons_self _ _)
  have hfirst := (List.cons_subset.mp hargs).1
  have hsecond := (List.cons_subset.mp hargs).2 List.mem_cons_self
  unfold initializeBinaryOperator
  dsimp only
  split
  · exact ⟨(sameFields_modify ..).confined _, hargs, reserves_divisionMask⟩
  · split
    · exact ⟨(sameFields_modify ..).confined _, hargs, reserves_multiplicationMask⟩
    · split
      · exact ⟨(sameFields_modify ..).confined _, hargs, reserves_plainMask⟩
      · refine ⟨?_, hargs, reserves_operandMask⟩
        apply (confined_assignConditionJump st _).trans
        exact (confined_coalesceExprBndg hfirst _).trans (confined_coalesceExprBndg hsecond _)

theorem callConfined_intrinsic {m : NodeId} {target : Code} {arguments : List Code} {g : Generator}
    {call : InitCall}
    (h : initializeIntrinsic st (.invoke m target arguments) g arguments = some call) :
    CallConfined (.invoke m target arguments) st call := by
  have hargs : arguments ⊆ (Code.invoke m target arguments).inside :=
    children_inside (List.subset_cons_self _ _)
  have hbase : ∀ arg ∈ arguments, ∀ base, baseOf arg = some base →
      base ∈ (Code.invoke m target arguments).inside := by
    intro arg harg base hbase
    apply Forest.inside_of_mem (Code.inside_subset (hargs harg))
    exact Code.child_inside (baseOf_mem hbase).1
  unfold initializeIntrinsic at h
  split at h
  · next arg1 =>
    have harg := hargs (List.mem_singleton.mpr rfl)
    split at h
    · obtain ⟨base, hb, rfl⟩ := Option.map_eq_some_iff.mp h
      have hb := hbase arg1 (List.mem_singleton.mpr rfl) base hb
      exact ⟨confined_coalesceExprBndg hb st, singleton_inside hb, reserves_plainMask⟩
    · cases h
      exact ⟨confined_coalesceExprBndg harg st, hargs, reserves_plainMask⟩
    · cases h
  · next arg1 arg2 =>
    have hfirst := hargs List.mem_cons_self
    have hsecond := hargs (List.mem_cons_of_mem _ List.mem_cons_self)
    split at h
    · obtain ⟨base, hb, rfl⟩ := Option.map_eq_some_iff.mp h
      have hb := hbase arg1 List.mem_cons_self base hb
      refine ⟨?_, List.cons_subset.mpr ⟨hb, singleton_inside hsecond⟩, reserves_operandMask⟩
      exact (confined_coalesceExprBndg hb st).trans (confined_coalesceExprBndg hsecond _)
    · cases h
      refine ⟨?_, singleton_inside hfirst, reserves_operandMask⟩
      exact (confined_assignConditionJump st _).trans (confined_coalesceExprBndg hfirst _)
    · cases h
      exact callConfined_binaryOperator st
    · cases h
  · cases h

/-- Every initializer makes a call for what is below its expression, with a mask that keeps
`rsp` and `rbp`. -/
theorem callConfined_callOf {g : ExprGenerator} {call : InitCall}
    (h : callOf p inits st n = some (g, call)) : CallConfined n st call := by
  cases n with
  | function m ref ps body =>
    cases h
    exact callConfined_function st
  | continuation m ref ps body =>
    cases h
    exact ⟨Confined.refl _ st, children_inside (List.Subset.refl _), reserves_bodyMask⟩
  | withExpr m ref body =>
    obtain ⟨call', hcall, heq⟩ := Option.map_eq_some_iff.mp h
    cases heq
    exact callConfined_with hcall
  | storage m ref arguments =>
    cases h
    exact ⟨Confined.refl _ st, children_inside (List.Subset.refl _), reserves_bodyMask⟩
  | jump m target arguments =>
    obtain ⟨call', hcall, heq⟩ := Option.map_eq_some_iff.mp h
    cases heq
    exact callConfined_jump hcall
  | invoke m target arguments =>
    unfold callOf at h
    dsimp only at h
    split at h
    · obtain ⟨call', hcall, heq⟩ := Option.map_eq_some_iff.mp h
      cases heq
      exact callConfined_intrinsic hcall
    · cases h
      exact callConfined_invoke st
  | ifExpr m condition consequent alternate =>
    cases h
    exact callConfined_ifExpr st
  | constrain m e =>
    cases h
    exact callConfined_constrain st
  | symbol _ _ | literal _ _ => cases h

/-! ## Runs -/

theorem initSubs_confined {init : Word → Store → Code → Option Initialized}
    (hinit : ∀ offset st v r, init offset st v = some r → Confined v st r.store)
    {offset : Word} {es : List Code} (hes : es ⊆ n.nodes) {r r' : Initialized}
    (h : initSubs init offset r es = some r') : Confined n r.store r'.store := by
  induction es generalizing r with
  | nil =>
    cases h
    exact Confined.refl n _
  | cons u es ih =>
    obtain ⟨hu, hes⟩ := List.cons_subset.mp hes
    obtain ⟨r₁, hfirst, hrest⟩ := Option.bind_eq_some_iff.mp h
    have hlast := ih
      (r := ⟨minWord r.bottomOffset r₁.bottomOffset, r.inUse ||| r₁.inUse, r₁.store⟩) hes hrest
    exact ((hinit _ _ _ _ hfirst).mono hu).trans hlast

theorem MovedAt.confined {es : List Code} (h : MovedAt v es st st') (n : Code) :
    Confined n st st' :=
  ⟨h.depth, fun x _ => congrFun h.names.1 x⟩

theorem initializeExpressions_confined {init : Word → Store → Code → Option Initialized}
    (hinit : ∀ offset st v r, init offset st v = some r → Confined v st r.store) {call : InitCall}
    {offset : Word} {depth : Nat} {r : Initialized}
    (h : initializeExpressions init call offset depth = some r) (hes : call.exprs ⊆ n.nodes) :
    Confined n call.store r.store := by
  obtain ⟨r₁, hsubs, hlocate⟩ := Option.bind_eq_some_iff.mp h
  have hfirst := initSubs_confined hinit hes hsubs
  exact hfirst.trans ((locate_ok hlocate).1.placing.same.confined n)

/-- An initializer leaves alone what it is not above. -/
theorem initializeExpression_confined (fuel : Nat) : ∀ offset st n r,
    initializeExpression p inits fuel offset st n = some r → Confined n st r.store := by
  induction fuel with
  | zero =>
    intro offset st n r h
    cases h
  | succ fuel ih =>
    intro offset st n r h
    unfold initializeExpression at h
    split at h
    · cases h
      exact (movedAt_setGenerated _ _ [] st).1.confined _
    · cases h
      exact (movedAt_setGenerated _ _ [] st).1.confined _
    · obtain ⟨⟨g, call⟩, hcall, h⟩ := Option.bind_eq_some_iff.mp h
      obtain ⟨r', hcalled, hfinish⟩ := Option.bind_eq_some_iff.mp h
      cases hfinish
      have hok := callConfined_callOf hcall
      have hsub : call.exprs ⊆ n.nodes := fun c hc => Code.inside_subset (hok.exprs hc)
      have hrun := hok.store.trans (initializeExpressions_confined ih hcalled hsub)
      exact hrun.trans ((movedAt_finish g n [] offset r').1.confined n)

/-! ## Masks grow -/

theorem Reserves.initSubs {init : Word → Store → Code → Option Initialized} {offset : Word}
    {es : List Code} {r r' : Initialized} (hr : Reserves r.inUse)
    (h : initSubs init offset r es = some r') : Reserves r'.inUse := by
  induction es generalizing r with
  | nil =>
    cases h
    exact hr
  | cons u es ih =>
    obtain ⟨r₁, _, hrest⟩ := Option.bind_eq_some_iff.mp h
    exact ih (hr.or_left r₁.inUse) hrest

theorem Reserves.tryPreferred {u : RegUseVec} (h : Reserves u) (depth : Nat) (bs : List BndgId)
    (st : Store) : Reserves (tryPreferred depth u st bs).1 := by
  induction bs generalizing u st with
  | nil => exact h
  | cons b bs ih =>
    apply ih
    unfold tryPreferredRound tryBndgToPreferredLocation
    split
    · split
      · exact h
      · split
        · exact h
        · exact h.useRegister _
      · exact h
    · exact h

theorem Reserves.bindingToRegisterMemory {u : RegUseVec} (h : Reserves u) {b : BndgId}
    {offset : Word} {r : RegUseVec × Store}
    (heq : bindingToRegisterMemory st b offset u = some r) : Reserves r.1 := by
  unfold SelfHost.bindingToRegisterMemory at heq
  split at heq
  · cases heq
    exact h
  · obtain ⟨reg, _, rfl⟩ := Option.map_eq_some_iff.mp heq
    exact h.useRegister reg

theorem Reserves.assignArgs {u : RegUseVec} (h : Reserves u) {depth : Nat} {offset : Word}
    {bs : List BndgId} {r : RegUseVec × Store}
    (heq : assignArgs depth offset u st bs = some r) : Reserves r.1 := by
  induction bs generalizing u st offset with
  | nil =>
    cases heq
    exact h
  | cons b bs ih =>
    obtain ⟨r₁, hround, hrest⟩ := Option.bind_eq_some_iff.mp heq
    apply ih _ hrest
    unfold assignArgsRound at hround
    split at hround
    · exact h.bindingToRegisterMemory hround
    · cases hround
      exact h

theorem Asks.reserves {depth : Nat} {offset o : Word} {u u' : RegUseVec} {bs : List BndgId}
    {b : BndgId} (h : Asks depth offset u st bs st' b o u') (hu : Reserves u) : Reserves u' := by
  cases h with
  | round _ hbefore _ => exact hu.assignArgs hbefore

/-! ## The calls for the program -/

section

variable (hp : (p.nodes.map Code.id).Nodup) {e : Code}

include hp

theorem nodup_ids_of_mem (he : e ∈ p.exprs) : (e.nodes.map Code.id).Nodup :=
  ((Forest.nodes_infix_of_mem he).sublist.map Code.id).nodup hp

/-- Nothing at the top is below something at the top. -/
theorem id_ne_of_inside (he : e ∈ p.exprs) {c : Code} (hc : c ∈ p.exprs) (hv : v ∈ c.inside) :
    v.id ≠ e.id := by
  intro hid
  have hmem : e ∈ p.nodes := Program.mem_of_root he (Forest.mem_nodes_self e)
  have hvc : v ∈ c.nodes := Code.inside_subset hv
  have hve : v = e :=
    List.inj_on_of_nodup_map hp (Program.mem_of_root hc hvc) hmem hid
  subst hve
  have hcv : c = v := Forest.eq_of_mem_of_mem (hp.of_map _) hc he hvc (Forest.mem_nodes_self v)
  exact Forest.ne_of_below hv hcv.symm

/-- The values of the expressions at the top stay theirs. -/
theorem aug_initializeAll (he : e ∈ p.exprs) {fuel : Nat} {offset : Word} {es : List Code}
    (hes : es ⊆ p.exprs) (h : initializeAll p inits fuel offset st es = some st') :
    st'.aug e = st.aug e := by
  induction es generalizing st with
  | nil =>
    cases h
    rfl
  | cons c es ih =>
    obtain ⟨hc, hes⟩ := List.cons_subset.mp hes
    obtain ⟨r, hcall, hrest⟩ := Option.bind_eq_some_iff.mp h
    have hnumbered := numbered_assignDepths c 0 st (nodup_ids_of_mem hp hc)
    have hself : [c] ⊆ c.nodes := List.cons_subset.mpr ⟨Forest.mem_nodes_self c, List.nil_subset _⟩
    have hconfined := initializeExpressions_confined (initializeExpression_confined fuel)
      hcall hself
    rw [ih hes hrest]
    calc r.store.aug e
        = (assignDepths 0 st c).aug e :=
          hconfined.aug e.id fun v hv => id_ne_of_inside hp he hc hv
      _ = st.aug e := by
          rw [hnumbered.same]
          rfl

/-- The value of an expression at the top is its own when it is initialized, and is at the
top. -/
theorem program_idle {before after : List Code} {fuel : Nat} {offset : Word} {st₀ : Store}
    (hprepare : prepare p (-words 1) (Store.initial p) p.exprs = (offset, st₀))
    (hexprs : p.exprs = before ++ e :: after)
    (hbefore : initializeAll p inits fuel (offset - words 1) st₀ before = some st)
    {fuel' : Nat} {o : Word} {r r' : Initialized} (hstore : r.store = assignDepths 0 st e)
    (h : initSubs (initializeExpression p inits fuel') o r [e] = some r') :
    r'.store.bndgDepth (r'.store.aug e) = 0 := by
  have he : e ∈ p.exprs := by
    rw [hexprs]
    exact List.mem_append_right _ List.mem_cons_self
  have hsub : before ⊆ p.exprs := by
    rw [hexprs]
    exact List.subset_append_left _ _
  have hnumbered := numbered_assignDepths e 0 st (nodup_ids_of_mem hp he)
  have hself : [e] ⊆ e.nodes := List.cons_subset.mpr ⟨Forest.mem_nodes_self e, List.nil_subset _⟩
  have hconfined := initSubs_confined (initializeExpression_confined fuel') hself h
  rw [hstore] at hconfined
  have haug : r'.store.aug e = .value e.id := by
    calc r'.store.aug e
        = (assignDepths 0 st e).aug e :=
          hconfined.aug e.id fun v hv => id_ne_of_inside hp he he hv
      _ = st.aug e := by
          rw [hnumbered.same]
          rfl
      _ = st₀.aug e := aug_initializeAll hp he hsub hbefore
      _ = .value e.id := by
          have hpassed := keepsPlace_prepare p p.exprs (-words 1) (Store.initial p)
          rw [hprepare] at hpassed
          have hnames : st₀ = _ := hpassed.names
          rw [hnames]
          rfl
  rw [haug]
  show r'.store.depth e.id = 0
  rw [hconfined.depth]
  exact hnumbered.roots e (List.mem_singleton.mpr rfl)

end

/-! ## The search -/

theorem placing_preferredOf (call : InitCall) (depth : Nat) (r : Initialized) :
    Placing (call.exprs.map r.store.aug ++ call.bndgs) r.inUse r.store
      (preferredOf call depth r).1 (preferredOf call depth r).2 := by
  obtain ⟨hplace, hnil⟩ := placing_clear (call.exprs.map r.store.aug) call.bndgs r.inUse r.store
  have htry₁ := (tryPreferred_ok (List.subset_append_left _ _) (depth + 1) hplace
    fun b hb => Or.inl (hnil b hb)).1
  have htry₂ := (tryPreferred_ok (List.subset_append_right _ _) depth htry₁.placing
    htry₁.preferring).1
  exact htry₂.placing

theorem Reserves.preferredOf {r : Initialized} (h : Reserves r.inUse) (call : InitCall)
    (depth : Nat) : Reserves (preferredOf call depth r).1 :=
  (h.tryPreferred (depth + 1) _ _).tryPreferred depth _ _

/-- A call begins with a mask that keeps `rsp` and `rbp`, or has nothing to place. -/
theorem Called.reserves_or_idle (hp : (p.nodes.map Code.id).Nodup) {call : InitCall}
    {offset : Word} {depth : Nat} (h : Called p inits call offset depth) :
    Reserves call.mask ∨ (call.bndgs = [] ∧ ∀ fuel r,
      initSubs (initializeExpression p inits fuel) (startOf call offset).bottomOffset
        (startOf call offset) call.exprs = some r →
      ∀ b ∈ call.exprs.map r.store.aug, r.store.bndgDepth b ≤ depth) := by
  cases h with
  | program hprepare hexprs hbefore =>
    refine Or.inr ⟨rfl, ?_⟩
    intro fuel r hsubs b hb
    rw [List.mem_singleton.mp hb, program_idle hp hprepare hexprs hbefore rfl hsubs]
  | nested _ _ _ hcall => exact Or.inl (callConfined_callOf hcall).mask

theorem Searches.reserves (hp : (p.nodes.map Code.id).Nodup) {b : BndgId} {offset : Word}
    {u : RegUseVec} (h : Searches p inits st b offset u) : Reserves u := by
  cases h with
  | @exprs call offset o depth fuel r _ _ _ hcalled hsubs hasks =>
    rcases hcalled.reserves_or_idle hp with hmask | ⟨_, hidle⟩
    · have hr : Reserves r.inUse := hmask.initSubs (r := startOf call offset) hsubs
      exact hasks.reserves (hr.preferredOf call depth)
    · -- everything in the list is too high up
      exfalso
      cases hasks with
      | @round before after _ s hus hassign hcond =>
        have hmem : b ∈ call.exprs.map r.store.aug := by
          rw [hus]
          exact List.mem_append_right _ List.mem_cons_self
        have hsub : before ⊆ call.exprs.map r.store.aug ++ call.bndgs := by
          rw [hus, List.append_assoc]
          exact List.subset_append_left _ _
        have hplacing := (assignArgs_ok hsub (placing_preferredOf call depth r) hassign).placing
        have hdeep := hcond.1
        rw [hplacing.bndgDepth] at hdeep
        have hlow := hidle fuel r hsubs b hmem
        omega
  | @bndgs call offset o depth fuel r _ _ _ s hcalled hsubs hassign hasks =>
    rcases hcalled.reserves_or_idle hp with hmask | ⟨hnil, _⟩
    · have hr : Reserves r.inUse := hmask.initSubs (r := startOf call offset) hsubs
      have hs : Reserves s.1 := (hr.preferredOf call depth).assignArgs hassign
      exact hasks.reserves hs
    · exfalso
      cases hasks with
      | @round before after _ _ hus _ _ =>
        rw [hnil] at hus
        exact List.append_ne_nil_of_right_ne_nil before (List.cons_ne_nil b after) hus.symm

/-- A mask that a free register can be searched for in. -/
def Searchable (u : RegUseVec) : Prop := Reserves u ∧ u ≠ allInUse

/-- Whenever a free register is searched for while a program is compiled, the search ends at
an entry of the table that is neither `rsp` nor `rbp`. -/
theorem search_ends (hp : (p.nodes.map Code.id).Nodup) {b : BndgId} {offset : Word}
    {inUse : RegUseVec} (h : Searches p inits st b offset inUse) (hne : inUse ≠ allInUse) :
    Searchable inUse ∧ ∃ reg, reg ≠ rsp ∧ reg ≠ rbp ∧
      (bindingToRegisterMemoryPrefs.find? fun testReg => !registerInUse testReg inUse) = some reg ∧
      bindingToRegisterMemory st b offset inUse = some (useRegister reg inUse,
        st.modify b (setStorage (.register reg) ∘ setSize wordSize)) ∧
      (Searchable (useRegister reg inUse) ∨ useRegister reg inUse = allInUse) := by
  have hreserves := h.reserves hp
  obtain ⟨reg, hfind, hrsp, hrbp, _⟩ := hreserves.search hne
  refine ⟨⟨hreserves, hne⟩, reg, hrsp, hrbp, hfind, ?_, ?_⟩
  · have hne : inUse ≠ 0xFFFFFFFFFFFFFFFF := hne
    unfold bindingToRegisterMemory
    rw [if_neg hne, hfind]
    rfl
  · by_cases hfull : useRegister reg inUse = allInUse
    · exact Or.inr hfull
    · exact Or.inl ⟨hreserves.useRegister reg, hfull⟩

theorem callee_nonempty : "f" ≠ "" := by decide

/-- An undefined symbol, and an invocation of it. -/
def callee : Code := .symbol 1 (.undefined ⟨"f", callee_nonempty⟩)

def invocation : Code := .invoke 0 callee []

/-- A program of it alone. -/
def invokeProgram : Program := ⟨[invocation], fun _ => false, fun _ => [], fun _ => none⟩

/-- The store when the program is called for, and when the symbol has been initialized. -/
def invokeStores : Store × Store :=
  let st := assignDepths 0 (prepared invokeProgram) invocation
  (st, (initializeLeaf .symbol callee 0 st).store)

theorem called_invocation : Called invokeProgram []
    (initializeInvoke invokeStores.1 callee []) (-words 3) 0 := by
  have htop : Called invokeProgram [] ⟨invokeStores.1, [invocation], [], 0⟩ (-words 2) 0 :=
    Called.program rfl (show invokeProgram.exprs = [] ++ _ :: [] from rfl)
      (show initializeAll invokeProgram [] 0 _ _ [] = some _ from rfl)
  exact Called.nested htop (show [invocation] = [] ++ _ :: [] from rfl)
    (show initSubs (initializeExpression invokeProgram [] 0) _ _ [] = some _ from rfl)
    (show callOf invokeProgram [] _ invocation = some (.invoke, _) from rfl)

theorem searches_invocation : Searches invokeProgram [] (clear invokeStores.2 [.value 1])
    (.value 1) (-words 4) 0xFFFFFFFFFFFF0831 := by
  have hsubs : initSubs (initializeExpression invokeProgram [] 1)
      (startOf (initializeInvoke invokeStores.1 callee [])
        (-words 3)).bottomOffset
      (startOf (initializeInvoke invokeStores.1 callee []) (-words 3))
      [callee] = some ⟨-words 4, 0xFFFFFFFFFFFF0831, invokeStores.2⟩ := rfl
  apply Searches.exprs called_invocation hsubs
  apply Asks.round (show _ = [] ++ BndgId.value 1 :: [] from rfl)
    (show assignArgs 1 _ _ _ [] = some _ from rfl)
  decide

theorem search_ends_invocation :
    Searchable 0xFFFFFFFFFFFF0831 ∧ ∃ reg, reg ≠ rsp ∧ reg ≠ rbp ∧
      (bindingToRegisterMemoryPrefs.find? fun testReg =>
        !registerInUse testReg 0xFFFFFFFFFFFF0831) = some reg ∧
      bindingToRegisterMemory (clear invokeStores.2 [.value 1]) (.value 1) (-words 4)
        0xFFFFFFFFFFFF0831 = some (useRegister reg 0xFFFFFFFFFFFF0831,
          (clear invokeStores.2 [.value 1]).modify (.value 1)
            (setStorage (.register reg) ∘ setSize wordSize)) ∧
      (Searchable (useRegister reg 0xFFFFFFFFFFFF0831) ∨
        useRegister reg 0xFFFFFFFFFFFF0831 = allInUse) :=
  search_ends (p := invokeProgram) (by decide) searches_invocation (by decide)

end L2.SelfHost
