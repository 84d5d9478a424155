import L2.Bootstrap.Expression
import L2.Bootstrap.AssemblerCorrect

/-!
# The generator of the bootstrap compiler

`generate_program` on the expressions of a program and on what the analyses have written
into them.  The bindings that the generator makes itself are numbered in the order in
which it makes them.
-/

namespace L2.Bootstrap

open X86 (Word Reg)

/-- What can be labelled or has a place in memory: the bindings of symbols, those of the
instructions of continuations and of the arguments of calls, and the new ones. -/
inductive Bndg where
  | aug (bindingAug : BindingAug)
  | contInstr (expression : ExprId)
  | tempStorage (expression : ExprId)
  | fresh (n : Nat)
  deriving DecidableEq

inductive BindingAugType where
  | absoluteStorage
  | topRelativeStorage
  | frameRelativeStorage
  | nilStorage
  deriving DecidableEq

inductive ContainsFlag where
  | none
  | jump
  | withExpr
  deriving DecidableEq

/-- What the generator reads in the expressions and bindings besides the tree. -/
structure Analysis where
  type : Bndg → BindingAugType
  offset : Bndg → Word
  /-- The expression at an address. -/
  expressionAt : ExprId → Option Expr
  escapes : ExprId → Bool
  shortCircuit : ExprId → Option Expr
  containsFlag : ExprId → ContainsFlag
  bindingAugs : ExprId → List Bndg

abbrev Code := List (Instruction Bndg)

def wordSize : Word := 8
def contSize : Word := 7 * wordSize
def contR15 : Word := 6 * wordSize
def contR12 : Word := 5 * wordSize
def contRbx : Word := 4 * wordSize
def contR13 : Word := 3 * wordSize
def contR14 : Word := 2 * wordSize
def contCir : Word := 1 * wordSize
def contRbp : Word := 0 * wordSize

abbrev rax : Reg := 0
abbrev rcx : Reg := 1
abbrev rdx : Reg := 2
abbrev rbx : Reg := 3
abbrev rsp : Reg := 4
abbrev rbp : Reg := 5
abbrev rsi : Reg := 6
abbrev rdi : Reg := 7
abbrev r8 : Reg := 8
abbrev r9 : Reg := 9
abbrev r10 : Reg := 10
abbrev r11 : Reg := 11
abbrev r12 : Reg := 12
abbrev r13 : Reg := 13
abbrev r14 : Reg := 14
abbrev r15 : Reg := 15

section

variable (a : Analysis)

/-- `make_load` -/
def makeLoad (bndg : Bndg) (offset : Word) (dest scratch : Reg) : Code :=
  match a.type bndg with
  | .frameRelativeStorage => [.movqMdbToReg (.literal (a.offset bndg + offset)) rbp dest]
  | .absoluteStorage =>
    [.movqImmToReg (.lnkrAddOffToRef bndg offset) scratch, .movqMdbToReg (.literal 0) scratch dest]
  | .topRelativeStorage => [.movqMdbToReg (.literal (a.offset bndg + offset)) rsp dest]
  | .nilStorage => []

/-- `make_store` -/
def makeStore (src : Reg) (bndg : Bndg) (offset : Word) (scratch : Reg) : Code :=
  match a.type bndg with
  | .frameRelativeStorage => [.movqRegToMdb src (.literal (a.offset bndg + offset)) rbp]
  | .absoluteStorage =>
    [.movqImmToReg (.lnkrAddOffToRef bndg offset) scratch, .movqRegToMdb src (.literal 0) scratch]
  | .topRelativeStorage => [.movqRegToMdb src (.literal (a.offset bndg + offset)) rsp]
  | .nilStorage => []

/-- `make_load_address` -/
def makeLoadAddress (bndg : Bndg) (dest : Reg) : Code :=
  match a.type bndg with
  | .frameRelativeStorage => [.leaqMdbToReg (.literal (a.offset bndg)) rbp dest]
  | .absoluteStorage => [.movqImmToReg (.symbol bndg) dest]
  | .topRelativeStorage => [.leaqMdbToReg (.literal (a.offset bndg)) rsp dest]
  | .nilStorage => []

/-- `sgenerate_symbols` -/
def sgenerateSymbols (bindingAug : BindingAug) : Code :=
  match a.expressionAt bindingAug.expression with
  | some (.function _ _ parameters _) | some (.continuation _ _ parameters _) =>
    if bindingAug.symbol ∈ parameters then makeLoad a (.aug bindingAug) 0 rax r11
    else makeLoadAddress a (.aug bindingAug) rax
  | _ => makeLoadAddress a (.aug bindingAug) rax

/-- `make_store_continuation` -/
def makeStoreContinuation (id : ExprId) (reference : Symbol) : Code :=
  let bndg := .aug ⟨reference, id⟩
  makeStore a rbx bndg contRbx r11 ++
  makeStore a r12 bndg contR12 r11 ++
  makeStore a r13 bndg contR13 r11 ++
  makeStore a r14 bndg contR14 r11 ++
  makeStore a r15 bndg contR15 r11 ++
  makeLoadAddress a (.contInstr id) r10 ++
  makeStore a r10 bndg contCir r11 ++
  makeStore a rbp bndg contRbp r11

/-- `cond_push_relative_storage`, for a number of arguments -/
def condPushRelativeStorage (id : ExprId) (n : Nat) : Code :=
  if a.type (.tempStorage id) = .topRelativeStorage then
    [.subqImmToReg (BitVec.ofNat 64 n * wordSize) rsp]
  else []

/-- `cond_pop_relative_storage` -/
def condPopRelativeStorage (id : ExprId) (n : Nat) : Code :=
  if a.type (.tempStorage id) = .topRelativeStorage then
    [.addqImmToReg (BitVec.ofNat 64 n * wordSize) rsp]
  else []

/-- The loop of `generate_buffer_to_dest` over a number of arguments. -/
def generateBufferToDest (id : ExprId) (dest : Reg) : Nat → (offset tmpOffset : Word) → Code
  | 0, _, _ => []
  | n + 1, offset, tmpOffset =>
    makeLoad a (.tempStorage id) tmpOffset rax r10 ++ [.movqRegToMdb rax (.literal offset) dest] ++
      generateBufferToDest id dest n (offset + wordSize) (tmpOffset + wordSize)

/-- The loop of `sgenerate_invokes` that pushes the arguments, the last one first. -/
def pushArguments (id : ExprId) : Nat → Code
  | 0 => []
  | n + 1 =>
    makeLoad a (.tempStorage id) (BitVec.ofNat 64 n * wordSize) r11 r10 ++ [.pushqReg r11] ++
      pushArguments id n

/-- `get_current_offset` -/
def getCurrentOffset (id : ExprId) : Word := ((a.bindingAugs id).head?.map a.offset).getD 0

/-- The registers of the first arguments. -/
def argumentRegisters : List Reg := [rdi, rsi, rdx, rcx, r8, r9]

/-- The restoring of the registers from a continuation at the address in `r11`. -/
def loadContinuation : Code :=
  [.movqMdbToReg (.literal contRbx) r11 rbx,
   .movqMdbToReg (.literal contR12) r11 r12,
   .movqMdbToReg (.literal contR13) r11 r13,
   .movqMdbToReg (.literal contR14) r11 r14,
   .movqMdbToReg (.literal contR15) r11 r15,
   .movqMdbToReg (.literal contCir) r11 r10,
   .movqMdbToReg (.literal contRbp) r11 rbp,
   .jmpToReg r10]

/-- What `sgenerate_functions` puts before the body. -/
def functionEntry (id : ExprId) : Code :=
  [.popqReg r11,
   .pushqReg r9, .pushqReg r8, .pushqReg rcx, .pushqReg rdx, .pushqReg rsi, .pushqReg rdi,
   .pushqReg r11,
   .pushqReg rbp, .movqRegToReg rsp rbp, .subqImmToReg (-getCurrentOffset a id) rsp]

/-- What `sgenerate_functions` puts after the body. -/
def functionExit : Code :=
  [.leave, .popqReg r11, .addqImmToReg (6 * wordSize) rsp, .pushqReg r11, .ret]

/-- The parameters of the continuation that a jump is short-circuited to. -/
def continuationParameters : Expr → List Symbol
  | .continuation _ _ parameters _ => parameters
  | .withExpr _ _ parameter _ => [parameter]
  | _ => []

def isContinuation : Expr → Bool
  | .continuation _ _ _ _ => true
  | _ => false

mutual

/-- `generate_expressions`, with the cases of the `sgenerate_` functions.  The number is
that of the next binding to be made. -/
def generateExpressions (fresh : Nat) : Expr → Code × Nat
  | .literal _ value => ([.movqImmToReg (.literal value) rax], fresh)
  | .symbol _ _ bindingAug => (sgenerateSymbols a bindingAug, fresh)
  | .constrain _ expression _ => generateExpressions fresh expression
  | .storage id reference arguments =>
    let bndg := .aug ⟨reference, id⟩
    let (c, fresh) := generateArguments fresh bndg r11 0 arguments
    (c ++ makeLoadAddress a bndg rax, fresh)
  | .ifExpr _ condition consequent alternate =>
    let (c, fresh) := generateExpressions fresh condition
    let alternateBinding := .fresh fresh
    let (c', fresh) := generateExpressions (fresh + 1) consequent
    let endBinding := .fresh fresh
    let (c'', fresh) := generateExpressions (fresh + 1) alternate
    (c ++ [.orqRegToReg rax rax, .jeRel (.lnkrSubRipToRef alternateBinding)] ++ c' ++
      [.jmpRel (.lnkrSubRipToRef endBinding), .label alternateBinding] ++ c'' ++
      [.label endBinding], fresh)
  | .function id reference _ expression =>
    let bndg := .aug ⟨reference, id⟩
    let afterBinding := .fresh fresh
    let (c, fresh) := generateExpressions (fresh + 1) expression
    (makeLoadAddress a bndg rax ++
      [.jmpRel (.lnkrSubRipToRef afterBinding), .label bndg] ++ functionEntry a id ++ c ++
      functionExit ++ [.label afterBinding], fresh)
  | .continuation id reference _ expression =>
    let afterBinding := .fresh fresh
    let (c, fresh) := generateExpressions (fresh + 1) expression
    ((if a.escapes id then
        makeLoadAddress a (.aug ⟨reference, id⟩) rax ++ makeStoreContinuation a id reference
      else []) ++
      [.jmpRel (.lnkrSubRipToRef afterBinding), .label (.contInstr id)] ++ c ++
      [.label afterBinding], fresh)
  | .withExpr id reference parameter expression =>
    let (c, fresh) := generateExpressions fresh expression
    let endBinding := .fresh fresh
    ((if a.escapes id then makeStoreContinuation a id reference else []) ++ c ++
      [.jmpRel (.lnkrSubRipToRef endBinding), .label (.contInstr id)] ++
      makeLoad a (.aug ⟨parameter, id⟩) 0 rax r10 ++ [.label endBinding], fresh + 1)
  | .jump id reference arguments =>
    let n := arguments.length
    match a.shortCircuit id with
    | some target =>
      let (c, fresh) :=
        if isContinuation reference then generateExpressions fresh reference else ([], fresh)
      let jmp : Code := [.jmpRel (.lnkrSubRipToRef (.contInstr target.id))]
      match continuationParameters target with
      | [] => (c ++ jmp, fresh)
      | parameter :: _ =>
        let (c', fresh) := generateArguments fresh (.tempStorage id) r10 0 arguments
        (c ++ condPushRelativeStorage a id n ++ c' ++
          makeLoadAddress a (.aug ⟨parameter, target.id⟩) r11 ++
          generateBufferToDest a id r11 n 0 0 ++ condPopRelativeStorage a id n ++ jmp, fresh)
    | none =>
      let (c, fresh) := generateArguments fresh (.tempStorage id) r10 0 arguments
      let (c', fresh) := generateExpressions fresh reference
      (condPushRelativeStorage a id n ++ c ++ c' ++ [.movqRegToReg rax r11] ++
        generateBufferToDest a id r11 n contSize 0 ++ condPopRelativeStorage a id n ++
        loadContinuation, fresh)
  | .invoke id reference arguments =>
    let n := arguments.length
    let (c, fresh) := generateArguments fresh (.tempStorage id) r10 0 arguments
    let (c', fresh) := generateExpressions fresh reference
    (condPushRelativeStorage a id n ++ c ++
      (if a.containsFlag id = .withExpr then pushArguments a id n else []) ++ c' ++
      [.movqRegToReg rax r11] ++ (argumentRegisters.take n).map .popqReg ++
      [.movqImmToReg (.literal 0) rax, .callReg r11] ++
      (if n > 6 then [.addqImmToReg (wordSize * (BitVec.ofNat 64 n - 6)) rsp] else []), fresh)

/-- The loops that evaluate arguments and store each at the next offset. -/
def generateArguments (fresh : Nat) (bndg : Bndg) (scratch : Reg) (offset : Word) :
    List Expr → Code × Nat
  | [] => ([], fresh)
  | t :: arguments =>
    let (c, fresh) := generateExpressions fresh t
    let (c', fresh) := generateArguments fresh bndg scratch (offset + wordSize) arguments
    (c ++ makeStore a rax bndg offset scratch ++ c', fresh)

end

/-- The loop of `generate_program`. -/
def generateExprs (fresh : Nat) : List Expr → Code × Nat
  | [] => ([], fresh)
  | expr :: exprs =>
    let (c, fresh) := generateExpressions a fresh expr
    let (c', fresh) := generateExprs fresh exprs
    (c ++ c', fresh)

/-- `generate_program` -/
def generateProgram (exprs : List Expr) : Code := (generateExprs a 0 exprs).1

end

/-! ## Labels -/

/-- The label is a new one with a number in a range, or belongs to one of some expressions. -/
def Bndg.LabelOf (ids : List ExprId) (range : Nat → Prop) : Bndg → Prop
  | aug bindingAug => bindingAug.expression ∈ ids
  | contInstr expression => expression ∈ ids
  | tempStorage _ => False
  | fresh n => range n

/-- Code that labels each binding once, all of them among those of some expressions and
the new ones of a range. -/
structure Labelled (c : Code) (ids : List ExprId) (range : Nat → Prop) : Prop where
  nodup : (labels c).Nodup
  labelOf : ∀ b ∈ labels c, b.LabelOf ids range

namespace Labelled

theorem of_nil {c : Code} (h : labels c = []) : Labelled c [] (fun _ => False) where
  nodup := by
    rw [h]
    exact .nil
  labelOf b hb := by
    rw [h] at hb
    exact absurd hb List.not_mem_nil

theorem mono {c : Code} {ids ids' : List ExprId} {range range' : Nat → Prop}
    (h : Labelled c ids range) (hids : ids ⊆ ids') (hrange : ∀ n, range n → range' n) :
    Labelled c ids' range' where
  nodup := h.nodup
  labelOf b hb := by
    have hlabel := h.labelOf b hb
    cases b with
    | aug bindingAug => exact hids hlabel
    | contInstr expression => exact hids hlabel
    | tempStorage expression => exact hlabel
    | fresh n => exact hrange n hlabel

theorem append {c c' : Code} {ids ids' : List ExprId} {range range' : Nat → Prop}
    (h : Labelled c ids range) (h' : Labelled c' ids' range')
    (hids : ids.Disjoint ids') (hrange : ∀ n, range n → ¬ range' n) :
    Labelled (c ++ c') (ids ++ ids') (fun n => range n ∨ range' n) where
  nodup := by
    rw [labels_append, List.nodup_append]
    refine ⟨h.nodup, h'.nodup, ?_⟩
    rintro b hb _ hb' rfl
    have hlabel := h.labelOf b hb
    have hlabel' := h'.labelOf b hb'
    cases b with
    | aug bindingAug => exact hids hlabel hlabel'
    | contInstr expression => exact hids hlabel hlabel'
    | tempStorage expression => exact hlabel
    | fresh n => exact hrange n hlabel hlabel'
  labelOf b hb := by
    rw [labels_append, List.mem_append] at hb
    rcases hb with hb | hb
    · have hlabel := h.labelOf b hb
      cases b with
      | aug bindingAug => exact List.mem_append_left _ hlabel
      | contInstr expression => exact List.mem_append_left _ hlabel
      | tempStorage expression => exact hlabel
      | fresh n => exact Or.inl hlabel
    · have hlabel := h'.labelOf b hb
      cases b with
      | aug bindingAug => exact List.mem_append_right _ hlabel
      | contInstr expression => exact List.mem_append_right _ hlabel
      | tempStorage expression => exact hlabel
      | fresh n => exact Or.inr hlabel

/-- Code without labels around code with labels. -/
theorem plain_append {c c' : Code} {ids : List ExprId} {range : Nat → Prop}
    (hc : labels c = []) (h : Labelled c' ids range) : Labelled (c ++ c') ids range :=
  ⟨by rw [labels_append, hc]; exact h.nodup, by rw [labels_append, hc]; exact h.labelOf⟩

theorem append_plain {c c' : Code} {ids : List ExprId} {range : Nat → Prop}
    (h : Labelled c ids range) (hc : labels c' = []) : Labelled (c ++ c') ids range := by
  constructor
  · rw [labels_append, hc, List.append_nil]
    exact h.nodup
  · rw [labels_append, hc, List.append_nil]
    exact h.labelOf

theorem fresh (n : Nat) : Labelled [.label (.fresh n)] [] (· = n) where
  nodup := List.nodup_singleton _
  labelOf b hb := by
    rw [List.mem_singleton.mp hb]
    exact rfl

theorem aug (reference : Symbol) (id : ExprId) :
    Labelled [.label (.aug ⟨reference, id⟩)] [id] (fun _ => False) where
  nodup := List.nodup_singleton _
  labelOf b hb := by
    rw [List.mem_singleton.mp hb]
    exact List.mem_singleton_self id

theorem contInstr (id : ExprId) :
    Labelled [.label (.contInstr id)] [id] (fun _ => False) where
  nodup := List.nodup_singleton _
  labelOf b hb := by
    rw [List.mem_singleton.mp hb]
    exact List.mem_singleton_self id

end Labelled

section

variable (a : Analysis)

theorem labels_makeLoad (bndg : Bndg) (offset : Word) (dest scratch : Reg) :
    labels (makeLoad a bndg offset dest scratch) = [] := by
  unfold makeLoad
  cases a.type bndg <;> rfl

theorem labels_makeStore (src : Reg) (bndg : Bndg) (offset : Word) (scratch : Reg) :
    labels (makeStore a src bndg offset scratch) = [] := by
  unfold makeStore
  cases a.type bndg <;> rfl

theorem labels_makeLoadAddress (bndg : Bndg) (dest : Reg) :
    labels (makeLoadAddress a bndg dest) = [] := by
  unfold makeLoadAddress
  cases a.type bndg <;> rfl

theorem labels_sgenerateSymbols (bindingAug : BindingAug) :
    labels (sgenerateSymbols a bindingAug) = [] := by
  unfold sgenerateSymbols
  split
  case h_3 => exact labels_makeLoadAddress a _ _
  all_goals
    split
    · exact labels_makeLoad a _ _ _ _
    · exact labels_makeLoadAddress a _ _

theorem labels_makeStoreContinuation (id : ExprId) (reference : Symbol) :
    labels (makeStoreContinuation a id reference) = [] := by
  simp [makeStoreContinuation, labels_makeStore, labels_makeLoadAddress]

theorem labels_condPushRelativeStorage (id : ExprId) (n : Nat) :
    labels (condPushRelativeStorage a id n) = [] := by
  unfold condPushRelativeStorage
  split <;> rfl

theorem labels_condPopRelativeStorage (id : ExprId) (n : Nat) :
    labels (condPopRelativeStorage a id n) = [] := by
  unfold condPopRelativeStorage
  split <;> rfl

theorem labels_generateBufferToDest (id : ExprId) (dest : Reg) (n : Nat) :
    ∀ offset tmpOffset, labels (generateBufferToDest a id dest n offset tmpOffset) = [] := by
  induction n with
  | zero => exact fun _ _ => rfl
  | succ n ih =>
    intro offset tmpOffset
    unfold generateBufferToDest
    rw [labels_append, labels_append, labels_makeLoad, ih]
    rfl

theorem labels_popqs (regs : List Reg) :
    labels (regs.map .popqReg : Code) = [] := by
  induction regs with
  | nil => rfl
  | cons reg regs ih => exact ih

theorem labels_pushArguments (id : ExprId) (n : Nat) : labels (pushArguments a id n) = [] := by
  induction n with
  | zero => rfl
  | succ n ih =>
    unfold pushArguments
    rw [labels_append, labels_append, labels_makeLoad, ih]
    rfl

/-- Between two values of the counter. -/
def Between (fresh fresh' n : Nat) : Prop := fresh ≤ n ∧ n < fresh'

def exprIds (e : Expr) : List ExprId := (visitExpressions e).map Expr.id

def argumentIds (us : List Expr) : List ExprId := (visitArguments us).map Expr.id

/-- The code of an expression has labels of its own. -/
def LabelsOwn (ids : List ExprId) (fresh : Nat) (code : Code × Nat) : Prop :=
  ids.Nodup → fresh ≤ code.2 ∧ Labelled code.1 ids (Between fresh code.2)

theorem LabelsOwn.of_nil {c : Code} (h : labels c = []) (ids : List ExprId) (fresh : Nat) :
    LabelsOwn ids fresh (c, fresh) :=
  fun _ => ⟨Nat.le_refl fresh,
    (Labelled.of_nil h).mono (List.nil_subset ids) fun _ hn => hn.elim⟩

/-- Two pieces of code, one after the other. -/
theorem LabelsOwn.append {ids ids' : List ExprId} {fresh : Nat} {code code' : Code × Nat}
    (h : LabelsOwn ids fresh code) (h' : LabelsOwn ids' code.2 code') :
    LabelsOwn (ids ++ ids') fresh (code.1 ++ code'.1, code'.2) := by
  intro hids
  have hn := List.nodup_append.mp hids
  obtain ⟨hle, hlabelled⟩ := h hn.1
  obtain ⟨hle', hlabelled'⟩ := h' hn.2.1
  refine ⟨hle.trans hle', (hlabelled.append hlabelled' (List.disjoint_of_nodup_append hids) ?_).mono
    (List.Subset.refl _) ?_⟩
  · intro n hbetween hbetween'
    have := hbetween.2
    have := hbetween'.1
    omega
  · intro n hor
    show fresh ≤ n ∧ n < code'.2
    rcases hor with ⟨_, _⟩ | ⟨_, _⟩ <;> omega

theorem LabelsOwn.append_plain {ids : List ExprId} {fresh fresh' : Nat} {c d : Code}
    (h : LabelsOwn ids fresh (c, fresh')) (hc : labels d = []) :
    LabelsOwn ids fresh (c ++ d, fresh') := by
  intro hids
  obtain ⟨hle, hlabelled⟩ := h hids
  exact ⟨hle, hlabelled.append_plain hc⟩

theorem LabelsOwn.plain_append {ids : List ExprId} {fresh fresh' : Nat} {c c' : Code}
    (hc : labels c = []) (h : LabelsOwn ids fresh (c', fresh')) :
    LabelsOwn ids fresh (c ++ c', fresh') := by
  intro hids
  obtain ⟨hle, hlabelled⟩ := h hids
  exact ⟨hle, hlabelled.plain_append hc⟩

/-- The identifiers may be more, and in another order. -/
theorem LabelsOwn.of_sublist {ids ids' : List ExprId} {fresh : Nat} {code : Code × Nat}
    (h : LabelsOwn ids fresh code) (hids : ids.Subperm ids') : LabelsOwn ids' fresh code := by
  intro hn
  obtain ⟨l, hperm, hsub⟩ := hids
  obtain ⟨hle, hlabelled⟩ := h (hperm.nodup_iff.mp (hsub.nodup hn))
  refine ⟨hle, hlabelled.mono ?_ fun _ h => h⟩
  exact fun x hx => hsub.subset (hperm.mem_iff.mpr hx)

/-- A label that was made before the code in front of it. -/
theorem LabelsOwn.own_label {ids : List ExprId} {fresh fresh' : Nat} {c : Code}
    (h : LabelsOwn ids (fresh + 1) (c, fresh')) :
    LabelsOwn ids fresh (c ++ [.label (.fresh fresh)], fresh') := by
  intro hids
  obtain ⟨hle, hlabelled⟩ := h hids
  have hle : fresh + 1 ≤ fresh' := hle
  refine ⟨(Nat.le_succ fresh).trans hle, (hlabelled.append (.fresh fresh) ?_ ?_).mono ?_ ?_⟩
  · exact List.disjoint_nil_right ids
  · rintro n ⟨hn, _⟩ rfl
    omega
  · rw [List.append_nil]
    exact List.Subset.refl ids
  · intro n hor
    show fresh ≤ n ∧ n < fresh'
    rcases hor with ⟨_, _⟩ | rfl <;> omega

/-- A label that is made after the code in front of it. -/
theorem LabelsOwn.next_label {ids : List ExprId} {fresh fresh' : Nat} {c : Code}
    (h : LabelsOwn ids fresh (c, fresh')) :
    LabelsOwn ids fresh (c ++ [.label (.fresh fresh')], fresh' + 1) := by
  intro hids
  obtain ⟨hle, hlabelled⟩ := h hids
  have hle : fresh ≤ fresh' := hle
  refine ⟨hle.trans (Nat.le_succ fresh'), (hlabelled.append (.fresh fresh') ?_ ?_).mono ?_ ?_⟩
  · exact List.disjoint_nil_right ids
  · rintro n ⟨_, hn⟩ rfl
    exact Nat.lt_irrefl _ hn
  · rw [List.append_nil]
    exact List.Subset.refl ids
  · intro n hor
    show fresh ≤ n ∧ n < fresh' + 1
    rcases hor with ⟨_, hn⟩ | rfl
    · have hn : n < fresh' := hn
      omega
    · omega

/-- A label of the expression itself. -/
theorem LabelsOwn.append_label {ids : List ExprId} {fresh fresh' : Nat} {c : Code} {b : Bndg}
    {id : ExprId} (h : LabelsOwn ids fresh (c, fresh'))
    (hb : Labelled [.label b] [id] (fun _ => False)) :
    LabelsOwn (ids ++ [id]) fresh (c ++ [.label b], fresh') := by
  intro hids
  obtain ⟨hle, hlabelled⟩ := h (List.nodup_append.mp hids).1
  refine ⟨hle, (hlabelled.append hb (List.disjoint_of_nodup_append hids) fun _ _ h => h).mono
    (List.Subset.refl _) ?_⟩
  exact fun n hor => hor.elim (fun h => h) False.elim

theorem LabelsOwn.label_append {ids : List ExprId} {fresh fresh' : Nat} {c : Code} {b : Bndg}
    {id : ExprId} (hb : Labelled [.label b] [id] (fun _ => False))
    (h : LabelsOwn ids fresh (c, fresh')) :
    LabelsOwn (ids ++ [id]) fresh ([.label b] ++ c, fresh') := by
  intro hids
  obtain ⟨hle, hlabelled⟩ := h (List.nodup_append.mp hids).1
  refine ⟨hle, (hb.append hlabelled (List.disjoint_of_nodup_append hids).symm fun _ h =>
    h.elim).mono
    ?_ ?_⟩
  · exact (List.perm_append_comm).subset
  · exact fun n hor => hor.elim False.elim fun h => h

variable {condition consequent alternate expression reference : Expr} {arguments : List Expr}

theorem labelsOwn_ifExpr (id : ExprId) (fresh : Nat)
    (hcondition : ∀ n, LabelsOwn (exprIds condition) n (generateExpressions a n condition))
    (hconsequent : ∀ n, LabelsOwn (exprIds consequent) n (generateExpressions a n consequent))
    (halternate : ∀ n, LabelsOwn (exprIds alternate) n (generateExpressions a n alternate)) :
    LabelsOwn (exprIds (.ifExpr id condition consequent alternate)) fresh
      (generateExpressions a fresh (.ifExpr id condition consequent alternate)) := by
  have hcondition := hcondition fresh
  rcases hc : generateExpressions a fresh condition with ⟨c, n⟩
  rw [hc] at hcondition
  have hconsequent := hconsequent (n + 1)
  rcases hc' : generateExpressions a (n + 1) consequent with ⟨c', n'⟩
  rw [hc'] at hconsequent
  have halternate := halternate (n' + 1)
  rcases hc'' : generateExpressions a (n' + 1) alternate with ⟨c'', n''⟩
  rw [hc''] at halternate
  have hfirst := hcondition.append_plain (d := [.orqRegToReg rax rax,
    .jeRel (.lnkrSubRipToRef (.fresh n))]) rfl
  have hsecond := (hconsequent.append_plain
    (d := [.jmpRel (.lnkrSubRipToRef (.fresh n'))]) rfl).own_label
  have hall := hfirst.append (hsecond.append halternate.own_label)
  simp only [generateExpressions, hc, hc', hc'']
  simp only [List.append_assoc, List.cons_append, List.nil_append] at hall ⊢
  apply hall.of_sublist
  show List.Subperm _ ((visitExpressions condition ++ visitExpressions consequent ++
    visitExpressions alternate ++ [_]).map Expr.id)
  rw [List.map_append, List.map_append, List.map_append, List.append_assoc (List.map _ _)]
  exact (List.sublist_append_left _ _).subperm

theorem labelsOwn_function (id : ExprId) (symbol : Symbol) (parameters : List Symbol) (fresh : Nat)
    (hbody : ∀ n, LabelsOwn (exprIds expression) n (generateExpressions a n expression)) :
    LabelsOwn (exprIds (.function id symbol parameters expression)) fresh
      (generateExpressions a fresh (.function id symbol parameters expression)) := by
  have hbody := hbody (fresh + 1)
  rcases hc : generateExpressions a (fresh + 1) expression with ⟨c, n⟩
  rw [hc] at hbody
  have hbody := (hbody.append_plain (d := functionExit) rfl).plain_append
    (c := functionEntry a id) rfl
  have hbefore : labels (makeLoadAddress a (.aug ⟨symbol, id⟩) rax ++
      [.jmpRel (.lnkrSubRipToRef (.fresh fresh))]) = [] := by
    rw [labels_append, labels_makeLoadAddress]
    rfl
  have hall := ((hbody.label_append (.aug symbol id)).plain_append hbefore).own_label
  show LabelsOwn ((visitExpressions expression ++ [_]).map Expr.id) _ _
  rw [List.map_append]
  simp only [generateExpressions, hc]
  simp only [List.append_assoc, List.cons_append, List.nil_append] at hall ⊢
  exact hall

theorem labelsOwn_continuation (id : ExprId) (symbol : Symbol) (parameters : List Symbol)
    (fresh : Nat)
    (hbody : ∀ n, LabelsOwn (exprIds expression) n (generateExpressions a n expression)) :
    LabelsOwn (exprIds (.continuation id symbol parameters expression)) fresh
      (generateExpressions a fresh (.continuation id symbol parameters expression)) := by
  have hbody := hbody (fresh + 1)
  rcases hc : generateExpressions a (fresh + 1) expression with ⟨c, n⟩
  rw [hc] at hbody
  have hbefore : labels ((if a.escapes id then
        makeLoadAddress a (.aug ⟨symbol, id⟩) rax ++ makeStoreContinuation a id symbol
      else []) ++ [.jmpRel (.lnkrSubRipToRef (.fresh fresh))]) = [] := by
    split
    · rw [labels_append, labels_append, labels_makeLoadAddress, labels_makeStoreContinuation]
      rfl
    · rfl
  have hall := ((hbody.label_append (.contInstr id)).plain_append hbefore).own_label
  show LabelsOwn ((visitExpressions expression ++ [_]).map Expr.id) _ _
  rw [List.map_append]
  simp only [generateExpressions, hc]
  simp only [List.append_assoc, List.cons_append, List.nil_append] at hall ⊢
  exact hall

theorem labelsOwn_withExpr (id : ExprId) (symbol parameter : Symbol) (fresh : Nat)
    (hbody : ∀ n, LabelsOwn (exprIds expression) n (generateExpressions a n expression)) :
    LabelsOwn (exprIds (.withExpr id symbol parameter expression)) fresh
      (generateExpressions a fresh (.withExpr id symbol parameter expression)) := by
  have hbody := hbody fresh
  rcases hc : generateExpressions a fresh expression with ⟨c, n⟩
  rw [hc] at hbody
  have hbefore : labels (if a.escapes id then makeStoreContinuation a id symbol else []) =
      [] := by
    split <;> simp [labels_makeStoreContinuation]
  have hbody := (hbody.append_plain
    (d := [.jmpRel (.lnkrSubRipToRef (.fresh n))]) rfl).append_label (.contInstr id)
  have hall := ((hbody.append_plain
    (labels_makeLoad a (.aug ⟨parameter, id⟩) 0 rax r10)).plain_append hbefore).next_label
  show LabelsOwn ((visitExpressions expression ++ [_]).map Expr.id) _ _
  rw [List.map_append]
  simp only [generateExpressions, hc]
  simp only [List.append_assoc, List.cons_append, List.nil_append] at hall ⊢
  exact hall

theorem labelsOwn_invoke (id : ExprId) (fresh : Nat)
    (hreference : ∀ n, LabelsOwn (exprIds reference) n (generateExpressions a n reference))
    (harguments : LabelsOwn (argumentIds arguments) fresh
      (generateArguments a fresh (.tempStorage id) r10 0 arguments)) :
    LabelsOwn (exprIds (.invoke id reference arguments)) fresh
      (generateExpressions a fresh (.invoke id reference arguments)) := by
  rcases hc : generateArguments a fresh (.tempStorage id) r10 0 arguments with ⟨c, n⟩
  rw [hc] at harguments
  have hreference := hreference n
  rcases hc' : generateExpressions a n reference with ⟨c', n'⟩
  rw [hc'] at hreference
  have hpush : labels (if a.containsFlag id = .withExpr then pushArguments a id arguments.length
      else []) = [] := by
    split <;> simp [labels_pushArguments]
  have hcall : labels (([.movqRegToReg rax r11] ++
      (argumentRegisters.take arguments.length).map .popqReg ++
      [.movqImmToReg (.literal 0) rax, .callReg r11] ++
      (if arguments.length > 6 then
        [.addqImmToReg (wordSize * (BitVec.ofNat 64 arguments.length - 6)) rsp]
      else []) : Code)) = [] := by
    rw [labels_append, labels_append, labels_append, labels_popqs]
    split <;> rfl
  have hfirst := (harguments.plain_append
    (labels_condPushRelativeStorage a id arguments.length)).append_plain hpush
  have hall := hfirst.append (hreference.append_plain hcall)
  simp only [generateExpressions, hc, hc']
  simp only [List.append_assoc, List.cons_append, List.nil_append] at hall ⊢
  apply hall.of_sublist
  show List.Subperm _ ((visitExpressions reference ++ visitArguments arguments ++ [_]).map
    Expr.id)
  rw [List.map_append, List.map_append]
  exact (List.perm_append_comm.subperm).trans (List.sublist_append_left _ _).subperm

theorem subperm_exprIds_jump (id : ExprId) (reference : Expr) (arguments : List Expr) :
    (exprIds reference ++ argumentIds arguments).Subperm
      (exprIds (.jump id reference arguments)) := by
  show List.Subperm _ ((visitExpressions reference ++ visitArguments arguments ++ [_]).map Expr.id)
  rw [List.map_append, List.map_append]
  exact (List.sublist_append_left _ _).subperm

/-- A jump to the code of its target evaluates its reference only where it is the target. -/
theorem labelsOwn_directJump {id : ExprId} {target : Expr}
    (htarget : a.shortCircuit id = some target) (fresh : Nat)
    (hreference : ∀ n, LabelsOwn (exprIds reference) n (generateExpressions a n reference))
    (harguments : ∀ n, LabelsOwn (argumentIds arguments) n
      (generateArguments a n (.tempStorage id) r10 0 arguments)) :
    LabelsOwn (exprIds (.jump id reference arguments)) fresh
      (generateExpressions a fresh (.jump id reference arguments)) := by
  have hreference : LabelsOwn (exprIds reference) fresh
      (if isContinuation reference then generateExpressions a fresh reference
        else ([], fresh)) := by
    split
    · exact hreference fresh
    · exact .of_nil rfl _ _
  unfold generateExpressions
  rcases hc : (if isContinuation reference then generateExpressions a fresh reference
    else ([], fresh)) with ⟨c, n⟩
  rw [hc] at hreference
  cases hparameters : continuationParameters target with
  | nil =>
    simp only [htarget, hparameters]
    exact (hreference.append_plain rfl).of_sublist
      ((List.sublist_append_left _ _).subperm.trans (subperm_exprIds_jump id reference arguments))
  | cons parameter parameters =>
    have harguments := harguments n
    rcases hc' : generateArguments a n (.tempStorage id) r10 0 arguments with ⟨c', n'⟩
    rw [hc'] at harguments
    have hjump : labels (makeLoadAddress a (.aug ⟨parameter, target.id⟩) r11 ++
        generateBufferToDest a id r11 arguments.length 0 0 ++
        condPopRelativeStorage a id arguments.length ++
        [.jmpRel (.lnkrSubRipToRef (.contInstr target.id))]) = [] := by
      rw [labels_append, labels_append, labels_append, labels_makeLoadAddress,
        labels_generateBufferToDest, labels_condPopRelativeStorage]
      rfl
    have hall := (hreference.append_plain
      (labels_condPushRelativeStorage a id arguments.length)).append
        (harguments.append_plain hjump)
    simp only [htarget, hparameters, hc']
    simp only [List.append_assoc] at hall ⊢
    exact hall.of_sublist (subperm_exprIds_jump id reference arguments)

theorem labelsOwn_jump {id : ExprId} (htarget : a.shortCircuit id = none) (fresh : Nat)
    (hreference : ∀ n, LabelsOwn (exprIds reference) n (generateExpressions a n reference))
    (harguments : LabelsOwn (argumentIds arguments) fresh
      (generateArguments a fresh (.tempStorage id) r10 0 arguments)) :
    LabelsOwn (exprIds (.jump id reference arguments)) fresh
      (generateExpressions a fresh (.jump id reference arguments)) := by
  rcases hc : generateArguments a fresh (.tempStorage id) r10 0 arguments with ⟨c, n⟩
  rw [hc] at harguments
  have hreference := hreference n
  rcases hc' : generateExpressions a n reference with ⟨c', n'⟩
  rw [hc'] at hreference
  have hjump : labels ([.movqRegToReg rax r11] ++
      generateBufferToDest a id r11 arguments.length contSize 0 ++
      condPopRelativeStorage a id arguments.length ++ loadContinuation) = [] := by
    rw [labels_append, labels_append, labels_append, labels_generateBufferToDest,
      labels_condPopRelativeStorage]
    rfl
  have hall := (harguments.plain_append
    (labels_condPushRelativeStorage a id arguments.length)).append
      (hreference.append_plain hjump)
  simp only [generateExpressions, htarget, hc, hc']
  simp only [List.append_assoc] at hall ⊢
  exact hall.of_sublist
    (List.perm_append_comm.subperm.trans (subperm_exprIds_jump id reference arguments))

mutual

theorem labelsOwn_generateExpressions (fresh : Nat) : ∀ e : Expr,
    LabelsOwn (exprIds e) fresh (generateExpressions a fresh e)
  | .literal _ _ => .of_nil rfl _ _
  | .symbol _ _ bindingAug => .of_nil (labels_sgenerateSymbols a bindingAug) _ _
  | .constrain id expression signature => by
    apply (labelsOwn_generateExpressions fresh expression).of_sublist
    show (exprIds expression).Subperm ((visitExpressions expression ++ [_]).map Expr.id)
    rw [List.map_append]
    exact (List.sublist_append_left _ _).subperm
  | .storage id reference arguments => by
    have harguments := labelsOwn_generateArguments fresh (.aug ⟨reference, id⟩) r11 0 arguments
    apply (harguments.append_plain (labels_makeLoadAddress a (.aug ⟨reference, id⟩) rax)).of_sublist
    show (argumentIds arguments).Subperm ((visitArguments arguments ++ [_]).map Expr.id)
    rw [List.map_append]
    exact (List.sublist_append_left _ _).subperm
  | .ifExpr id condition consequent alternate =>
    labelsOwn_ifExpr a id fresh (fun n => labelsOwn_generateExpressions n condition)
      (fun n => labelsOwn_generateExpressions n consequent)
      (fun n => labelsOwn_generateExpressions n alternate)
  | .function id reference parameters expression =>
    labelsOwn_function a id reference parameters fresh
      fun n => labelsOwn_generateExpressions n expression
  | .continuation id reference parameters expression =>
    labelsOwn_continuation a id reference parameters fresh
      fun n => labelsOwn_generateExpressions n expression
  | .withExpr id reference parameter expression =>
    labelsOwn_withExpr a id reference parameter fresh
      fun n => labelsOwn_generateExpressions n expression
  | .invoke id reference arguments =>
    labelsOwn_invoke a id fresh (fun n => labelsOwn_generateExpressions n reference)
      (labelsOwn_generateArguments fresh (.tempStorage id) r10 0 arguments)
  | .jump id reference arguments => by
    cases htarget : a.shortCircuit id with
    | some target =>
      exact labelsOwn_directJump a htarget fresh
        (fun n => labelsOwn_generateExpressions n reference)
        fun n => labelsOwn_generateArguments n (.tempStorage id) r10 0 arguments
    | none =>
      exact labelsOwn_jump a htarget fresh (fun n => labelsOwn_generateExpressions n reference)
        (labelsOwn_generateArguments fresh (.tempStorage id) r10 0 arguments)

theorem labelsOwn_generateArguments (fresh : Nat) (bndg : Bndg) (scratch : Reg) (offset : Word) :
    ∀ us : List Expr,
    LabelsOwn (argumentIds us) fresh (generateArguments a fresh bndg scratch offset us)
  | [] => .of_nil rfl _ _
  | t :: arguments => by
    have ht := labelsOwn_generateExpressions fresh t
    have harguments := labelsOwn_generateArguments (generateExpressions a fresh t).2 bndg scratch
      (offset + wordSize) arguments
    show LabelsOwn ((visitExpressions t ++ visitArguments arguments).map Expr.id) _ _
    rw [List.map_append]
    exact LabelsOwn.append (ht.append_plain (labels_makeStore a rax bndg offset scratch)) harguments

end

theorem labelsOwn_generateExprs : ∀ (fresh : Nat) (exprs : List Expr),
    LabelsOwn ((visited exprs).map Expr.id) fresh (generateExprs a fresh exprs)
  | _, [] => .of_nil rfl _ _
  | fresh, expr :: exprs => by
    have hexpr := labelsOwn_generateExpressions a fresh expr
    have hexprs := labelsOwn_generateExprs (generateExpressions a fresh expr).2 exprs
    show LabelsOwn ((visitExpressions expr ++ visited exprs).map Expr.id) _ _
    rw [List.map_append]
    exact hexpr.append hexprs

/-- No binding is labelled twice in the code of a program. -/
theorem labels_generateProgram_nodup {exprs : List Expr}
    (h : ((visited exprs).map Expr.id).Nodup) : (labels (generateProgram a exprs)).Nodup :=
  ((labelsOwn_generateExprs a 0 exprs) h).2.nodup

/-! ## Arguments -/

/-- Code in which every instruction has arguments of its kinds. -/
def AllFormed (c : Code) : Prop := ∀ i ∈ c, i.Formed

@[simp] theorem allFormed_nil : AllFormed [] := fun _ h => absurd h List.not_mem_nil

@[simp] theorem allFormed_append (c c' : Code) :
    AllFormed (c ++ c') ↔ AllFormed c ∧ AllFormed c' := List.forall_mem_append

@[simp] theorem allFormed_cons (i : Instruction Bndg) (c : Code) :
    AllFormed (i :: c) ↔ i.Formed ∧ AllFormed c := List.forall_mem_cons

attribute [local simp] Instruction.Formed StaticValue.IsDisplacement StaticValue.IsConstant
  StaticValue.IsTarget

@[simp] theorem formed_makeLoad (bndg : Bndg) (offset : Word) (dest scratch : Reg) :
    AllFormed (makeLoad a bndg offset dest scratch) := by
  unfold makeLoad
  cases a.type bndg <;> simp

@[simp] theorem formed_makeStore (src : Reg) (bndg : Bndg) (offset : Word) (scratch : Reg) :
    AllFormed (makeStore a src bndg offset scratch) := by
  unfold makeStore
  cases a.type bndg <;> simp

@[simp] theorem formed_makeLoadAddress (bndg : Bndg) (dest : Reg) :
    AllFormed (makeLoadAddress a bndg dest) := by
  unfold makeLoadAddress
  cases a.type bndg <;> simp

theorem formed_sgenerateSymbols (bindingAug : BindingAug) :
    AllFormed (sgenerateSymbols a bindingAug) := by
  unfold sgenerateSymbols
  split
  case h_3 => exact formed_makeLoadAddress a _ _
  all_goals
    split
    · exact formed_makeLoad a _ _ _ _
    · exact formed_makeLoadAddress a _ _

@[simp] theorem formed_makeStoreContinuation (id : ExprId) (reference : Symbol) :
    AllFormed (makeStoreContinuation a id reference) := by
  simp [makeStoreContinuation]

@[simp] theorem formed_condPushRelativeStorage (id : ExprId) (n : Nat) :
    AllFormed (condPushRelativeStorage a id n) := by
  unfold condPushRelativeStorage
  split <;> simp

@[simp] theorem formed_condPopRelativeStorage (id : ExprId) (n : Nat) :
    AllFormed (condPopRelativeStorage a id n) := by
  unfold condPopRelativeStorage
  split <;> simp

@[simp] theorem formed_generateBufferToDest (id : ExprId) (dest : Reg) (n : Nat) :
    ∀ offset tmpOffset, AllFormed (generateBufferToDest a id dest n offset tmpOffset) := by
  induction n with
  | zero => exact fun _ _ => allFormed_nil
  | succ n ih =>
    intro offset tmpOffset
    simp [generateBufferToDest, ih]

@[simp] theorem formed_pushArguments (id : ExprId) (n : Nat) :
    AllFormed (pushArguments a id n) := by
  induction n with
  | zero => exact allFormed_nil
  | succ n ih => simp [pushArguments, ih]

@[simp] theorem formed_popqs (n : Nat) (regs : List Reg) :
    AllFormed ((regs.map .popqReg).take n) := by
  intro i hi
  obtain ⟨reg, _, rfl⟩ := List.mem_map.mp (List.mem_of_mem_take hi)
  trivial

@[simp] theorem formed_functionEntry (id : ExprId) : AllFormed (functionEntry a id) := by
  simp [functionEntry]

@[simp] theorem formed_functionExit : AllFormed functionExit := by
  simp [functionExit]

@[simp] theorem formed_loadContinuation : AllFormed loadContinuation := by
  simp [loadContinuation]

mutual

theorem formed_generateExpressions : ∀ (e : Expr) (fresh : Nat),
    AllFormed (generateExpressions a fresh e).1
  | .literal _ _, _ => by simp [generateExpressions]
  | .symbol _ _ bindingAug, _ => formed_sgenerateSymbols a bindingAug
  | .constrain _ expression _, fresh => formed_generateExpressions expression fresh
  | .storage _ _ arguments, _ => by
    simp [generateExpressions, formed_generateArguments arguments]
  | .ifExpr _ condition consequent alternate, _ => by
    simp [generateExpressions, formed_generateExpressions condition,
      formed_generateExpressions consequent, formed_generateExpressions alternate]
  | .function _ _ _ expression, _ => by
    simp [generateExpressions, formed_generateExpressions expression]
  | .continuation id _ _ expression, _ => by
    cases hescapes : a.escapes id <;>
      simp [generateExpressions, hescapes, formed_generateExpressions expression]
  | .withExpr id _ _ expression, _ => by
    cases hescapes : a.escapes id <;>
      simp [generateExpressions, hescapes, formed_generateExpressions expression]
  | .jump id reference arguments, fresh => by
    cases htarget : a.shortCircuit id with
    | none =>
      simp [generateExpressions, htarget, formed_generateArguments arguments,
        formed_generateExpressions reference]
    | some target =>
      have hreference : AllFormed (if isContinuation reference then
          generateExpressions a fresh reference else ([], fresh)).1 := by
        split
        · exact formed_generateExpressions reference fresh
        · exact allFormed_nil
      cases hparameters : continuationParameters target <;>
        simp [generateExpressions, htarget, hparameters, hreference,
          formed_generateArguments arguments]
  | .invoke id reference arguments, _ => by
    by_cases hwith : a.containsFlag id = .withExpr <;> by_cases hn : arguments.length > 6 <;>
      simp [generateExpressions, hwith, hn, formed_generateArguments arguments,
        formed_generateExpressions reference]

theorem formed_generateArguments : ∀ (us : List Expr) (fresh : Nat) (bndg : Bndg)
    (scratch : Reg) (offset : Word), AllFormed (generateArguments a fresh bndg scratch offset us).1
  | [], _, _, _, _ => allFormed_nil
  | t :: arguments, _, _, _, _ => by
    simp [generateArguments, formed_generateExpressions t, formed_generateArguments arguments]

end

/-- The generator gives the instructions arguments of their kinds. -/
theorem formed_generateProgram (exprs : List Expr) : AllFormed (generateProgram a exprs) := by
  have hexprs : ∀ fresh, AllFormed (generateExprs a fresh exprs).1 := by
    induction exprs with
    | nil => exact fun _ => allFormed_nil
    | cons expr exprs ih => simp [generateExprs, formed_generateExpressions a expr, ih]
  exact hexprs 0

end

/-! ## The assembled program -/

/-- Where the frames are small enough for their fields, the assembled code of a program decodes
to the operations of its listing, wherever it is and whatever its symbols are linked to; each
label has the position of the code that follows it, and each field that names a symbol has a
relocation. -/
theorem assemble_generateProgram (a : Analysis) {exprs : List Expr}
    (hids : ((visited exprs).map Expr.id).Nodup)
    (hfits : ∀ i ∈ generateProgram a exprs, i.FieldsFit) (offset stValue : Bndg → Word) :
    (∀ (symbol : Bndg → Word) (base : Word), X86.Decodes
      ((assemble offset stValue (generateProgram a exprs)).relas.foldl (relocate symbol base)
        (assemble offset stValue (generateProgram a exprs)).bin)
      (operations symbol base 0 (generateProgram a exprs))) ∧
    (∀ before after bndg, generateProgram a exprs = before ++ .label bndg :: after →
      (assemble offset stValue (generateProgram a exprs)).offset bndg =
          BitVec.ofNat 64 (assemble offset stValue before).pos ∧
        (assemble offset stValue (generateProgram a exprs)).stValue bndg =
          BitVec.ofNat 64 (assemble offset stValue before).pos) ∧
    (assemble offset stValue (generateProgram a exprs)).relas.map Rela.offset =
      fieldPositions 0 (generateProgram a exprs) ∧
    (fieldPositions 0 (generateProgram a exprs)).Pairwise (· < ·) := by
  have hencodable : ∀ i ∈ generateProgram a exprs, i.Encodable := by
    intro i hi
    exact ⟨formed_generateProgram a exprs i hi, hfits i hi⟩
  have hlabels : (labels (generateProgram a exprs)).Nodup := labels_generateProgram_nodup a hids
  obtain ⟨hdecodes, hplaces, hrelas, hpairwise⟩ :=
    assemble_correct offset stValue hencodable hlabels
  exact ⟨hdecodes, hplaces, hrelas, hpairwise⟩

/-- `(if 1 5 k)` where `k` is at a place of its own -/
def choiceProgram : List Expr :=
  [.ifExpr 0 (.literal 1 1) (.literal 2 5) (.symbol 3 none ⟨⟨4, none⟩, 5⟩)]

def absoluteAnalysis : Analysis where
  type _ := .absoluteStorage
  offset _ := 0
  expressionAt _ := none
  escapes _ := false
  shortCircuit _ := none
  containsFlag _ := .none
  bindingAugs _ := []

theorem generateProgram_choice : generateProgram absoluteAnalysis choiceProgram =
    [.movqImmToReg (.literal 1) rax, .orqRegToReg rax rax, .jeRel (.lnkrSubRipToRef (.fresh 0)),
      .movqImmToReg (.literal 5) rax, .jmpRel (.lnkrSubRipToRef (.fresh 1)), .label (.fresh 0),
      .movqImmToReg (.symbol (.aug ⟨⟨4, none⟩, 5⟩)) rax, .label (.fresh 1)] := rfl

/-- Where the labels and the symbol of `choiceProgram` are when its code is at 0x1000. -/
def choiceSymbol (bndg : Bndg) : Word :=
  if bndg = .fresh 0 then 0x1022 else if bndg = .fresh 1 then 0x102C else 0x5000

theorem assemble_generateProgram_choice :
    X86.Decodes
      ((assemble (fun _ => 0) (fun _ => 0)
          (generateProgram absoluteAnalysis choiceProgram)).relas.foldl
        (relocate choiceSymbol 0x1000)
        (assemble (fun _ => 0) (fun _ => 0) (generateProgram absoluteAnalysis choiceProgram)).bin)
      [.inst (.mov 8 (.reg 0) (.imm 1)), .inst (.alu .or (.reg 0) (.reg 0)), .je 15,
        .inst (.mov 8 (.reg 0) (.imm 5)), .jmp 10, .inst (.mov 8 (.reg 0) (.imm 0x5000))] := by
  have hfits : ∀ i ∈ generateProgram absoluteAnalysis choiceProgram, i.FieldsFit := by
    intro i hi
    rw [generateProgram_choice] at hi
    simp only [List.mem_cons, List.not_mem_nil, or_false] at hi
    rcases hi with rfl | rfl | rfl | rfl | rfl | rfl | rfl | rfl <;> exact trivial
  exact (assemble_generateProgram absoluteAnalysis (by decide) hfits (fun _ => 0)
    (fun _ => 0)).1 choiceSymbol 0x1000

end L2.Bootstrap
