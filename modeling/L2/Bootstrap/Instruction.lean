import L2.X86.Machine

/-!
# Assembly expressions

The assembly expressions that the generator of the bootstrap compiler makes, with their
arguments in the order of `make_asm1` to `make_asm3`.
-/

namespace L2.Bootstrap

open X86 (Word Reg)

/-- The arguments that end up in a field of the instruction: literals, symbols, and the two
pseudo instructions for the linker. -/
inductive StaticValue (Bndg : Type) where
  | literal (value : Word)
  | symbol (bndg : Bndg)
  | lnkrAddOffToRef (ref : Bndg) (offset : Word)
  | lnkrSubRipToRef (ref : Bndg)
  deriving DecidableEq

inductive Instruction (Bndg : Type) where
  | leaqMdbToReg (disp : StaticValue Bndg) (base dest : Reg)
  | movqRegToMdb (src : Reg) (disp : StaticValue Bndg) (base : Reg)
  | jmpRel (target : StaticValue Bndg)
  | movqMdbToReg (disp : StaticValue Bndg) (base dest : Reg)
  | pushqReg (src : Reg)
  | movqRegToReg (src dest : Reg)
  | subqImmToReg (imm : Word) (dest : Reg)
  | addqImmToReg (imm : Word) (dest : Reg)
  | popqReg (dest : Reg)
  | leave
  | ret
  | jmpToReg (target : Reg)
  | jeRel (target : StaticValue Bndg)
  | orqRegToReg (src dest : Reg)
  | movqImmToReg (imm : StaticValue Bndg) (dest : Reg)
  | callReg (target : Reg)
  | label (bndg : Bndg)
  deriving DecidableEq

variable {Bndg : Type}

namespace StaticValue

/-- Displacements are literals. -/
def IsDisplacement : StaticValue Bndg → Prop
  | literal _ => True
  | _ => False

/-- Constants are literals, symbols, or places at an offset from a symbol. -/
def IsConstant : StaticValue Bndg → Prop
  | lnkrSubRipToRef _ => False
  | _ => True

/-- Targets are relative to the end of the instruction. -/
def IsTarget : StaticValue Bndg → Prop
  | lnkrSubRipToRef _ => True
  | _ => False

end StaticValue

/-- A number that is one of 32 bits extended with its sign. -/
def FitsField (v : Word) : Prop := X86.signed 4 v = v

def StaticValue.FitsField : StaticValue Bndg → Prop
  | literal value => Bootstrap.FitsField value
  | _ => True

namespace Instruction

/-- The instructions with arguments as the generator gives them. -/
def Formed : Instruction Bndg → Prop
  | leaqMdbToReg disp _ _ | movqRegToMdb _ disp _ | movqMdbToReg disp _ _ => disp.IsDisplacement
  | jmpRel target | jeRel target => target.IsTarget
  | movqImmToReg imm _ => imm.IsConstant
  | _ => True

/-- Literals in fields of four bytes are within 32 bits. -/
def FieldsFit : Instruction Bndg → Prop
  | leaqMdbToReg disp _ _ | movqRegToMdb _ disp _ | movqMdbToReg disp _ _ => disp.FitsField
  | subqImmToReg value _ | addqImmToReg value _ => Bootstrap.FitsField value
  | _ => True

structure Encodable (i : Instruction Bndg) : Prop where
  formed : i.Formed
  fieldsFit : i.FieldsFit

end Instruction

/-- The bindings that are labelled, in order. -/
def labels (instrs : List (Instruction Bndg)) : List Bndg :=
  instrs.filterMap fun
    | .label bndg => some bndg
    | _ => none

@[simp] theorem labels_nil : labels ([] : List (Instruction Bndg)) = [] := rfl

@[simp] theorem labels_append (instrs instrs' : List (Instruction Bndg)) :
    labels (instrs ++ instrs') = labels instrs ++ labels instrs' := List.filterMap_append

@[simp] theorem labels_cons_label (bndg : Bndg) (instrs : List (Instruction Bndg)) :
    labels (.label bndg :: instrs) = bndg :: labels instrs := rfl

theorem mem_labels {bndg : Bndg} {instrs : List (Instruction Bndg)} (h : .label bndg ∈ instrs) :
    bndg ∈ labels instrs :=
  List.mem_filterMap.mpr ⟨_, h, rfl⟩

end L2.Bootstrap
