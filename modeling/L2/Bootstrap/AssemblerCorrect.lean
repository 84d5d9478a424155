import L2.Bootstrap.Assembler
import L2.X86.Control
import Mathlib.Tactic.Ring

/-!
# The code that the bootstrap assembler writes

The bytes are those of the instructions in a row, the relocations those of their fields.
With the relocations done the code decodes to the instructions, each with the values of
its symbols, and the labels have the positions of what follows them.
-/

namespace L2.Bootstrap

open X86 (Word Byte Reg bytesOf takeBytes signed low Instr Inst Rex)

variable {Bndg : Type}

/-! ## The code in a row -/

def codeBytes (instrs : List (Instruction Bndg)) : List Byte := instrs.flatMap Instruction.bytes

/-- The relocations of code that begins at a position. -/
def codeRelas (pos : Nat) : List (Instruction Bndg) → List (Rela Bndg)
  | [] => []
  | i :: instrs => i.relas pos ++ codeRelas (pos + i.bytes.length) instrs

theorem foldl_assembleInstruction [DecidableEq Bndg] (instrs : List (Instruction Bndg)) :
    ∀ out : Output Bndg,
      (instrs.foldl assembleInstruction out).bin = out.bin ++ codeBytes instrs ∧
        (instrs.foldl assembleInstruction out).relas = out.relas ++ codeRelas out.pos instrs := by
  induction instrs with
  | nil =>
    intro out
    simp [codeBytes, codeRelas]
  | cons i instrs ih =>
    intro out
    obtain ⟨hbin, hrelas⟩ := assembleInstruction_bin out i
    obtain ⟨ihbin, ihrelas⟩ := ih (assembleInstruction out i)
    have hpos : (assembleInstruction out i).pos = out.pos + i.bytes.length := by
      unfold Output.pos
      rw [hbin, List.length_append]
    constructor
    · rw [List.foldl_cons, ihbin, hbin, List.append_assoc]
      rfl
    · rw [List.foldl_cons, ihrelas, hrelas, hpos, List.append_assoc]
      rfl

theorem assemble_bin [DecidableEq Bndg] (offset stValue : Bndg → Word)
    (instrs : List (Instruction Bndg)) :
    (assemble offset stValue instrs).bin = codeBytes instrs := by
  unfold assemble
  rw [(foldl_assembleInstruction instrs _).1, List.nil_append]

theorem assemble_relas [DecidableEq Bndg] (offset stValue : Bndg → Word)
    (instrs : List (Instruction Bndg)) :
    (assemble offset stValue instrs).relas = codeRelas 0 instrs := by
  unfold assemble
  rw [(foldl_assembleInstruction instrs _).2, List.nil_append]
  rfl

/-! ## Labels -/

/-- An instruction that is no label of the binding leaves what it holds alone. -/
theorem assembleInstruction_of_ne [DecidableEq Bndg] (out : Output Bndg) {i : Instruction Bndg}
    {bndg : Bndg} (h : i ≠ .label bndg) :
    (assembleInstruction out i).offset bndg = out.offset bndg ∧
      (assembleInstruction out i).stValue bndg = out.stValue bndg := by
  by_cases hlabel : ∃ b, i = .label b
  · obtain ⟨b, rfl⟩ := hlabel
    have hne : bndg ≠ b := by
      rintro rfl
      exact h rfl
    exact ⟨Function.update_of_ne hne _ _, Function.update_of_ne hne _ _⟩
  · obtain ⟨hoffset, hvalue⟩ := assembleInstruction_offset out i fun b hb => hlabel ⟨b, hb⟩
    rw [hoffset, hvalue]
    exact ⟨rfl, rfl⟩

theorem foldl_assembleInstruction_of_notMem [DecidableEq Bndg] {bndg : Bndg}
    (instrs : List (Instruction Bndg)) (h : .label bndg ∉ instrs) : ∀ out : Output Bndg,
    (instrs.foldl assembleInstruction out).offset bndg = out.offset bndg ∧
      (instrs.foldl assembleInstruction out).stValue bndg = out.stValue bndg := by
  induction instrs with
  | nil => exact fun out => ⟨rfl, rfl⟩
  | cons i instrs ih =>
    intro out
    rw [List.mem_cons, not_or] at h
    obtain ⟨ihoffset, ihvalue⟩ := ih h.2 (assembleInstruction out i)
    obtain ⟨hoffset, hvalue⟩ := assembleInstruction_of_ne out (Ne.symm h.1)
    rw [List.foldl_cons]
    exact ⟨ihoffset.trans hoffset, ihvalue.trans hvalue⟩

/-- A label that no later one overwrites has the position of the code after it. -/
theorem assemble_label [DecidableEq Bndg] (offset stValue : Bndg → Word)
    (before after : List (Instruction Bndg)) {bndg : Bndg} (h : .label bndg ∉ after) :
    (assemble offset stValue (before ++ .label bndg :: after)).offset bndg =
        BitVec.ofNat 64 (codeBytes before).length ∧
      (assemble offset stValue (before ++ .label bndg :: after)).stValue bndg =
        BitVec.ofNat 64 (codeBytes before).length := by
  unfold assemble
  rw [List.foldl_append, List.foldl_cons]
  obtain ⟨hoffset, hvalue⟩ := foldl_assembleInstruction_of_notMem after h
    (assembleInstruction (before.foldl assembleInstruction ⟨[], [], offset, stValue⟩)
      (.label bndg))
  have hpos : (before.foldl assembleInstruction ⟨[], [], offset, stValue⟩).pos =
      (codeBytes before).length := by
    unfold Output.pos
    rw [(foldl_assembleInstruction before _).1, List.nil_append]
  rw [hoffset, hvalue, assembleInstruction_label, hpos]
  exact ⟨Function.update_self _ _ _, Function.update_self _ _ _⟩

/-! ## Relocation -/

/-- Some bytes of the code replaced. -/
def patch (offset : Nat) (bytes : List Byte) (bin : List Byte) : List Byte :=
  bin.take offset ++ bytes ++ bin.drop (offset + bytes.length)

/-- What a relocation does to code that is loaded at `base`: `S + A` in eight bytes, or
`S + A - P` in four. -/
def relocate (symbol : Bndg → Word) (base : Word) (bin : List Byte) (rela : Rela Bndg) :
    List Byte :=
  match rela.type with
  | .x64 => patch rela.offset (bytesOf 8 (symbol rela.symbol + rela.addend)) bin
  | .pc32 => patch rela.offset
      (bytesOf 4 (symbol rela.symbol + rela.addend - (base + BitVec.ofNat 64 rela.offset))) bin

/-- The value of a field of an instruction that ends at `next`. -/
def StaticValue.resolve (symbol : Bndg → Word) (next : Word) : StaticValue Bndg → Word
  | literal value => value
  | .symbol bndg => symbol bndg
  | lnkrAddOffToRef ref offset => symbol ref + offset
  | lnkrSubRipToRef ref => symbol ref - next

/-- An instruction that ends at `next`, linked. -/
def Instruction.linkedBytes (symbol : Bndg → Word) (next : Word) (i : Instruction Bndg) :
    List Byte :=
  i.head ++ i.field.elim [] fun f => bytesOf f.2 (f.1.resolve symbol next)

/-- The address after code of some length. -/
def codeEnd (base : Word) (pos : Nat) : Word := base + BitVec.ofNat 64 pos

/-- Linked code that begins at a position. -/
def linkedCode (symbol : Bndg → Word) (base : Word) (pos : Nat) :
    List (Instruction Bndg) → List Byte
  | [] => []
  | i :: instrs =>
    i.linkedBytes symbol (codeEnd base (pos + i.bytes.length)) ++
      linkedCode symbol base (pos + i.bytes.length) instrs

theorem length_bytes (i : Instruction Bndg) :
    i.bytes.length = i.head.length + i.field.elim 0 Prod.snd := by
  unfold Instruction.bytes
  cases i.field with
  | none => simp
  | some f => simp

theorem length_linkedBytes (symbol : Bndg → Word) (next : Word) (i : Instruction Bndg) :
    (i.linkedBytes symbol next).length = i.bytes.length := by
  rw [length_bytes]
  unfold Instruction.linkedBytes
  cases i.field with
  | none => simp
  | some f => simp

theorem patch_middle (before old new after : List Byte) (h : old.length = new.length) :
    patch before.length new (before ++ (old ++ after)) = before ++ (new ++ after) := by
  unfold patch
  rw [List.take_left, ← h, ← List.length_append, ← List.append_assoc before old after,
    List.drop_left, List.append_assoc]

/-- A field has the size of the relocation that it gets, if it gets one. -/
def StaticValue.FitsSize (bytes : Nat) : StaticValue Bndg → Prop
  | literal _ => True
  | symbol _ | lnkrAddOffToRef _ _ => bytes = 8
  | lnkrSubRipToRef _ => bytes = 4

theorem Instruction.Formed.fitsSize {i : Instruction Bndg} (h : i.Formed)
    {f : StaticValue Bndg × Nat} (hf : i.field = some f) : f.1.FitsSize f.2 := by
  cases i <;> cases hf
  case leaqMdbToReg disp _ _ | movqRegToMdb _ disp _ | movqMdbToReg disp _ _ =>
    cases disp with
    | literal value => trivial
    | _ => exact h.elim
  case jmpRel target | jeRel target =>
    cases target with
    | lnkrSubRipToRef ref => rfl
    | _ => exact h.elim
  case movqImmToReg imm _ =>
    cases imm with
    | literal value => trivial
    | lnkrSubRipToRef ref => exact h.elim
    | _ => rfl
  all_goals trivial

theorem relocate_x64 (symbol : Bndg → Word) (base : Word) (before after : List Byte)
    (bndg : Bndg) (addend : Word) :
    relocate symbol base (before ++ (bytesOf 8 0 ++ after)) ⟨before.length, bndg, .x64, addend⟩ =
      before ++ (bytesOf 8 (symbol bndg + addend) ++ after) :=
  patch_middle before _ _ after (by rw [X86.length_bytesOf, X86.length_bytesOf])

/-- The place of the field is four bytes before the end of the instruction, which the
addend makes up for. -/
theorem relocate_pc32 (symbol : Bndg → Word) (base : Word) (before after : List Byte)
    (bndg : Bndg) :
    relocate symbol base (before ++ (bytesOf 4 0 ++ after))
        ⟨before.length, bndg, .pc32, -BitVec.ofNat 64 4⟩ =
      before ++ (bytesOf 4 (symbol bndg - codeEnd base (before.length + 4)) ++ after) := by
  have hvalue : symbol bndg + -BitVec.ofNat 64 4 - (base + BitVec.ofNat 64 before.length) =
      symbol bndg - codeEnd base (before.length + 4) := by
    unfold codeEnd
    rw [BitVec.ofNat_add]
    ring
  show patch before.length
    (bytesOf 4 (symbol bndg + -BitVec.ofNat 64 4 - (base + BitVec.ofNat 64 before.length))) _ = _
  rw [hvalue]
  exact patch_middle before _ _ after (by rw [X86.length_bytesOf, X86.length_bytesOf])

theorem relocate_field (symbol : Bndg → Word) (base : Word) (before after : List Byte)
    {v : StaticValue Bndg} {n : Nat} (h : v.FitsSize n) :
    (v.rela before.length n).toList.foldl (relocate symbol base)
        (before ++ (bytesOf n v.placeholder ++ after)) =
      before ++ (bytesOf n (v.resolve symbol (codeEnd base (before.length + n))) ++ after) := by
  cases v with
  | literal value => rfl
  | symbol bndg =>
    cases h
    show relocate symbol base (before ++ (bytesOf 8 0 ++ after)) ⟨before.length, bndg, .x64, 0⟩ = _
    rw [relocate_x64, add_zero]
    rfl
  | lnkrAddOffToRef ref offset =>
    cases h
    exact relocate_x64 symbol base before after ref offset
  | lnkrSubRipToRef ref =>
    cases h
    exact relocate_pc32 symbol base before after ref

/-- The relocations of one instruction link it, wherever it stands. -/
theorem relocate_instruction (symbol : Bndg → Word) (base : Word) (before after : List Byte)
    {i : Instruction Bndg} (h : i.Encodable) :
    (i.relas before.length).foldl (relocate symbol base) (before ++ (i.bytes ++ after)) =
      before ++ (i.linkedBytes symbol (codeEnd base (before.length + i.bytes.length)) ++
        after) := by
  rw [length_bytes]
  unfold Instruction.relas Instruction.bytes Instruction.linkedBytes
  cases hf : i.field with
  | none => rfl
  | some f =>
    have hfield := relocate_field symbol base (before ++ i.head) after (h.formed.fitsSize hf)
    rw [List.length_append] at hfield
    simp only [Option.bind_some, Option.elim_some, List.append_assoc] at hfield ⊢
    rw [hfield, Nat.add_assoc]

/-- The relocations of code link it, wherever it stands. -/
theorem relocate_code (symbol : Bndg → Word) (base : Word) {instrs : List (Instruction Bndg)}
    (h : ∀ i ∈ instrs, i.Encodable) : ∀ before : List Byte,
    (codeRelas before.length instrs).foldl (relocate symbol base) (before ++ codeBytes instrs) =
      before ++ linkedCode symbol base before.length instrs := by
  induction instrs with
  | nil => exact fun _ => rfl
  | cons i instrs ih =>
    intro before
    have hi := h i List.mem_cons_self
    have hrest := ih (fun j hj => h j (List.mem_cons_of_mem i hj))
      (before ++ i.linkedBytes symbol (codeEnd base (before.length + i.bytes.length)))
    rw [List.length_append, length_linkedBytes, List.append_assoc, List.append_assoc] at hrest
    show ((i.relas before.length) ++ codeRelas (before.length + i.bytes.length) instrs).foldl _
      (before ++ (i.bytes ++ codeBytes instrs)) = _
    rw [List.foldl_append, relocate_instruction symbol base before _ hi, hrest]
    rfl

/-! ## Decoding -/

theorem takePrefixes_rexByte (w r b : Bool) (tail : List Byte) :
    X86.takePrefixes (rexByte w r b :: tail) = (⟨false, some ⟨w, r, false, b⟩⟩, tail) := by
  cases w <;> cases r <;> cases b <;> rfl

theorem takePrefixes_opcode {op : Byte} (h66 : op ≠ 0x66#8) (h40 : op &&& 0xF0#8 ≠ 0x40#8)
    (tail : List Byte) : X86.takePrefixes (op :: tail) = (⟨false, none⟩, op :: tail) := by
  simp [X86.takePrefixes, X86.takeHalf, X86.takeRex, h66, h40]

/-- Three fields put into a byte are read back. -/
theorem fields_of_byte : ∀ (m : Bool) (k l : Fin 8),
    X86.modField ((if m then 2#8 else 3#8) <<< 6 ||| BitVec.ofNat 8 k.val <<< 3 |||
        BitVec.ofNat 8 l.val <<< 0) = (if m then 2#2 else 3#2) ∧
      X86.regField ((if m then 2#8 else 3#8) <<< 6 ||| BitVec.ofNat 8 k.val <<< 3 |||
        BitVec.ofNat 8 l.val <<< 0) = BitVec.ofNat 3 k.val ∧
      X86.rmField ((if m then 2#8 else 3#8) <<< 6 ||| BitVec.ofNat 8 k.val <<< 3 |||
        BitVec.ofNat 8 l.val <<< 0) = BitVec.ofNat 3 l.val := by
  decide

/-- A register is its three low bits and the bit that extends them. -/
theorem reg_fields : ∀ r : Reg, r.val &&& 7 < 8 ∧
    X86.extend (r.val &&& 8 != 0) (BitVec.ofNat 3 (r.val &&& 7)) = r ∧
    (BitVec.ofNat 3 (r.val &&& 7) = 4#3 ↔ (r == 4 || r == 12) = true) := by
  decide

/-- The fields of the byte with the operand fields. -/
theorem modrmByte_fields (m : Bool) (reg rm : Reg) :
    X86.modField (modrmByte (if m then 2#8 else 3#8) reg rm) = (if m then 2#2 else 3#2) ∧
      X86.extend (reg.val &&& 8 != 0)
        (X86.regField (modrmByte (if m then 2#8 else 3#8) reg rm)) = reg ∧
      X86.extend (rm.val &&& 8 != 0)
        (X86.rmField (modrmByte (if m then 2#8 else 3#8) reg rm)) = rm ∧
      (X86.rmField (modrmByte (if m then 2#8 else 3#8) reg rm) = 4#3 ↔
        (rm == 4 || rm == 12) = true) := by
  obtain ⟨hk, hreg, _⟩ := reg_fields reg
  obtain ⟨hl, hrm, hfour⟩ := reg_fields rm
  obtain ⟨hmodField, hregField, hrmField⟩ := fields_of_byte m ⟨_, hk⟩ ⟨_, hl⟩
  unfold modrmByte
  rw [hmodField, hregField, hrmField]
  exact ⟨rfl, hreg, hrm, hfour⟩

theorem sibByte_fields : ∀ rm : Reg,
    X86.regField (sibByte rm) = 4#3 ∧
      X86.extend (rm.val &&& 8 != 0) (X86.rmField (sibByte rm)) = rm := by
  decide

/-- The REX bits that go with two registers. -/
def rexOf (w : Bool) (reg rm : Reg) : Rex :=
  ⟨w, reg.val &&& 8 != 0, false, rm.val &&& 8 != 0⟩

theorem takeOperands_reg (w : Bool) (reg rm : Reg) (rest : List Byte) :
    X86.takeOperands (rexOf w reg rm) (operandBytes reg rm false ++ rest) =
      some (reg, .reg rm, rest) := by
  obtain ⟨hmod, hreg, hrm, _⟩ := modrmByte_fields false reg rm
  simp only [Bool.false_eq_true, if_false] at hmod hreg hrm
  show (X86.takeRm (rexOf w reg rm) (modrmByte 3#8 reg rm) rest).map _ = _
  unfold X86.takeRm rexOf
  simp [hmod, hreg, hrm]

theorem takeOperands_mem (w : Bool) (reg rm : Reg) (v : Word) (rest : List Byte) :
    X86.takeOperands (rexOf w reg rm) (operandBytes reg rm true ++ (bytesOf 4 v ++ rest)) =
      some (reg, .mem rm (signed 4 v), rest) := by
  obtain ⟨hmod, hreg, hrm, hfour⟩ := modrmByte_fields true reg rm
  simp only [if_true] at hmod hreg hrm hfour
  obtain ⟨hsibreg, hsibrm⟩ := sibByte_fields rm
  have hdisp : X86.takeDisp 2#2 (bytesOf 4 v ++ rest) = some (signed 4 v, rest) := by
    simp [X86.takeDisp, X86.takeBytes_bytesOf, X86.signed_low]
  show (X86.takeRm (rexOf w reg rm) (modrmByte 2#8 reg rm) _).map _ = _
  by_cases hsib : (rm == 4 || rm == 12) = true
  · -- the field says that an index byte follows
    simp [X86.takeRm, rexOf, hmod, hfour.mpr hsib, hsib, hsibreg, hsibrm, hdisp, hreg]
  · have hne : X86.rmField (modrmByte 2#8 reg rm) ≠ 4#3 := fun h => hsib (hfour.mp h)
    simp [X86.takeRm, rexOf, hmod, hne, hsib, hrm, hdisp, hreg]

/-- An opcode of one byte with an operand byte, that is left to the straight-line decoder. -/
def StraightOpcode (op : Byte) : Prop :=
  op.extractLsb' 3 5 ≠ 0x0A#5 ∧ op.extractLsb' 3 5 ≠ 0x0B#5 ∧ op.extractLsb' 3 5 ≠ 0x17#5 ∧
    op ∉ [0xC9#8, 0xC3#8, 0xE9#8, 0x0F#8, 0xFF#8]

instance (op : Byte) : Decidable (StraightOpcode op) := inferInstanceAs (Decidable (_ ∧ _))

theorem decodeInstr_mrBytes {op : Byte} (h : StraightOpcode op) (reg rm : Reg) (m w : Bool)
    (tail : List Byte) :
    X86.decodeInstr (mrBytes op reg rm m w ++ tail) =
      ((X86.takeOperands (rexOf w reg rm) (operandBytes reg rm m ++ tail)).bind
        fun (reg', rm', rest) => X86.decodeRm ⟨false, some (rexOf w reg rm)⟩ op.toNat reg' rm'
          rest).map
          fun (i, rest) => (.inst i, rest) := by
  obtain ⟨h1, h2, h3, h4⟩ := h
  simp only [List.mem_cons, List.not_mem_nil, or_false, not_or] at h4
  obtain ⟨hc9, hc3, he9, h0f, hff⟩ := h4
  unfold mrBytes X86.decodeInstr X86.decode
  simp only [List.cons_append, takePrefixes_rexByte, Bool.false_eq_true, if_false, if_neg h1,
    if_neg h2, if_neg h3, if_neg hc9, if_neg hc3, if_neg he9, if_neg hff, h0f, false_and]
  rfl

/-- Instructions through registers that the processor takes as calls or jumps. -/
theorem decodeInstr_indirect (reg rm : Reg) (tail : List Byte) :
    X86.decodeInstr (mrBytes 0xFF#8 reg rm false false ++ tail) =
      match reg.val % 8 with
      | 2 => some (.callTo (.reg rm), tail)
      | 4 => some (.jmpTo (.reg rm), tail)
      | _ => none := by
  have hoperands := takeOperands_reg false reg rm tail
  unfold mrBytes X86.decodeInstr
  simp only [List.cons_append, takePrefixes_rexByte]
  show (X86.takeOperands (rexOf false reg rm) (operandBytes reg rm false ++ tail)).bind _ = _
  rw [hoperands]
  rfl

/-- What `write_o_instr` writes for the opcodes of `push` and `pop`. -/
theorem oBytes_fields : ∀ reg : Reg, ∀ op ∈ [0x50#8, 0x58#8],
    let opcoderd := op + BitVec.ofNat 8 (7 &&& reg.val)
    opcoderd ≠ 0x66#8 ∧ opcoderd &&& 0xF0#8 ≠ 0x40#8 ∧
      opcoderd.extractLsb' 3 5 = op.extractLsb' 3 5 ∧
      X86.extend (reg.val &&& 8 != 0) (X86.rmField opcoderd) = reg := by
  decide

theorem takePrefixes_oBytes {op : Byte} (h : op ∈ [0x50#8, 0x58#8]) (reg : Reg)
    (tail : List Byte) :
    ∃ rex, X86.takePrefixes (oBytes op reg ++ tail) =
        (⟨false, rex⟩, (op + BitVec.ofNat 8 (7 &&& reg.val)) :: tail) ∧
      (X86.Prefixes.mk false rex).bits.b = (reg.val &&& 8 != 0) := by
  obtain ⟨h66, h40, _, _⟩ := oBytes_fields reg op h
  unfold oBytes
  by_cases hreg : reg.val &&& 8 ≠ 0
  · refine ⟨some ⟨false, false, false, true⟩, ?_, ?_⟩
    · rw [if_pos hreg]
      exact takePrefixes_rexByte false false true _
    · show true = _
      simp [hreg]
  · refine ⟨none, ?_, ?_⟩
    · rw [if_neg hreg]
      exact takePrefixes_opcode h66 h40 tail
    · show false = _
      simp [not_not.mp hreg]

theorem decodeInstr_push (reg : Reg) (tail : List Byte) :
    X86.decodeInstr (oBytes 0x50#8 reg ++ tail) = some (.push reg, tail) := by
  obtain ⟨rex, hprefixes, hb⟩ := takePrefixes_oBytes (by decide : 0x50#8 ∈ _) reg tail
  obtain ⟨_, _, hop, hextend⟩ := oBytes_fields reg 0x50#8 (by decide)
  unfold X86.decodeInstr
  simp only [hprefixes, Bool.false_eq_true, if_false, hb, hextend]
  rw [if_pos (hop.trans (by decide))]

theorem decodeInstr_pop (reg : Reg) (tail : List Byte) :
    X86.decodeInstr (oBytes 0x58#8 reg ++ tail) = some (.pop reg, tail) := by
  obtain ⟨rex, hprefixes, hb⟩ := takePrefixes_oBytes (by decide : 0x58#8 ∈ _) reg tail
  obtain ⟨_, _, hop, hextend⟩ := oBytes_fields reg 0x58#8 (by decide)
  unfold X86.decodeInstr
  simp only [hprefixes, Bool.false_eq_true, if_false, hb, hextend]
  rw [if_neg (by rw [hop]; decide), if_pos (hop.trans (by decide))]

theorem movqImm_fields : ∀ reg : Reg,
    let opcoderd := 0xB8#8 + BitVec.ofNat 8 (7 &&& reg.val)
    opcoderd ∉ [0xC9#8, 0xC3#8, 0xE9#8, 0x0F#8, 0xFF#8] ∧
      opcoderd.extractLsb' 3 5 = 0x17#5 ∧
      X86.extend (reg.val &&& 8 != 0) (X86.rmField opcoderd) = reg := by
  decide

theorem decodeInstr_movqImm (reg : Reg) (v : Word) (tail : List Byte) :
    X86.decodeInstr (rexByte true false (reg.val &&& 8 != 0) ::
        (0xB8#8 + BitVec.ofNat 8 (7 &&& reg.val)) :: (bytesOf 8 v ++ tail)) =
      some (.inst (.mov 8 (.reg reg) (.imm v)), tail) := by
  obtain ⟨hspecial, hop, hextend⟩ := movqImm_fields reg
  simp only [List.mem_cons, List.not_mem_nil, or_false, not_or] at hspecial
  obtain ⟨hc9, hc3, he9, h0f, hff⟩ := hspecial
  have htake : takeBytes 8 (bytesOf 8 v ++ tail) = some (v, tail) := by
    rw [X86.takeBytes_bytesOf, X86.low_eight]
  unfold X86.decodeInstr X86.decode
  simp only [takePrefixes_rexByte, Bool.false_eq_true, if_false, hop, if_neg hc9, if_neg hc3,
    if_neg he9, if_neg hff, h0f, false_and, X86.Prefixes.bits, Option.getD_some, htake,
    Option.map_some, hextend]
  rfl

theorem decodeInstr_jmp (v : Word) (tail : List Byte) :
    X86.decodeInstr (0xE9#8 :: (bytesOf 4 v ++ tail)) = some (.jmp (signed 4 v), tail) := by
  have hprefixes := takePrefixes_opcode (by decide : 0xE9#8 ≠ 0x66#8) (by decide)
    (bytesOf 4 v ++ tail)
  unfold X86.decodeInstr
  simp [hprefixes, X86.takeBytes_bytesOf, X86.signed_low]

theorem decodeInstr_je (v : Word) (tail : List Byte) :
    X86.decodeInstr (0x0F#8 :: 0x84#8 :: (bytesOf 4 v ++ tail)) =
      some (.je (signed 4 v), tail) := by
  have hprefixes := takePrefixes_opcode (by decide : 0x0F#8 ≠ 0x66#8) (by decide)
    (0x84#8 :: (bytesOf 4 v ++ tail))
  unfold X86.decodeInstr
  simp [hprefixes, X86.takeBytes_bytesOf, X86.signed_low]

/-- Arithmetic with a number. -/
theorem decodeInstr_aluImm {reg : Reg} {op : X86.Alu} (h : X86.aluOf (reg.val % 8) = some op)
    (rm : Reg) (v : Word) (tail : List Byte) :
    X86.decodeInstr (mrBytes 0x81#8 reg rm false true ++ (bytesOf 4 v ++ tail)) =
      some (.inst (.alu op (.reg rm) (.imm (signed 4 v))), tail) := by
  rw [decodeInstr_mrBytes (by decide), takeOperands_reg]
  show (((X86.aluOf (reg.val % 8)).bind fun op =>
    X86.takeImm 4 (fun v => .alu op (.reg rm) (.imm v)) (bytesOf 4 v ++ tail))).map _ = _
  rw [h]
  simp [X86.takeImm, X86.takeBytes_bytesOf, X86.signed_low]

/-- What an instruction that ends at `next` does, with the values of its symbols.  Relative
jumps have four bytes for their distance. -/
def Instruction.operation (symbol : Bndg → Word) (next : Word) : Instruction Bndg → Option Instr
  | leaqMdbToReg disp base dest => some (.inst (.lea dest (.mem base (disp.resolve symbol next))))
  | movqRegToMdb src disp base =>
    some (.inst (.mov 8 (.mem base (disp.resolve symbol next)) (.reg src)))
  | jmpRel target => some (.jmp (signed 4 (target.resolve symbol next)))
  | movqMdbToReg disp base dest =>
    some (.inst (.mov 8 (.reg dest) (.mem base (disp.resolve symbol next))))
  | pushqReg src => some (.push src)
  | movqRegToReg src dest => some (.inst (.mov 8 (.reg dest) (.reg src)))
  | subqImmToReg imm dest => some (.inst (.alu .sub (.reg dest) (.imm imm)))
  | addqImmToReg imm dest => some (.inst (.alu .add (.reg dest) (.imm imm)))
  | popqReg dest => some (.pop dest)
  | leave => some .leave
  | ret => some .ret
  | jmpToReg target => some (.jmpTo (.reg target))
  | jeRel target => some (.je (signed 4 (target.resolve symbol next)))
  | orqRegToReg src dest => some (.inst (.alu .or (.reg dest) (.reg src)))
  | movqImmToReg imm dest => some (.inst (.mov 8 (.reg dest) (.imm (imm.resolve symbol next))))
  | callReg target => some (.callTo (.reg target))
  | label _ => none

/-- A displacement is read back as it is. -/
theorem signed_resolve {disp : StaticValue Bndg} (h : disp.IsDisplacement)
    (hfit : disp.FitsField) (symbol : Bndg → Word) (next : Word) :
    signed 4 (disp.resolve symbol next) = disp.resolve symbol next := by
  cases disp with
  | literal value => exact hfit
  | _ => exact h.elim

theorem decodeInstr_linkedBytes {i : Instruction Bndg} (h : i.Encodable) (symbol : Bndg → Word)
    (next : Word) {op : Instr} (hop : i.operation symbol next = some op) (rest : List Byte) :
    X86.decodeInstr (i.linkedBytes symbol next ++ rest) = some (op, rest) := by
  cases i <;> cases hop
  case leaqMdbToReg disp base dest =>
    show X86.decodeInstr ((mrBytes 0x8D#8 dest base true true ++ bytesOf 4 _) ++ rest) = _
    rw [List.append_assoc, decodeInstr_mrBytes (by decide), takeOperands_mem,
      signed_resolve h.formed h.fieldsFit]
    rfl
  case movqRegToMdb src disp base =>
    show X86.decodeInstr ((mrBytes 0x89#8 src base true true ++ bytesOf 4 _) ++ rest) = _
    rw [List.append_assoc, decodeInstr_mrBytes (by decide), takeOperands_mem,
      signed_resolve h.formed h.fieldsFit]
    rfl
  case movqMdbToReg disp base dest =>
    show X86.decodeInstr ((mrBytes 0x8B#8 dest base true true ++ bytesOf 4 _) ++ rest) = _
    rw [List.append_assoc, decodeInstr_mrBytes (by decide), takeOperands_mem,
      signed_resolve h.formed h.fieldsFit]
    rfl
  case movqRegToReg src dest =>
    show X86.decodeInstr ((mrBytes 0x8B#8 dest src false true ++ []) ++ rest) = _
    rw [List.append_nil, decodeInstr_mrBytes (by decide), takeOperands_reg]
    rfl
  case orqRegToReg src dest =>
    show X86.decodeInstr ((mrBytes 0x0B#8 dest src false true ++ []) ++ rest) = _
    rw [List.append_nil, decodeInstr_mrBytes (by decide), takeOperands_reg]
    rfl
  case subqImmToReg imm dest =>
    show X86.decodeInstr ((mrBytes 0x81#8 5 dest false true ++ bytesOf 4 imm) ++ rest) = _
    rw [List.append_assoc, decodeInstr_aluImm rfl, h.fieldsFit]
  case addqImmToReg imm dest =>
    show X86.decodeInstr ((mrBytes 0x81#8 0 dest false true ++ bytesOf 4 imm) ++ rest) = _
    rw [List.append_assoc, decodeInstr_aluImm rfl, h.fieldsFit]
  case pushqReg src =>
    show X86.decodeInstr ((oBytes 0x50#8 src ++ []) ++ rest) = _
    rw [List.append_nil, decodeInstr_push]
  case popqReg dest =>
    show X86.decodeInstr ((oBytes 0x58#8 dest ++ []) ++ rest) = _
    rw [List.append_nil, decodeInstr_pop]
  case leave => rfl
  case ret => rfl
  case jmpToReg target =>
    show X86.decodeInstr ((mrBytes 0xFF#8 4 target false false ++ []) ++ rest) = _
    rw [List.append_nil, decodeInstr_indirect]
    rfl
  case callReg target =>
    show X86.decodeInstr ((mrBytes 0xFF#8 2 target false false ++ []) ++ rest) = _
    rw [List.append_nil, decodeInstr_indirect]
    rfl
  case jmpRel target =>
    show X86.decodeInstr (0xE9#8 :: (bytesOf 4 _ ++ rest)) = _
    rw [decodeInstr_jmp]
  case jeRel target =>
    show X86.decodeInstr (0x0F#8 :: 0x84#8 :: (bytesOf 4 _ ++ rest)) = _
    rw [decodeInstr_je]
  case movqImmToReg imm dest =>
    show X86.decodeInstr (rexByte true false (dest.val &&& 8 != 0) ::
      (0xB8#8 + BitVec.ofNat 8 (7 &&& dest.val)) :: (bytesOf 8 _ ++ rest)) = _
    rw [decodeInstr_movqImm]

/-- What the instructions of code that begins at a position do. -/
def operations (symbol : Bndg → Word) (base : Word) (pos : Nat) :
    List (Instruction Bndg) → List Instr
  | [] => []
  | i :: instrs =>
    (i.operation symbol (codeEnd base (pos + i.bytes.length))).toList ++
      operations symbol base (pos + i.bytes.length) instrs

theorem linkedBytes_of_operation_none {i : Instruction Bndg} {symbol : Bndg → Word} {next : Word}
    (h : i.operation symbol next = none) : i.linkedBytes symbol next = [] := by
  cases i with
  | label bndg => rfl
  | _ => cases h

theorem decodes_linkedCode (symbol : Bndg → Word) (base : Word) {instrs : List (Instruction Bndg)}
    (h : ∀ i ∈ instrs, i.Encodable) : ∀ pos,
    X86.Decodes (linkedCode symbol base pos instrs) (operations symbol base pos instrs) := by
  induction instrs with
  | nil => exact fun _ => .nil
  | cons i instrs ih =>
    intro pos
    have hrest := ih (fun j hj => h j (List.mem_cons_of_mem i hj)) (pos + i.bytes.length)
    unfold linkedCode operations
    cases hop : i.operation symbol (codeEnd base (pos + i.bytes.length)) with
    | none =>
      rw [linkedBytes_of_operation_none hop]
      exact hrest
    | some op => exact .cons (decodeInstr_linkedBytes (h i List.mem_cons_self) symbol _ hop _) hrest

/-! ## Where the relocations are -/

def StaticValue.IsSymbolic : StaticValue Bndg → Prop
  | literal _ => False
  | _ => True

instance : DecidablePred (@StaticValue.IsSymbolic Bndg) := fun v =>
  match v with
  | .literal _ => isFalse id
  | .symbol _ | .lnkrAddOffToRef _ _ | .lnkrSubRipToRef _ => isTrue trivial

/-- The place in an instruction of a field that names a symbol. -/
def Instruction.symbolicField (i : Instruction Bndg) : Option Nat :=
  i.field.bind fun f => if f.1.IsSymbolic then some i.head.length else none

/-- The positions of the fields that name symbols. -/
def fieldPositions (pos : Nat) : List (Instruction Bndg) → List Nat
  | [] => []
  | i :: instrs =>
    (i.symbolicField.map (pos + ·)).toList ++ fieldPositions (pos + i.bytes.length) instrs

theorem StaticValue.FitsSize.map_offset_rela {v : StaticValue Bndg} {n : Nat} (h : v.FitsSize n)
    (pos : Nat) :
    (v.rela pos n).map Rela.offset = if v.IsSymbolic then some pos else none := by
  cases v with
  | literal value => rfl
  | _ =>
    cases h
    rfl

theorem map_offset_relas {i : Instruction Bndg} (h : i.Encodable) (pos : Nat) :
    (i.relas pos).map Rela.offset = (i.symbolicField.map (pos + ·)).toList := by
  unfold Instruction.relas Instruction.symbolicField
  cases hf : i.field with
  | none => rfl
  | some f =>
    have hoffset := (h.formed.fitsSize hf).map_offset_rela (pos + i.head.length)
    rw [Option.bind_some, Option.bind_some, ← Option.toList_map, hoffset]
    by_cases hsymbolic : f.1.IsSymbolic
    · rw [if_pos hsymbolic, if_pos hsymbolic]
      rfl
    · rw [if_neg hsymbolic, if_neg hsymbolic]
      rfl

theorem map_offset_codeRelas {instrs : List (Instruction Bndg)}
    (h : ∀ i ∈ instrs, i.Encodable) : ∀ pos,
    (codeRelas pos instrs).map Rela.offset = fieldPositions pos instrs := by
  induction instrs with
  | nil => exact fun _ => rfl
  | cons i instrs ih =>
    intro pos
    unfold codeRelas fieldPositions
    rw [List.map_append, map_offset_relas (h i List.mem_cons_self),
      ih (fun j hj => h j (List.mem_cons_of_mem i hj))]

/-- A field is inside its instruction. -/
theorem lt_of_symbolicField {i : Instruction Bndg} {k : Nat} (h : i.symbolicField = some k) :
    k < i.bytes.length := by
  rw [length_bytes]
  unfold Instruction.symbolicField at h
  cases hf : i.field with
  | none =>
    rw [hf] at h
    cases h
  | some f =>
    rw [hf, Option.bind_some] at h
    have hsize : 0 < f.2 := by
      cases i <;> cases hf <;> exact Nat.succ_pos _
    split at h
    · cases h
      show i.head.length < i.head.length + f.2
      omega
    · cases h

theorem le_of_mem_fieldPositions {instrs : List (Instruction Bndg)} : ∀ {pos k : Nat},
    k ∈ fieldPositions pos instrs → pos ≤ k := by
  induction instrs with
  | nil => exact fun h => absurd h List.not_mem_nil
  | cons i instrs ih =>
    intro pos k h
    rcases List.mem_append.mp h with hi | hrest
    · rw [Option.mem_toList, Option.map_eq_some_iff] at hi
      obtain ⟨j, _, rfl⟩ := hi
      omega
    · have := ih hrest
      omega

theorem fieldPositions_pairwise (instrs : List (Instruction Bndg)) : ∀ pos,
    (fieldPositions pos instrs).Pairwise (· < ·) := by
  induction instrs with
  | nil => exact fun _ => .nil
  | cons i instrs ih =>
    intro pos
    unfold fieldPositions
    cases hfield : i.symbolicField with
    | none => exact ih _
    | some k =>
      refine List.pairwise_cons.mpr ⟨fun j hj => ?_, ih _⟩
      have hj := le_of_mem_fieldPositions hj
      have hk := lt_of_symbolicField hfield
      show pos + k < j
      omega

/-! ## The assembler -/

theorem not_mem_of_nodup_labels {before after : List (Instruction Bndg)} {bndg : Bndg}
    (h : (labels (before ++ .label bndg :: after)).Nodup) : .label bndg ∉ after := by
  intro hmem
  rw [labels_append, labels_cons_label, List.nodup_append, List.nodup_cons] at h
  exact h.2.1.1 (mem_labels hmem)

/-- Linked at any address and with any values of the symbols, the code is the instructions
with these values; each label has the position of the code that follows it; and the
relocations are one for each field that names a symbol, at its position. -/
theorem assemble_correct [DecidableEq Bndg] (offset stValue : Bndg → Word)
    {instrs : List (Instruction Bndg)} (hencodable : ∀ i ∈ instrs, i.Encodable)
    (hlabels : (labels instrs).Nodup) :
    (∀ (symbol : Bndg → Word) (base : Word), X86.Decodes
      ((assemble offset stValue instrs).relas.foldl (relocate symbol base)
        (assemble offset stValue instrs).bin) (operations symbol base 0 instrs)) ∧
    (∀ before after bndg, instrs = before ++ .label bndg :: after →
      (assemble offset stValue instrs).offset bndg =
          BitVec.ofNat 64 (assemble offset stValue before).pos ∧
        (assemble offset stValue instrs).stValue bndg =
          BitVec.ofNat 64 (assemble offset stValue before).pos) ∧
    (assemble offset stValue instrs).relas.map Rela.offset = fieldPositions 0 instrs ∧
    (fieldPositions 0 instrs).Pairwise (· < ·) := by
  refine ⟨fun symbol base => ?_, ?_, ?_, fieldPositions_pairwise instrs 0⟩
  · have hcode := relocate_code symbol base hencodable []
    rw [assemble_relas, assemble_bin]
    rw [List.length_nil, List.nil_append, List.nil_append] at hcode
    rw [hcode]
    exact decodes_linkedCode symbol base hencodable 0
  · rintro before after bndg rfl
    unfold Output.pos
    rw [assemble_bin offset stValue before]
    exact assemble_label offset stValue before after (not_mem_of_nodup_labels hlabels)
  · rw [assemble_relas]
    exact map_offset_codeRelas hencodable 0

/-- A loop over the word below an address in `r12`. -/
def loopCode : List (Instruction Nat) :=
  [.label 0, .movqMdbToReg (.literal (-8)) 12 9, .orqRegToReg 9 9,
    .jeRel (.lnkrSubRipToRef 0), .movqImmToReg (.lnkrAddOffToRef 1 16) 8]

theorem assemble_correct_loop :
    (assemble (fun _ => 0) (fun _ => 0) loopCode).relas.map Rela.offset = [13, 19] ∧
      X86.Decodes
        ((assemble (fun _ => 0) (fun _ => 0) loopCode).relas.foldl
          (relocate (fun bndg => if bndg = 0 then 0x1000 else 0x5000) 0x1000)
          (assemble (fun _ => 0) (fun _ => 0) loopCode).bin)
        [.inst (.mov 8 (.reg 9) (.mem 12 (-8))), .inst (.alu .or (.reg 9) (.reg 9)),
          .je (-17), .inst (.mov 8 (.reg 8) (.imm 0x5010))] := by
  have hencodable : ∀ i ∈ loopCode, i.Encodable := by
    intro i hi
    simp only [loopCode, List.mem_cons, List.not_mem_nil, or_false] at hi
    rcases hi with rfl | rfl | rfl | rfl | rfl
    · exact ⟨trivial, trivial⟩
    · exact ⟨trivial, show X86.signed 4 (-8) = -8 by decide⟩
    · exact ⟨trivial, trivial⟩
    · exact ⟨trivial, trivial⟩
    · exact ⟨trivial, trivial⟩
  obtain ⟨hdecodes, _, hrelas, _⟩ :=
    assemble_correct (fun _ => 0) (fun _ => 0) hencodable (by decide)
  exact ⟨hrelas.trans (by decide),
    hdecodes (fun bndg => if bndg = 0 then 0x1000 else 0x5000) 0x1000⟩

end L2.Bootstrap
