import L2.SelfHost.Assembler
import L2.X86.Decode
import Mathlib.Tactic.Ring

/-!
# What the assembler writes is what the processor reads

`IsRm` relates an operand of the assembler to the operand that the decoder finds in its
place.  The main lemma splits the bytes of one instruction back into prefixes, opcode,
operands and immediate, whatever the opcode is.
-/

namespace L2.SelfHost

open X86 (Word Byte Reg Rex Prefixes bytesOf takeBytes signed low)

variable {address : Bndg → Word} {raw : Nat}

/-- The operand as the decoder sees it in an instruction that ends at `next`. -/
inductive IsRm (address : Bndg → Word) (next : Word) (n : Nat) : Operand → X86.Operand → Prop
  | reg (r : Reg) : IsRm address next n (.register n (regN n r)) (.reg r)
  | mem (b : Reg) (disp : Word) (dispSize : Nat) (h : dispSize = 1 ∨ dispSize = 4) :
    IsRm address next n (.memory n (reg64 b) noRegister 0 disp dispSize none)
      (.mem b (signed dispSize disp))
  | rip (bndg : Bndg) :
    IsRm address next n (.memory n rip noRegister 0 0 4 (some bndg))
      (.rip (signed 4 (address bndg - next)))

/-! ## Register numbers -/

/-- The sizes that registers and operands come in. -/
def sizes : List Nat := [1, 2, 4, 8]

theorem regN_fields : ∀ n ∈ sizes, ∀ r : Reg, regN n r &&& 7 = r.val % 8 ∧
    (regN n r &&& 8 ≠ 0 ↔ 8 ≤ r.val) ∧ regN n r ≠ noRegister ∧ registerSize (regN n r) = n := by
  decide

theorem reg64_fields : ∀ r : Reg, reg64 r &&& 7 = r.val % 8 ∧ (reg64 r &&& 8 ≠ 0 ↔ 8 ≤ r.val) ∧
    reg64 r ≠ noRegister ∧ reg64 r ≠ rip ∧ registerSize (reg64 r) = 8 ∧ reg64 r &&& wRex ≠ 0 := by
  decide

theorem extend_number : ∀ r : Reg,
    X86.extend (decide (8 ≤ r.val)) (BitVec.ofNat 3 (r.val % 8)) = r := by decide

theorem ofNat_ne_four : ∀ k < 8, k ≠ 4 → BitVec.ofNat 3 k ≠ 4#3 := by decide

/-! ## Prefixes -/

theorem rexByte_fields (e g m : Operand) :
    rexByte e g m &&& 0xF0#8 = 0x40#8 ∧ rexByte e g m ≠ 0x66#8 ∧
      Rex.ofByte (rexByte e g m) = ⟨rexW e g m, rexR g, rexX m, rexB e m⟩ := by
  unfold rexByte
  generalize rexW e g m = w, rexR g = r, rexX m = x, rexB e m = b
  revert w r x b
  decide

/-- The byte is neither the operand size prefix nor REX. -/
def NoPrefix (op : Byte) : Prop := op ≠ 0x66#8 ∧ op &&& 0xF0#8 ≠ 0x40#8

instance (op : Byte) : Decidable (NoPrefix op) := inferInstanceAs (Decidable (_ ∧ _))

/-- The prefixes that `writeHead` puts before the opcode. -/
def prefixesOf (opcodeRegOp modrmRegOp modrmRmOp : Operand) : Prefixes where
  half := hasOso modrmRegOp modrmRmOp
  rex := if hasRex opcodeRegOp modrmRegOp modrmRmOp then
      some ⟨rexW opcodeRegOp modrmRegOp modrmRmOp, rexR modrmRegOp, rexX modrmRmOp,
        rexB opcodeRegOp modrmRmOp⟩
    else none

theorem takeRex_writeHead {op : Byte} (h : NoPrefix op) (e g m : Operand) (bs : List Byte) :
    X86.takeRex ((if hasRex e g m then [rexByte e g m] else []) ++ op :: bs) =
      ((prefixesOf e g m).rex, op :: bs) := by
  obtain ⟨h40, _, hbits⟩ := rexByte_fields e g m
  unfold prefixesOf
  cases hx : hasRex e g m with
  | true => simp [X86.takeRex, h40, hbits]
  | false => simp [X86.takeRex, h.2]

theorem takePrefixes_writeHead {op : Byte} (h : NoPrefix op) (e g m : Operand) (bs : List Byte) :
    X86.takePrefixes ((if hasOso g m then [0x66#8] else []) ++
      ((if hasRex e g m then [rexByte e g m] else []) ++ op :: bs)) =
        (prefixesOf e g m, op :: bs) := by
  have hrest : X86.takeHalf ((if hasOso g m then [0x66#8] else []) ++
      ((if hasRex e g m then [rexByte e g m] else []) ++ op :: bs)) =
        (hasOso g m, (if hasRex e g m then [rexByte e g m] else []) ++ op :: bs) := by
    obtain ⟨_, h66, _⟩ := rexByte_fields e g m
    cases ho : hasOso g m with
    | true => simp [X86.takeHalf]
    | false => cases hx : hasRex e g m <;> simp [X86.takeHalf, h66, h.1]
  unfold X86.takePrefixes
  rw [hrest]
  simp only [takeRex_writeHead h]
  rfl

/-! ## The operand bytes -/

theorem and_seven_lt (x : Nat) : x &&& 7 < 8 := by
  have h : x &&& 7 ≤ 7 := Nat.and_le_right
  omega

theorem fields_ofNat : ∀ mod < 4, ∀ k < 8, ∀ rm < 8,
    let m : Byte := BitVec.ofNat 8 (mod <<< 6 ||| (k <<< 3 ||| rm))
    X86.modField m = BitVec.ofNat 2 mod ∧ X86.regField m = BitVec.ofNat 3 k ∧
      X86.rmField m = BitVec.ofNat 3 rm := by
  decide

/-- The scale bits of an operand without an index. -/
theorem ofNat_sibScale_zero (n : Nat) :
    (BitVec.ofNat 8 (sibScale 0 <<< 6 ||| n) : Byte) = BitVec.ofNat 8 (3 <<< 6 ||| n) := by
  rw [BitVec.ofNat_or, BitVec.ofNat_or]
  rfl

theorem modrmByte_fields (g op : Operand) (hmod : modrmMod op < 4) (hrm : modrmRm op < 8) :
    X86.modField (modrmByte g op) = BitVec.ofNat 2 (modrmMod op) ∧
      X86.regField (modrmByte g op) = BitVec.ofNat 3 (g.opRegister &&& 7) ∧
      X86.rmField (modrmByte g op) = BitVec.ofNat 3 (modrmRm op) :=
  fields_ofNat _ hmod _ (and_seven_lt _) _ hrm

theorem dispField_some (pos : Word) (before after : Nat) (disp : Word) (bndg : Bndg) :
    dispField address pos before after disp (some bndg) =
      address bndg - (pos + BitVec.ofNat 64 (before + after)) := by
  unfold dispField
  rw [BitVec.ofNat_add]
  ring

theorem takeDisp_write {dispSize : Nat} (h : dispSize = 1 ∨ dispSize = 4) (disp : Word)
    (rest : List Byte) :
    X86.takeDisp (BitVec.ofNat 2 (if dispSize = 1 then 1 else if dispSize = 4 then 2 else 0))
      (bytesOf dispSize disp ++ rest) = some (signed dispSize disp, rest) := by
  rcases h with rfl | rfl <;>
    simp [X86.takeDisp, X86.takeBytes_bytesOf, X86.signed_low]

/-- The byte with the operand fields, the index byte and the displacement are read back. -/
theorem takeOperands_write (raw : Nat) {n : Nat} (hn : n ∈ sizes) {pos : Word} {before after : Nat}
    {op : Operand} {m : X86.Operand}
    (h : IsRm address (pos + BitVec.ofNat 64 (before + after)) n op m) (g : Operand) {rex : Rex}
    (hx : rex.x = false) (hb : rex.b = rexB (.none raw) op) (rest : List Byte) :
    X86.takeOperands rex (modrmByte g op :: ((if hasSib op then [sibByte op] else []) ++
      (writeDisp address pos before after op ++ rest))) =
        some (X86.extend rex.r (BitVec.ofNat 3 (g.opRegister &&& 7)), m, rest) := by
  cases h with
  | reg r =>
    obtain ⟨h7, h8, hne, _⟩ := regN_fields n hn r
    have hrm : modrmRm (.register n (regN n r)) = r.val % 8 := h7
    obtain ⟨hm, hg, hr⟩ := modrmByte_fields g (.register n (regN n r))
      (Nat.lt_succ_self 3) (by omega)
    have hrexb : rex.b = decide (8 ≤ r.val) := by
      rw [hb]
      simp [rexB, hne, h8]
    simp [X86.takeOperands, X86.takeRm, hm, hg, hr, hrm, hasSib, writeDisp, hrexb, modrmMod,
      extend_number]
  | mem b disp dispSize hd =>
    obtain ⟨h7, h8, hne, hrip, _⟩ := reg64_fields b
    set op : Operand := .memory n (reg64 b) noRegister 0 disp dispSize none with hop
    have h0 : dispSize ≠ 0 := by omega
    have hmod : modrmMod op = if dispSize = 1 then 1 else if dispSize = 4 then 2 else 0 := by
      simp [hop, modrmMod, h0, hne, hrip]
    have hsib : hasSib op = decide (b.val % 8 = 4) := by
      have hsp : rsp &&& 7 = 4 := by decide
      simp [hop, hasSib, h0, h7, hsp]
    have hrm : modrmRm op = if b.val % 8 = 4 then 4 else b.val % 8 := by
      unfold modrmRm
      rw [hsib]
      simp [hop, hne, hrip, rmOpCode, h7]
    have hrexb : rex.b = decide (8 ≤ b.val) := by
      rw [hb]
      simp [hop, rexB, hne, h8]
    obtain ⟨hm, hg, hr⟩ := modrmByte_fields g op
      (by rw [hmod]; rcases hd with rfl | rfl <;> decide) (by rw [hrm]; split <;> omega)
    have hsb : sibByte op = BitVec.ofNat 8 (3 <<< 6 ||| (4 <<< 3 ||| b.val % 8)) := by
      rw [← ofNat_sibScale_zero]
      simp [hop, sibByte, hne, h7]
    obtain ⟨_, hsg, hsr⟩ := fields_ofNat 3 (by decide) 4 (by decide) (b.val % 8) (by omega)
    rw [← hsb] at hsg hsr
    have hd' := takeDisp_write hd disp rest
    rw [← hmod] at hd'
    have hm3 : BitVec.ofNat 2 (modrmMod op) ≠ 3#2 := by
      rw [hmod]
      rcases hd with rfl | rfl <;> decide
    have hm0 : BitVec.ofNat 2 (modrmMod op) ≠ 0#2 := by
      rw [hmod]
      rcases hd with rfl | rfl <;> decide
    have hw : writeDisp address pos before after op = bytesOf dispSize disp := rfl
    by_cases h4 : b.val % 8 = 4
    · rw [if_pos h4] at hrm
      have hb4 : X86.extend (decide (8 ≤ b.val)) 4#3 = b := by
        have he := extend_number b
        rwa [h4] at he
      simp [X86.takeOperands, X86.takeRm, hm, hg, hr, hrm, hsib, h4, hm3, hm0, hsg, hsr, hx,
        hw, hd',
        hrexb, hb4]
    · rw [if_neg h4] at hrm
      have hr4 : BitVec.ofNat 3 (b.val % 8) ≠ 4#3 := ofNat_ne_four _ (by omega) h4
      simp [X86.takeOperands, X86.takeRm, hm, hg, hr, hrm, hsib, h4, hm3, hm0, hr4, hw, hd', hrexb,
        extend_number]
  | rip bndg =>
    set op : Operand := .memory n rip noRegister 0 0 4 (some bndg) with hop
    have hmod : modrmMod op = 0 := rfl
    have hrm : modrmRm op = 5 := rfl
    obtain ⟨hm, hg, hr⟩ := modrmByte_fields g op (by rw [hmod]; decide)
      (by rw [hrm]; decide)
    have hsib : hasSib op = false := rfl
    have hw : writeDisp address pos before after op =
        bytesOf 4 (address bndg - (pos + BitVec.ofNat 64 (before + after))) := by
      rw [← dispField_some pos before after 0 bndg]
      rfl
    simp [X86.takeOperands, X86.takeRm, hm, hg, hr, hmod, hrm, hsib, hw, X86.takeBytes_bytesOf,
      X86.signed_low]

/-! ## Whole instructions -/

theorem hasRex_of_isRm {next : Word} {n : Nat} {op : Operand} {m : X86.Operand}
    (h : IsRm address next n op m) (hn : n = 8 ∨ op.isMemory) (e g : Operand) :
    hasRex e g op = true := by
  unfold hasRex
  cases h with
  | reg r =>
    have h8 : n = 8 := by simpa [Operand.isMemory] using hn
    subst h8
    have hw : (g.opRegister ||| (regN 8 r ||| e.opRegister)) &&& wRex ≠ 0 := by
      have hr : (regN 8 r).testBit 9 = true := by
        revert r
        decide
      intro h0
      have hb : ((g.opRegister ||| (regN 8 r ||| e.opRegister)) &&& wRex).testBit 9 = false := by
        rw [h0, Nat.zero_testBit]
      have hone : wRex.testBit 9 = true := by decide
      simp [Nat.testBit_and, Nat.testBit_or, hr, hone] at hb
    simp only [Operand.opRegister] at hw ⊢
    simp [hw]
  | mem b disp dispSize _ =>
    obtain ⟨_, _, hne, _, hs, _⟩ := reg64_fields b
    simp [hne, hs]
  | rip bndg =>
    have hne : rip ≠ noRegister := by decide
    have hs : registerSize rip = 8 := by decide
    simp [hne, hs]

theorem bits_prefixesOf {e g op : Operand} (h : hasRex e g op = true) :
    (prefixesOf e g op).bits = ⟨rexW e g op, rexR g, rexX op, rexB e op⟩ := by
  unfold Prefixes.bits prefixesOf
  rw [h]
  rfl

theorem rexX_of_isRm {next : Word} {n : Nat} {op : Operand} {m : X86.Operand}
    (h : IsRm address next n op m) : rexX op = false := by
  cases h <;> simp [rexX]

/-- The opcode is one byte, and neither a prefix nor one of the opcodes without an operand
byte. -/
def PlainOpcode (opcode : Nat) : Prop :=
  let op : Byte := BitVec.ofNat 8 opcode
  opcode < 256 ∧ NoPrefix op ∧ op ≠ 0x0F#8 ∧ op.extractLsb' 3 5 ≠ 0x17#5

instance (opcode : Nat) : Decidable (PlainOpcode opcode) := inferInstanceAs (Decidable (_ ∧ _))

theorem length_writeInstr (pos : Word) (opcode opcodeSize : Nat) (e g op imm : Operand) :
    (writeInstr address pos opcode opcodeSize e g op imm).length =
      (writeHead opcode opcodeSize e g op).length + (op.dispSize + (writeImm imm).length) := by
  cases op <;> simp [writeInstr, writeDisp, Operand.dispSize]

theorem hasAso_of_isRm {next : Word} {n : Nat} {op : Operand} {m : X86.Operand}
    (h : IsRm address next n op m) : hasAso op = false := by
  cases h with
  | reg r => rfl
  | mem b disp dispSize hd =>
    obtain ⟨_, _, _, _, hs, _⟩ := reg64_fields b
    rcases hd with rfl | rfl <;> simp [hasAso, hs]
  | rip bndg =>
    have hs : registerSize rip = 8 := by decide
    simp [hasAso, hs]

/-- An instruction with a one-byte opcode and its operands is read back. -/
theorem decode_write {n opcode : Nat} (hn : n ∈ sizes) (ho : PlainOpcode opcode) {pos : Word}
    {g op imm : Operand} {m : X86.Operand}
    (h : IsRm address
      (pos + BitVec.ofNat 64 (writeInstr address pos opcode 1 (.none raw) g op imm).length) n op m)
    (hrex : hasRex (.none raw) g op = true) (rest : List Byte) :
    X86.decode (writeInstr address pos opcode 1 (.none raw) g op imm ++ rest) =
      X86.decodeRm (prefixesOf (.none raw) g op) opcode
        (X86.extend (rexR g) (BitVec.ofNat 3 (g.opRegister &&& 7))) m (writeImm imm ++ rest) := by
  obtain ⟨hlt, hnp, h0f, hb8⟩ := ho
  rw [length_writeInstr] at h
  have hnone : op.isNone = false := by cases h <;> rfl
  have hhead : writeHead opcode 1 (.none raw) g op =
      (if hasOso g op then [0x66#8] else []) ++
        ((if hasRex (.none raw) g op then [rexByte (.none raw) g op] else []) ++
          BitVec.ofNat 8 opcode ::
            (modrmByte g op :: (if hasSib op then [sibByte op] else []))) := by
    unfold writeHead
    rw [hasAso_of_isRm h]
    simp [bytesOf, opcodeOf, hnone]
  have hsplit : writeInstr address pos opcode 1 (.none raw) g op imm ++ rest =
      (if hasOso g op then [0x66#8] else []) ++
        ((if hasRex (.none raw) g op then [rexByte (.none raw) g op] else []) ++
          BitVec.ofNat 8 opcode :: (modrmByte g op :: ((if hasSib op then [sibByte op] else []) ++
            (writeDisp address pos (writeHead opcode 1 (.none raw) g op).length
              (op.dispSize + (writeImm imm).length) op ++ (writeImm imm ++ rest))))) := by
    unfold writeInstr
    rw [hhead]
    simp
  have hbits := bits_prefixesOf hrex
  have hnat : (BitVec.ofNat 8 opcode).toNat = opcode := by
    rw [BitVec.toNat_ofNat, Nat.mod_eq_of_lt hlt]
  rw [hsplit]
  unfold X86.decode
  rw [takePrefixes_writeHead hnp]
  simp only [h0f, hb8, if_false]
  rw [takeOperands_write raw hn h g (by rw [hbits]; exact rexX_of_isRm h)
    (by rw [hbits])]
  simp only [Option.bind_some, hnat, hbits]

end L2.SelfHost
