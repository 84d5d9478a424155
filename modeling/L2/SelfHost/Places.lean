import L2.SelfHost.Arithmetic
import L2.SelfHost.Placement

/-!
# Values at places

The values of a program are in registers, in words of the frame and in words of static
memory.  An instruction sets one place and keeps the ones that are apart from it, but for
the register that a value from memory to memory goes through.
-/

namespace L2.SelfHost

open X86 (Word Reg State Alu Cond low load store merge signed)

variable {address : Bndg → Word} {raw : Nat} {s s' : State} {l l' : Loc} {r : Reg} {v w : Word}

/-! ## Apart -/

/-- The registers but for the two of the stack, the words of the frame, static memory. -/
def Loc.Usable : Loc → Prop
  | .reg r => r ≠ X86.rsp ∧ r ≠ X86.rbp
  | .mem base _ => base = X86.rbp
  | .fixed _ => True

/-- Two words do not share a byte. -/
def WordsApart (a b : Word) : Prop := 8 ≤ (a - b).toNat ∧ 8 ≤ (b - a).toNat

theorem WordsApart.symm {a b : Word} (h : WordsApart a b) : WordsApart b a := ⟨h.2, h.1⟩

theorem load_store_apart {m : X86.Memory} {a b : Word} (h : WordsApart a b) (v : Word) :
    load (store m a 8 v) b 8 = load m b 8 := by
  apply X86.load_store_of_disjoint
  intro i hi
  obtain ⟨hab, hba⟩ := h
  have hsplit : b + BitVec.ofNat 64 i - a = (b - a) + BitVec.ofNat 64 i := by ring
  have hneg : (a - b).toNat = (2 ^ 64 - (b - a).toNat) % 2 ^ 64 := by
    have hab : a - b = -(b - a) := by ring
    rw [hab, BitVec.toNat_neg]
  rw [hsplit, BitVec.toNat_add, BitVec.toNat_ofNat]
  have hlt := (b - a).isLt
  omega

/-- The places do not share a byte. -/
def Apart (s : State) : Loc → Loc → Prop
  | .reg r, .reg r' => r ≠ r'
  | .reg _, _ => True
  | _, .reg _ => True
  | l, l' => WordsApart (l.addr s) (l'.addr s)

theorem Apart.symm (h : Apart s l l') : Apart s l' l := by
  cases l <;> cases l' <;> first | exact h.symm | trivial

theorem Apart.congr (hl : l.Usable) (hl' : l'.Usable) (hbp : s'.regs X86.rbp = s.regs X86.rbp)
    (h : Apart s l l') : Apart s' l l' := by
  have haddr : ∀ {k : Loc}, k.Usable → k.addr s' = k.addr s := by
    intro k hk
    cases k with
    | reg r => rfl
    | mem base disp =>
      show s'.regs base + disp = s.regs base + disp
      rw [show base = X86.rbp from hk, hbp]
    | fixed a => rfl
  cases l <;> cases l' <;> first | exact h | skip
  all_goals
    show WordsApart _ _
    rw [haddr hl, haddr hl']
    exact h

theorem Apart.ne_reg (h : Apart s (.reg r) l) : l ≠ .reg r := by
  rintro rfl
  exact h rfl

theorem apart_reg (h : l ≠ .reg r) : Apart s (.reg r) l := by
  cases l with
  | reg r' =>
    intro hr
    exact h (congrArg Loc.reg hr.symm)
  | mem base disp => trivial
  | fixed a => trivial

theorem Apart.ne (h : Apart s l l') : l ≠ l' := by
  rintro rfl
  cases l with
  | reg r => exact h rfl
  | mem base disp =>
    have h : 8 ≤ _ := h.1
    simp at h
  | fixed a =>
    have h : 8 ≤ _ := h.1
    simp at h

/-! ## Reads after writes -/

theorem read_setReg (hl : l.Usable) (hr : r ≠ X86.rbp) (h : l ≠ .reg r) (n : Nat) :
    l.read (s.setReg r v) n = l.read s n := by
  cases l with
  | reg r' =>
    show low n _ = low n _
    rw [State.setReg_of_ne]
    exact fun hr' => h (congrArg Loc.reg hr')
  | mem base disp =>
    show load _ ((s.setReg r v).regs base + disp) n = load _ (s.regs base + disp) n
    rw [State.setReg_of_ne _ _ (by rw [show base = X86.rbp from hl]; exact hr.symm)]
    rfl
  | fixed a => rfl

theorem read_setFlags (zf cf : Bool) (n : Nat) : l.read (s.setFlags zf cf) n = l.read s n := by
  cases l <;> rfl

theorem read_reg (s : State) (r : Reg) : (Loc.reg r).read s 8 = s.regs r := X86.low_eight _

theorem write_reg (s : State) (r : Reg) (v : Word) : (Loc.reg r).write s 8 v = s.setReg r v := by
  show s.setReg r (merge 8 (s.regs r) v) = _
  rw [X86.merge_eight]

theorem read_write (s : State) (l : Loc) (v : Word) : l.read (l.write s 8 v) 8 = v := by
  cases l with
  | reg r => rw [write_reg, read_reg, State.setReg_same]
  | mem base disp =>
    show load (store s.mem _ 8 v) _ 8 = v
    exact (X86.load_store (Nat.le_refl 8) _ _ _).trans (X86.low_eight v)
  | fixed a =>
    show load (store s.mem _ 8 v) _ 8 = v
    exact (X86.load_store (Nat.le_refl 8) _ _ _).trans (X86.low_eight v)

theorem read_write_apart (hl : l.Usable) (hl' : l'.Usable) (h : Apart s l l') (v : Word) :
    l'.read (l.write s 8 v) 8 = l'.read s 8 := by
  have hmem : ∀ a : Word, (∀ k : Loc, k = l' → k.isMemory = true → WordsApart a (k.addr s)) →
      l'.read (s.setMem (store s.mem a 8 v)) 8 = l'.read s 8 := by
    intro a ha
    cases l' with
    | reg r' => rfl
    | mem base' disp' => exact load_store_apart (ha _ rfl rfl) v
    | fixed a' => exact load_store_apart (ha _ rfl rfl) v
  cases l with
  | reg r =>
    rw [write_reg]
    exact read_setReg hl' hl.2 h.ne_reg 8
  | mem base disp =>
    apply hmem
    rintro k rfl hk
    cases k with
    | reg r' => cases hk
    | mem base' disp' => exact h
    | fixed a' => exact h
  | fixed a =>
    apply hmem
    rintro k rfl hk
    cases k with
    | reg r' => cases hk
    | mem base' disp' => exact h
    | fixed a' => exact h

/-- A byte that is written leaves the others. -/
theorem read_write_byte (s : State) (l : Loc) (v : Word) :
    l.read (l.write s 1 v) 8 = X86.merge 1 (l.read s 8) v := by
  have hmem : ∀ a : Word, load (store s.mem a 1 v) a 8 = X86.merge 1 (load s.mem a 8) v := by
    intro a
    have hrest : load (store s.mem a 1 v) (a + 1) 7 = load s.mem (a + 1) 7 := by
      apply X86.load_store_of_disjoint
      intro i hi
      have hi' : a + 1 + BitVec.ofNat 64 i = a + BitVec.ofNat 64 (1 + i) := add_ofNat a 1 i
      rw [hi', X86.toNat_add_sub a (by omega)]
      omega
    have hfirst : store s.mem a 1 v a = X86.byte v 0 := by
      have hz : (a - a).toNat = 0 := by simp
      rw [X86.store_inside v (by omega), hz]
    show (store s.mem a 1 v a).setWidth 64 ||| load (store s.mem a 1 v) (a + 1) 7 <<< 8 = _
    rw [hrest, hfirst]
    show _ = (((s.mem a).setWidth 64 ||| load s.mem (a + 1) 7 <<< 8) &&& ~~~ low 1 _) ||| low 1 v
    apply BitVec.eq_of_getLsbD_eq
    intro j hj
    simp only [BitVec.getLsbD_or, BitVec.getLsbD_and, BitVec.getLsbD_not, BitVec.getLsbD_setWidth,
      BitVec.getLsbD_shiftLeft, X86.getLsbD_low, X86.getLsbD_byte, BitVec.getLsbD_allOnes]
    by_cases h8 : j < 8
    · simp [h8, hj]
    · have hbyte : (s.mem a).getLsbD j = false := BitVec.getLsbD_of_ge _ _ (by omega)
      simp [h8, hj, hbyte]
  cases l with
  | reg r =>
    show low 8 ((s.setReg r _).regs r) = X86.merge 1 (low 8 _) v
    rw [State.setReg_same, X86.low_eight, X86.low_eight]
  | mem base disp => exact hmem _
  | fixed a => exact hmem a

theorem rbp_write (hl : l.Usable) (n : Nat) (v : Word) :
    (l.write s n v).regs X86.rbp = s.regs X86.rbp := by
  cases l with
  | reg r => exact State.setReg_of_ne _ _ (Ne.symm hl.2)
  | mem base disp => rfl
  | fixed a => rfl

/-! ## What an instruction changes -/

/-- The value `v` is set at the place `l`, and nothing else is changed but the registers
`used`, in which `w` is left. -/
structure Sets (used : List Reg) (w : Word) (l : Loc) (v : Word) (s s' : State) : Prop where
  value : l.read s' 8 = v
  kept : ∀ l', l'.Usable → Apart s l l' → (∀ r ∈ used, l' ≠ .reg r) → l'.read s' 8 = l'.read s 8
  left : ∀ r ∈ used, l ≠ .reg r → s'.regs r = w
  base : s'.regs X86.rbp = s.regs X86.rbp

/-- The register that a value goes through from memory to memory. -/
def through (dst src : Loc) : List Reg :=
  if dst.isMemory && src.isMemory then [X86.r11] else []

theorem sets_write (hl : l.Usable) (w v : Word) (s : State) : Sets [] w l v s (l.write s 8 v) where
  value := read_write s l v
  kept _ hl' h _ := read_write_apart hl hl' h v
  left _ hr := absurd hr List.not_mem_nil
  base := rbp_write hl 8 v

theorem Sets.setFlags {used : List Reg} (h : Sets used w l v s s') (zf cf : Bool) :
    Sets used w l v s (s'.setFlags zf cf) where
  value := (read_setFlags zf cf 8).trans h.value
  kept l' hl' ha hu := (read_setFlags zf cf 8).trans (h.kept l' hl' ha hu)
  left := h.left
  base := h.base

/-- What places hold afterwards. -/
theorem Sets.read {used : List Reg} (h : Sets used w l v s s') (hl' : l'.Usable)
    (ha : l' = l ∨ Apart s l l') : l'.read s' 8 =
      if l' = l then v else if l' ∈ used.map Loc.reg then w else l'.read s 8 := by
  by_cases heq : l' = l
  · rw [if_pos heq, heq]
    exact h.value
  · rw [if_neg heq]
    have hapart := ha.resolve_left heq
    by_cases hu : l' ∈ used.map Loc.reg
    · rw [if_pos hu]
      obtain ⟨r, hr, rfl⟩ := List.mem_map.mp hu
      rw [read_reg]
      exact h.left r hr fun h => heq h.symm
    · rw [if_neg hu]
      apply h.kept l' hl' hapart
      intro r hr h
      exact hu (List.mem_map.mpr ⟨r, hr, h.symm⟩)

/-- A value is loaded into a register first. -/
theorem sets_write_through (hl : l.Usable) (hm : l.isMemory = true) {t : Reg} (ht : t ≠ X86.rbp)
    (w v : Word) (s : State) : Sets [t] w l v s (l.write (s.setReg t w) 8 v) := by
  have hbase : (s.setReg t w).regs X86.rbp = s.regs X86.rbp := State.setReg_of_ne _ _ (Ne.symm ht)
  have hreg : ∀ q, (l.write (s.setReg t w) 8 v).regs q = (s.setReg t w).regs q := by
    intro q
    cases l with
    | reg r => cases hm
    | mem base disp => rfl
    | fixed a => rfl
  refine ⟨read_write _ l v, ?_, ?_, (rbp_write hl 8 v).trans hbase⟩
  · intro l' hl' ha hu
    rw [read_write_apart hl hl' (ha.congr hl hl' hbase) v]
    exact read_setReg hl' ht (hu t List.mem_cons_self) 8
  · intro r hr _
    rw [List.mem_singleton.mp hr, hreg, State.setReg_same]

theorem apply_eq {alu : Alu} (h : alu ≠ .cmp) (s : State) (l : Loc) (y : Word) :
    l.apply alu s y = (l.write s 8 (alu.eval (l.read s 8) y)).setFlags
      (alu.eval (l.read s 8) y == 0) (alu.carry (l.read s 8) y) := by
  show (if _ then _ else _ : State).setFlags _ _ = _
  rw [if_neg h]

/-- The scratch register of the generators. -/
theorem makeRegOp_r11 : makeRegOp r11 = regOp X86.r11 := by decide

section
variable {dst src : Operand} {d a : Loc} (hd : Names address 8 dst d) (ha : Names address 8 src a)
  (hdu : d.Usable)
include hd ha hdu

theorem does_move (raw : Nat) (s : State) :
    ∃ s', Does address raw [⟨.mov, [dst, src, makeRegOp r11]⟩] s s' ∧
      Sets (through d a) (a.read s 8) d (a.read s 8) s s' := by
  rw [makeRegOp_r11]
  cases hma : a.isMemory with
  | false =>
    have hthrough : through d a = [] := by
      unfold through
      rw [hma, Bool.and_false]
      rfl
    rw [hthrough]
    cases ha with
    | reg r =>
      refine ⟨_, does_mov_of_reg (by decide) hd (.inl rfl) r [regOp X86.r11] s, ?_⟩
      rw [read_reg]
      exact sets_write hdu _ _ s
    | mem base disp dispSize h => cases hma
    | static bndg offset h => cases hma
  | true =>
    cases hmd : d.isMemory with
    | false =>
      have hthrough : through d a = [] := by
        unfold through
        rw [hmd, Bool.false_and]
        rfl
      rw [hthrough]
      cases hd with
      | reg r =>
        refine ⟨_, does_mov_to_reg (by decide) ha hma r [regOp X86.r11] s, ?_⟩
        rw [X86.merge_eight, ← write_reg]
        exact sets_write hdu _ _ s
      | mem base disp dispSize h => cases hmd
      | static bndg offset h => cases hmd
    | true =>
      have hthrough : through d a = [X86.r11] := by
        unfold through
        rw [hmd, hma]
        rfl
      rw [hthrough]
      refine ⟨_, does_mov_through (by decide) ha hd hmd hma (by decide) X86.r11 [] s, ?_⟩
      have htr : transfer 8 8 = 8 := rfl
      simp only [htr, X86.merge_eight, X86.low_eight, State.setReg_same]
      exact sets_write_through hdu hmd (by decide) _ _ s

/-- The state after an operation on two places. -/
def aluState (alu : Alu) (d a : Loc) (s : State) : State :=
  d.apply alu (if d.isMemory && a.isMemory then s.setReg X86.r11 (a.read s 8) else s) (a.read s 8)

omit hdu in
theorem does_alu (raw : Nat) (alu : Alu) (s : State) :
    Does address raw [⟨aluCode alu, [dst, src, makeRegOp r11]⟩] s (aluState alu d a s) := by
  rw [makeRegOp_r11]
  unfold aluState
  cases hmd : d.isMemory with
  | false =>
    rw [Bool.false_and, if_neg Bool.false_ne_true]
    cases hd with
    | reg r => exact does_alu_reg ha raw alu r [regOp X86.r11] s
    | mem base disp dispSize h => cases hmd
    | static bndg offset h => cases hmd
  | true =>
    cases hma : a.isMemory with
    | false =>
      rw [Bool.and_false, if_neg Bool.false_ne_true]
      cases ha with
      | reg r =>
        rw [read_reg]
        exact does_alu_memory hd raw hmd alu r [regOp X86.r11] s
      | mem base disp dispSize h => cases hma
      | static bndg offset h => cases hma
    | true => exact does_alu_through hd raw hmd alu ha hma X86.r11 [] s

end

theorem through_of_memory {d a : Loc} (hd : d.isMemory = true) (ha : a.isMemory = true) :
    through d a = [X86.r11] := by
  unfold through
  rw [hd, ha]
  rfl

theorem through_of_register {d a : Loc} (h : (d.isMemory && a.isMemory) = false) :
    through d a = [] := by
  unfold through
  rw [h]
  rfl

theorem mem_through {d a : Loc} : l ∈ (through d a).map Loc.reg ↔
    d.isMemory = true ∧ a.isMemory = true ∧ l = .reg X86.r11 := by
  unfold through
  cases d.isMemory <;> cases a.isMemory <;> simp

theorem Loc.ne_reg_of_memory {d : Loc} (hd : d.isMemory = true) (r : Reg) : d ≠ .reg r := by
  rintro rfl
  cases hd

/-- An operation other than the comparison. -/
theorem sets_alu {alu : Alu} (h : alu ≠ .cmp) {d a : Loc} (hd : d.Usable) (s : State) :
    Sets (through d a) (a.read s 8) d (alu.eval (d.read s 8) (a.read s 8)) s
      (aluState alu d a s) := by
  unfold aluState
  rw [apply_eq h]
  apply Sets.setFlags
  cases hm : d.isMemory && a.isMemory with
  | false =>
    rw [through_of_register hm, if_neg Bool.false_ne_true]
    exact sets_write hd _ _ s
  | true =>
    obtain ⟨hmd, hma⟩ := (Bool.and_eq_true _ _).mp hm
    have hread : d.read (s.setReg X86.r11 (a.read s 8)) 8 = d.read s 8 :=
      read_setReg hd (by decide) (Loc.ne_reg_of_memory hmd _) 8
    rw [through_of_memory hmd hma, if_pos rfl, hread]
    exact sets_write_through hd hmd (by decide) _ _ s

/-- The comparison leaves the flags of a subtraction. -/
theorem flags_cmp {d : Loc} (hd : d.Usable) (a : Loc) (s : State) :
    (aluState .cmp d a s).zf = (d.read s 8 - a.read s 8 == 0) ∧
      (aluState .cmp d a s).cf = decide ((d.read s 8).toNat < (a.read s 8).toNat) := by
  have hread : d.read (if d.isMemory && a.isMemory then s.setReg X86.r11 (a.read s 8) else s) 8 =
      d.read s 8 := by
    cases hm : d.isMemory && a.isMemory with
    | false => rfl
    | true =>
      have hmd : d.isMemory = true := ((Bool.and_eq_true _ _).mp hm).1
      exact read_setReg hd (by decide) (Loc.ne_reg_of_memory hmd _) 8
  unfold aluState Loc.apply
  rw [hread]
  exact ⟨rfl, rfl⟩

/-- It changes nothing else but the register that the second operand may go through. -/
theorem read_cmp (d a : Loc) (hl : l.Usable) (s : State) : l.read (aluState .cmp d a s) 8 =
    if l ∈ (through d a).map Loc.reg then a.read s 8 else l.read s 8 := by
  show l.read ((if _ then _ else _ : State).setFlags _ _) 8 = _
  rw [read_setFlags, if_pos rfl]
  cases hm : d.isMemory && a.isMemory with
  | false =>
    rw [through_of_register hm, if_neg Bool.false_ne_true]
    exact (if_neg List.not_mem_nil).symm
  | true =>
    obtain ⟨hmd, hma⟩ := (Bool.and_eq_true _ _).mp hm
    rw [through_of_memory hmd hma, if_pos rfl]
    show _ = if l ∈ [Loc.reg X86.r11] then _ else _
    by_cases hr : l = .reg X86.r11
    · rw [if_pos (List.mem_singleton.mpr hr), hr, read_reg]
      exact State.setReg_same s _ _
    · rw [if_neg fun h => hr (List.mem_singleton.mp h)]
      exact read_setReg hl (by decide) hr 8

/-- A register is loaded. -/
theorem does_load {src : Operand} {a : Loc} (ha : Names address 8 src a) (raw : Nat) (r : Reg)
    (ops : List Operand) (s : State) :
    Does address raw [⟨.mov, regOp r :: src :: ops⟩] s (s.setReg r (a.read s 8)) := by
  cases hm : a.isMemory with
  | true =>
    have h : Does address raw [⟨.mov, regOp r :: src :: ops⟩] s
        (s.setReg r (X86.merge 8 (s.regs r) (a.read s 8))) :=
      does_mov_to_reg (by decide) ha hm r ops s
    rw [X86.merge_eight] at h
    exact h
  | false =>
    cases ha with
    | reg r' =>
      have hr : Names address 8 (regOp r) (.reg r) := names_regOp address r
      have h : Does address raw [⟨.mov, regOp r :: regOp r' :: ops⟩] s
          ((Loc.reg r).write s 8 (s.regs r')) :=
        does_mov_of_reg (by decide) hr (.inl rfl) r' ops s
      rw [write_reg] at h
      rw [read_reg]
      exact h
    | mem base disp dispSize h => cases hm
    | static bndg offset h => cases hm

/-- A register is stored. -/
theorem does_store {dst : Operand} {d : Loc} (hd : Names address 8 dst d) (raw : Nat) (r : Reg)
    (ops : List Operand) (s : State) :
    Does address raw [⟨.mov, dst :: regOp r :: ops⟩] s (d.write s 8 (s.regs r)) :=
  does_mov_of_reg (by decide) hd (.inl rfl) r ops s

end L2.SelfHost
