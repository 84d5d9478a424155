import L2.SelfHost.Placement

/-!
# One outcome

Instructions have a bounded length, so code at address 0 reaches static memory in the low
part of the address space, and what code does from a state is determined: two states that
it is known to reach are the same.
-/

namespace L2.SelfHost

open X86 (Word Byte Reg State Runs signed bytesOf)

variable {address : Bndg → Word} {raw : Nat}

/-! ## Lengths -/

/-- The bytes of an operand after the operand fields. -/
def Operand.span (op : Operand) : Nat := op.dispSize + (writeImm op).length

def Short (k : Nat) (bs : Option (List Byte)) : Prop := ∀ b ∈ bs, b.length ≤ k

theorem Short.none (k : Nat) : Short k none := fun _ h => by cases h

theorem Short.ite {k : Nat} {p : Prop} [Decidable p] {b : List Byte} (h : b.length ≤ k) :
    Short k (if p then some b else Option.none) := by
  intro c hc
  split at hc
  · rw [← Option.some.inj hc]
    exact h
  · cases hc

theorem Short.orElse {k : Nat} {b c : Option (List Byte)} (hb : Short k b) (hc : Short k c) :
    Short k (b <|> c) := by
  cases b with
  | none => simpa using hc
  | some b => simpa using hb

theorem length_writeHead_le (opcode opcodeSize : Nat) (e g op : Operand) :
    (writeHead opcode opcodeSize e g op).length ≤ opcodeSize + 5 := by
  unfold writeHead
  simp only [List.length_append, X86.length_bytesOf]
  have h1 : (if hasOso g op then [0x66#8] else []).length ≤ 1 := by split <;> simp
  have h2 : (if hasAso op then [0x67#8] else []).length ≤ 1 := by split <;> simp
  have h3 : (if hasRex e g op then [rexByte e g op] else []).length ≤ 1 := by split <;> simp
  have h4 : (if !g.isNone || !op.isNone then
      [modrmByte g op] ++ (if hasSib op then [sibByte op] else []) else []).length ≤ 2 := by
    split
    · split <;> simp
    · simp
  omega

theorem length_writeInstr_le (address : Bndg → Word) (pos : Word) (opcode opcodeSize : Nat)
    (e g op imm : Operand) :
    (writeInstr address pos opcode opcodeSize e g op imm).length ≤
      opcodeSize + 5 + op.span + imm.span := by
  have h := length_writeHead_le opcode opcodeSize e g op
  rw [length_writeInstr]
  unfold Operand.span
  omega

/-- Operands of the size that the generator makes. -/
def Fitting (ops : List Operand) : Prop := ∀ op ∈ ops, op.span ≤ 8

theorem length_writeInstr_le_of_span (pos : Word) (opcode : Nat) {opcodeSize : Nat}
    (e g : Operand) {op imm : Operand} (ho : opcodeSize ≤ 2) (hop : op.span ≤ 8)
    (himm : imm.span ≤ 8) :
    (writeInstr address pos opcode opcodeSize e g op imm).length ≤ 23 := by
  have h := length_writeInstr_le address pos opcode opcodeSize e g op imm
  omega

theorem length_two_le {pos pos' : Word} {o o' k k' : Nat} {e g op e' g' op' imm imm' : Operand}
    (ho : k ≤ 2) (hop : op.span ≤ 8) (himm : imm.span ≤ 8) (ho' : k' ≤ 2) (hop' : op'.span ≤ 8)
    (himm' : imm'.span ≤ 8) :
    (writeInstr address pos o k e g op imm ++ writeInstr address pos' o' k' e' g' op' imm').length ≤
      46 := by
  have h : (writeInstr address pos o k e g op imm).length ≤ 23 :=
    length_writeInstr_le_of_span pos o e g ho hop himm
  have h' : (writeInstr address pos' o' k' e' g' op' imm').length ≤ 23 :=
    length_writeInstr_le_of_span pos' o' e' g' ho' hop' himm'
  rw [List.length_append]
  omega

theorem span_none (raw : Nat) : (Operand.none raw).span ≤ 8 := Nat.zero_le 8

theorem movzxOpcode_size {dst src opcode size : Nat}
    (h : movzxOpcode dst src = some (opcode, size)) : size ≤ 2 := by
  unfold movzxOpcode at h
  repeat' split at h
  all_goals simp only [Option.some.injEq, Prod.mk.injEq, reduceCtorEq] at h
  all_goals omega

section
variable {pos : Word} {f : Form} {ops : List Operand} (ho : Fitting ops)
include ho

theorem short_nm : Short 46 (writeNmInstr ops) := by
  unfold writeNmInstr
  split
  · exact Short.ite (Nat.zero_le _)
  · exact Short.none _

theorem short_imm64 : Short 46 (writeMovImm64 address raw pos ops) := by
  unfold writeMovImm64
  split
  · next op1 op2 rest =>
    have h1 := ho op1 (by simp)
    have h2 := ho op2 (by simp)
    have hn := span_none raw
    split
    · split
      · intro b hb
        rw [← Option.some.inj hb]
        exact Nat.le_trans (length_writeInstr_le_of_span pos _ _ _ (by decide) hn h2) (by decide)
      · split
        · exact Short.ite (length_two_le (by decide) hn h2 (by decide) h1 hn)
        · exact Short.none _
    · exact Short.none _
  · exact Short.none _

theorem short_lea : Short 46 (writeLea address raw pos ops) := by
  unfold writeLea
  split
  · next op1 op2 rest =>
    have h1 := ho op1 (by simp)
    have h2 := ho op2 (by simp)
    have hn := span_none raw
    split
    · split
      · intro b hb
        rw [← Option.some.inj hb]
        exact Nat.le_trans (length_writeInstr_le_of_span pos _ _ _ (by decide) h2 hn) (by decide)
      · split
        · exact Short.ite (length_two_le (by decide) h2 hn (by decide) h1 hn)
        · exact Short.none _
    · exact Short.none _
  · exact Short.none _

theorem short_movzx : Short 46 (writeMovzx address raw pos ops) := by
  unfold writeMovzx
  split
  · next op1 op2 rest =>
    have h1 := ho op1 (by simp)
    have h2 := ho op2 (by simp)
    have hn := span_none raw
    split
    · intro b hb
      obtain ⟨⟨opcode, size⟩, hop, hb⟩ := Option.bind_eq_some_iff.mp hb
      have hsize : size ≤ 2 := movzxOpcode_size hop
      have hshort : Short 46 (some b) := by
        rw [← hb]
        dsimp only
        split
        · intro c hc
          rw [← Option.some.inj hc]
          exact Nat.le_trans (length_writeInstr_le_of_span pos _ _ _ hsize h2 hn) (by decide)
        · split
          · exact Short.ite (length_two_le hsize h2 hn (by decide) h1 hn)
          · exact Short.none _
      exact hshort b rfl
    · exact Short.none _
  · exact Short.none _

variable (hf : f.opcodeSize ≤ 2)
include hf

theorem short_mr : Short 46 (writeMrInstr address raw pos f ops) := by
  unfold writeMrInstr
  split
  · next op1 op2 _ =>
    exact Short.ite (Nat.le_trans
      (length_writeInstr_le_of_span pos _ _ _ hf (ho op1 (by simp)) (span_none raw)) (by decide))
  · exact Short.none _

theorem short_rm : Short 46 (writeRmInstr address raw pos f ops) := by
  unfold writeRmInstr
  split
  · next op1 op2 _ =>
    exact Short.ite (Nat.le_trans
      (length_writeInstr_le_of_span pos _ _ _ hf (ho op2 (by simp)) (span_none raw)) (by decide))
  · exact Short.none _

theorem short_mi (e : Operand) : Short 46 (writeMiInstr address raw pos f e ops) := by
  unfold writeMiInstr
  split
  · next op1 op2 _ =>
    exact Short.ite (Nat.le_trans (length_writeInstr_le_of_span pos _ _ _ hf (ho op1 (by simp))
      (ho op2 (by simp))) (by decide))
  · exact Short.none _

theorem short_mi8 (e : Operand) : Short 46 (writeMi8Instr address raw pos f e ops) := by
  unfold writeMi8Instr
  split
  · next op1 op2 _ =>
    exact Short.ite (Nat.le_trans (length_writeInstr_le_of_span pos _ _ _ hf (ho op1 (by simp))
      (ho op2 (by simp))) (by decide))
  · exact Short.none _

theorem short_m (e : Operand) : Short 46 (writeMInstr address raw pos f e ops) := by
  unfold writeMInstr
  split
  · next op1 _ =>
    exact Short.ite (Nat.le_trans
      (length_writeInstr_le_of_span pos _ _ _ hf (ho op1 (by simp)) (span_none raw)) (by decide))
  · exact Short.none _

theorem short_mc (e : Operand) : Short 46 (writeMcInstr address raw pos f e ops) := by
  unfold writeMcInstr
  split
  · next op1 op2 _ =>
    exact Short.ite (Nat.le_trans
      (length_writeInstr_le_of_span pos _ _ _ hf (ho op1 (by simp)) (span_none raw)) (by decide))
  · exact Short.none _

theorem short_mm : Short 46 (writeMmInstr address raw pos f ops) := by
  unfold writeMmInstr
  split
  · next op1 op2 op3 _ =>
    exact Short.ite (length_two_le (by decide) (ho op2 (by simp)) (span_none raw) hf
      (ho op1 (by simp)) (span_none raw))
  · exact Short.none _

end

/-- An instruction takes at most 46 bytes. -/
theorem short_assemble (pos : Word) (n : Instr) (ho : Fitting n.operands) :
    Short 46 (assemble address raw pos n) := by
  unfold assemble
  cases n.code with
  | mov =>
    exact (short_nm ho).orElse ((short_mr ho (by decide)).orElse ((short_rm ho (by decide)).orElse
      ((short_mm ho (by decide)).orElse ((short_mi ho (by decide) _).orElse (short_imm64 ho)))))
  | lea => exact (short_nm ho).orElse (short_lea ho)
  | movzx => exact short_movzx ho
  | xor =>
    exact (short_mi ho (by decide) _).orElse ((short_mr ho (by decide)).orElse
      ((short_rm ho (by decide)).orElse ((short_mm ho (by decide)).orElse
        (short_mi8 ho (by decide) _))))
  | sub | cmp | add =>
    exact (short_rm ho (by decide)).orElse ((short_mr ho (by decide)).orElse
      ((short_mi ho (by decide) _).orElse ((short_mm ho (by decide)).orElse
        (short_mi8 ho (by decide) _))))
  | or | and =>
    exact (short_rm ho (by decide)).orElse ((short_mr ho (by decide)).orElse
      ((short_mm ho (by decide)).orElse ((short_mi ho (by decide) _).orElse
        (short_mi8 ho (by decide) _))))
  | not | mul | div | setz | setc | seta => exact short_m ho (by decide) _
  | shl | shr => exact (short_mc ho (by decide) _).orElse (short_mi8 ho (by decide) _)

theorem length_assembleList_le (ns : List Instr) (ho : ∀ n ∈ ns, Fitting n.operands) :
    ∀ (pos : Word) {bs : List Byte}, assembleList address raw pos ns = some bs →
      bs.length ≤ 46 * ns.length := by
  induction ns with
  | nil =>
    intro pos bs h
    rw [← Option.some.inj h]
    exact Nat.le_refl 0
  | cons n ns ih =>
    intro pos bs h
    obtain ⟨b, hb, h⟩ := Option.bind_eq_some_iff.mp h
    obtain ⟨cs, hcs, h⟩ := Option.bind_eq_some_iff.mp h
    have hshort := short_assemble pos n (ho n List.mem_cons_self) b hb
    have hrest := ih (fun m hm => ho m (List.mem_cons_of_mem n hm)) _ hcs
    rw [← Option.some.inj h, List.length_append, List.length_cons]
    omega

/-! ## Static memory in reach -/

/-- A value between the bounds of signed numbers of four bytes is the sign extension of its
low bytes. -/
theorem signed_four_iff (v : Word) :
    signed 4 v = v ↔ v.toNat < 2 ^ 31 ∨ 2 ^ 64 - 2 ^ 31 ≤ v.toNat := by
  have hlt : v.toNat < 2 ^ 64 := v.isLt
  have hw : (v.setWidth 32).toNat = v.toNat % 2 ^ 32 := BitVec.toNat_setWidth 32 v
  unfold signed
  rw [← BitVec.toInt_inj, BitVec.toInt_signExtend_of_le (by decide)]
  simp only [BitVec.toInt_eq_toNat_cond]
  rw [show 8 * 4 = 32 from rfl, hw]
  split <;> split <;> omega

/-- Static memory in the low part of the address space. -/
def flat (bndg : Bndg) : Word :=
  match bndg.storage with
  | .absolute offset => offset &&& 0x3FFFFFFF
  | _ => 0

theorem toNat_flat_lt (bndg : Bndg) : (flat bndg).toNat < 2 ^ 30 := by
  unfold flat
  split
  · next offset _ =>
    have h : (offset &&& 0x3FFFFFFF).toNat ≤ 0x3FFFFFFF := by
      rw [BitVec.toNat_and]
      exact Nat.and_le_right
    omega
  · decide

/-- Every static binding is in the low part of the address space. -/
def Low (address : Bndg → Word) : Prop := ∀ bndg, (address bndg).toNat < 2 ^ 30

/-- Code at address 0 reaches it. -/
theorem Low.within (h : Low address) {len : Nat} (hlen : len < 2 ^ 30) : Within address 0 len := by
  intro k hk bndg _ _
  rw [signed_four_iff]
  have hf := h bndg
  generalize address bndg = x at hf
  have hz : (0 : Word) + BitVec.ofNat 64 k = BitVec.ofNat 64 k := BitVec.zero_add _
  have hn : (BitVec.ofNat 64 k).toNat = k := by
    rw [BitVec.toNat_ofNat, Nat.mod_eq_of_lt (by omega)]
  rw [hz, BitVec.toNat_sub, hn]
  omega

/-! ## Determinism -/

/-- Two ends of runs from one configuration that have no next one are the same. -/
theorem runs_unique {c d e : X86.Config} (hd : Runs c d) (he : Runs c e)
    (hd' : X86.step d = none) (he' : X86.step e = none) : d = e := by
  have htotal := Relation.ReflTransGen.total_of_right_unique
    (fun _ _ _ h h' => Option.some.inj (h.symm.trans h')) hd he
  rcases htotal with h | h
  · exact (X86.Runs.stuck hd' h).symm
  · exact X86.Runs.stuck he' h

/-- What code does is determined, if static memory can be put in its reach. -/
theorem Does.unique_of_low (hlow : Low address) {ns : List Instr} {s s' s'' : State}
    (h : Does address raw ns s s') (h' : Does address raw ns s s'')
    (ho : ∀ n ∈ ns, Fitting n.operands) (hl : ns.length < 2 ^ 20) : s' = s'' := by
  obtain ⟨bs, hbs, hrun⟩ := h 0
  obtain ⟨cs, hcs, hrun'⟩ := h' 0
  have hsame : cs = bs := Option.some.inj (hcs.symm.trans hbs)
  subst hsame
  have hlen := length_assembleList_le ns ho 0 hbs
  have hw : Within address 0 cs.length := hlow.within (by omega)
  have hstuck : ∀ t, X86.step ⟨0 + BitVec.ofNat 64 cs.length, [], t⟩ = none := fun _ => rfl
  have heq := runs_unique (hrun hw []) (hrun' hw []) (hstuck s') (hstuck s'')
  exact congrArg X86.Config.state heq

theorem Does.unique {ns : List Instr} {s s' s'' : State} (h : Does flat raw ns s s')
    (h' : Does flat raw ns s s'') (ho : ∀ n ∈ ns, Fitting n.operands) (hl : ns.length < 2 ^ 20) :
    s' = s'' := h.unique_of_low toNat_flat_lt h' ho hl

/-- Code with an instruction that has no next state does not end where its bytes do. -/
theorem not_does_of_stuck (hlow : Low address) {ns ms : List Instr} {m : Instr} {s s₁ : State}
    (h : Does address raw ns s s₁)
    (hm : ∀ pos bs es, assemble address raw pos m = some bs →
      assembleList address raw (pos + BitVec.ofNat 64 bs.length) ms = some es →
      Within address pos bs.length → bs ≠ [] ∧ X86.step ⟨pos, bs ++ es, s₁⟩ = none)
    (ho : ∀ n ∈ ns ++ m :: ms, Fitting n.operands) (hl : (ns ++ m :: ms).length < 2 ^ 20)
    (s' : State) : ¬ Does address raw (ns ++ m :: ms) s s' := by
  intro hdoes
  obtain ⟨bs, hbs, hrun⟩ := hdoes 0
  obtain ⟨cs, hcs, hrun'⟩ := h 0
  have hlen := length_assembleList_le _ ho 0 hbs
  rw [assembleList_append, hcs, Option.bind_some] at hbs
  obtain ⟨ds, hds, hjoin⟩ := Option.map_eq_some_iff.mp hbs
  obtain ⟨w, hw, hds⟩ := Option.bind_eq_some_iff.mp hds
  obtain ⟨es, hes, hds⟩ := Option.bind_eq_some_iff.mp hds
  have hds : w ++ es = ds := Option.some.inj hds
  subst hjoin hds
  have hin : Within address 0 (cs ++ (w ++ es)).length := hlow.within (by omega)
  have hend := hrun hin []
  rw [List.append_nil] at hend
  rw [List.length_append, List.length_append] at hin
  obtain ⟨hne, hstuck⟩ := hm _ w es hw hes hin.right.left
  have heq := runs_unique hend (hrun' hin.left (w ++ es)) rfl hstuck
  have hnil : ([] : List Byte) = w ++ es := congrArg X86.Config.code heq
  exact hne (List.append_eq_nil_iff.mp hnil.symm).1

end L2.SelfHost
