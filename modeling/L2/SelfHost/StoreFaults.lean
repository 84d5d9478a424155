import L2.SelfHost.Stores
import L2.SelfHost.Uniqueness

/-!
# Which stores are exact

Every invocation that the stores do not support goes wrong from some state.  The state is
uniform: all memory and all registers but one repeat one byte, so the operands can be read
wherever they are, and a single byte of memory shows what has been stored.
-/

namespace L2.SelfHost

open X86 (Word Byte Reg State low load store merge signed byte fill)

/-- Everything holds the byte `c`, but for `rbp`, which is 0, and the byte at `x`. -/
def uniform (c : Byte) (x : Word) : State where
  regs r := if r = X86.rbp then 0 else fill c
  mem y := if y = x then ~~~ c else c
  zf := false
  cf := false

/-- An address that is neither in the frame nor in static memory. -/
def Far (x : Word) : Prop := 2 ^ 33 ≤ x.toNat ∧ x.toNat < 2 ^ 64 - 2 ^ 33

theorem load_uniform {c : Byte} {x a : Word} (hx : Far x)
    (ha : a.toNat < 2 ^ 32 ∨ 2 ^ 64 - 2 ^ 32 ≤ a.toNat) :
    load (uniform c x).mem a 8 = fill c := by
  rw [← X86.load_const c a]
  apply X86.load_congr
  intro i hi
  apply if_neg
  intro h
  have hn : (a + BitVec.ofNat 64 i).toNat = (a.toNat + i) % 2 ^ 64 := by
    rw [BitVec.toNat_add, BitVec.toNat_ofNat, Nat.mod_eq_of_lt (a := i) (by omega)]
  obtain ⟨h1, h2⟩ := hx
  rw [h] at hn
  omega

/-- In a uniform state every placed binding holds the repeated byte. -/
theorem read_uniform {c : Byte} {x : Word} (hx : Far x) {b : Bndg}
    (hb : Placed storeReserved b) : (locOf flat b).read (uniform c x) 8 = fill c := by
  obtain ⟨_, hp⟩ := hb
  unfold locOf
  cases hs : b.storage with
  | nil =>
    rw [hs] at hp
    exact hp.elim
  | register reg =>
    rw [hs] at hp
    obtain ⟨i, rfl, hi⟩ := hp
    have hne : i ≠ X86.rbp := fun h => hi (by simp [h, storeReserved])
    show low 8 (if regNumber (reg64 i) = X86.rbp then 0 else fill c) = fill c
    rw [regNumber_reg64, if_neg hne, X86.low_eight]
  | frameRelative offset =>
    rw [hs] at hp
    have ho := (signed_four_iff offset).mp hp.2
    have haddr : (Loc.mem X86.rbp offset).addr (uniform c x) = offset := BitVec.zero_add offset
    show load (uniform c x).mem ((Loc.mem X86.rbp offset).addr (uniform c x)) 8 = fill c
    rw [haddr]
    exact load_uniform hx (by omega)
  | absolute offset =>
    have hf := toNat_flat_lt b
    show load (uniform c x).mem (flat b) 8 = fill c
    exact load_uniform hx (by omega)

/-- Storing as many bytes as the repeated byte shows at `x`. -/
theorem store_uniform_self {c : Byte} {a : Word} {n : Nat} (hn : 0 < n ∧ n ≤ 8) :
    store (uniform c a).mem a n (fill c) a = c := by
  have h0 : (a - a).toNat = 0 := by simp
  rw [X86.store_inside _ (by omega), h0, X86.byte_fill (by decide)]

theorem uniform_self (c : Byte) (a : Word) : (uniform c a).mem a = ~~~ c := if_pos rfl

theorem not_eq_self (c : Byte) : ~~~ c ≠ c := by
  revert c
  decide

/-! ## Far addresses -/

theorem far_near_fill {c : Byte} (hc : c = 0x40 ∨ c = 0x60) {d : Word}
    (hd : d.toNat < 2 ^ 32 ∨ 2 ^ 64 - 2 ^ 32 ≤ d.toNat) : Far (fill c + d) := by
  have hf : (fill c).toNat = 0x4040404040404040 ∨ (fill c).toNat = 0x6060606060606060 := by
    rcases hc with rfl | rfl
    · exact .inl (by decide)
    · exact .inr (by decide)
  unfold Far
  rw [BitVec.toNat_add]
  have hlt := d.isLt
  omega

/-- From one of two bytes every offset leads far away. -/
theorem exists_far (d : Word) : ∃ c : Byte, Far (fill c + d) := by
  have h4 : (fill 0x40).toNat = 0x4040404040404040 := by decide
  have h6 : (fill 0x60).toNat = 0x6060606060606060 := by decide
  by_cases h : Far (fill 0x40 + d)
  · exact ⟨_, h⟩
  · refine ⟨0x60, ?_⟩
    unfold Far at h ⊢
    rw [BitVec.toNat_add] at h ⊢
    rw [h4] at h
    rw [h6]
    have hlt := d.isLt
    omega

/-! ## The stores that go wrong -/

theorem flatMap_nil (es : List Expr) : (es.flatMap fun _ => ([] : List Instr)) = [] := by
  simp

theorem operandCode_nil (n : Expr) : operandCode (fun _ => []) n = [] := by
  unfold operandCode
  split
  · exact flatMap_nil _
  · rfl

theorem toNat_of_sbyte {v : Word} (h : sbyte v) : v.toNat < 2 ^ 7 ∨ 2 ^ 64 - 2 ^ 7 ≤ v.toNat := by
  rcases (of_decide_eq_true h : v = v &&& 0x7F ∨ v = v ||| 0xFFFFFFFFFFFFFF80) with h | h
  · have hle : (v &&& 0x7F).toNat ≤ 0x7F := by
      rw [BitVec.toNat_and]
      exact Nat.and_le_right
    rw [← h] at hle
    omega
  · have hle : 0xFFFFFFFFFFFFFF80 ≤ (v ||| 0xFFFFFFFFFFFFFF80).toNat := by
      rw [BitVec.toNat_or]
      exact Nat.right_le_or
    rw [← h] at hle
    omega

theorem span_partialOp (raw n : Nat) (b : Bndg) : (bndgToPartialOp raw n b).span ≤ 8 := by
  unfold bndgToPartialOp
  split
  · exact span_none raw
  · exact (by decide : 4 ≤ 8)
  · split
    · exact (by decide : 4 ≤ 8)
    · exact span_none raw
  · exact Nat.zero_le 8

/-- The instructions of a store are short ones. -/
theorem fitting_generateSet {raw : Nat} {base : Bndg} {size dispSize : Nat} {disp : Word}
    {value : Operand} {scratch : Register} (hd : dispSize ≤ 8) (hv : value.span ≤ 8) :
    ∀ n ∈ generateSet raw base size disp dispSize value scratch, Fitting n.operands := by
  intro n hn op hop
  unfold generateSet at hn
  rcases List.mem_append.mp hn with hmem | hmem
  · split at hmem
    · cases hmem
    · rw [List.mem_singleton.mp hmem] at hop
      simp only [List.mem_cons, List.not_mem_nil, or_false] at hop
      rcases hop with rfl | rfl
      · exact Nat.zero_le 8
      · exact span_partialOp raw _ base
  · rw [List.mem_singleton.mp hmem] at hop
    simp only [List.mem_cons, List.not_mem_nil, or_false] at hop
    rcases hop with rfl | rfl | rfl
    · exact hd
    · exact hv
    · exact Nat.zero_le 8

theorem length_generateSet (raw : Nat) (base : Bndg) (size dispSize : Nat) (disp : Word)
    (value : Operand) (scratch : Register) :
    (generateSet raw base size disp dispSize value scratch).length < 2 ^ 20 := by
  unfold generateSet generateMoveToRegister
  cases base.storage <;> simp

theorem setWidth_le {name : String} {width : Nat} (hN : setWidth name = some width) :
    0 < width ∧ width ≤ 8 := by
  rcases setWidth_cases hN with ⟨rfl, _⟩ | ⟨rfl, _⟩ | ⟨rfl, _⟩ | ⟨rfl, _⟩ <;> decide

theorem storeAddress_uniform {c : Byte} {x : Word} (hx : Far x) {a : Expr}
    (hb : Placed storeReserved (splitAddress a).1.bindingAug) :
    storeAddress flat (uniform c x) a = fill c + (splitAddress a).2.getD 0 := by
  unfold storeAddress
  rw [read_uniform hx hb]

section
variable {n a value : Expr} {name : String} {width : Nat}
  (hn : matchUndefinedBinaryInvoke n = some (name, a, value)) (hN : setWidth name = some width)
  (hb : Placed storeReserved (splitAddress a).1.bindingAug)
include hn hN hb

/-- With an offset that is not a signed byte nothing is stored. -/
theorem not_storesExactly_of_offset (hv : Placed storeReserved value.bindingAug) {base : Expr}
    {offset : Word} (hm : matchBaseOffset a = some (base, offset)) (ho : ¬ sbyte offset) :
    ¬ StoresExactly n a value width := by
  intro h
  have hinit := initialize_offset hn hN hm
  obtain ⟨c, hfar⟩ := exists_far offset
  obtain ⟨s', hdoes, hmem⟩ := h flat 0 (fun _ => []) _ (uniform c (fill c + offset))
    (by rw [operandCode_nil]; exact Does.nil _)
  rw [intrinsicCode_offset hn hN 0 _ hm hv.1, if_neg ho] at hdoes
  have hs : s' = uniform c (fill c + offset) := hdoes.unique (Does.nil _) (by simp) (by simp)
  have hval : storedValue flat (uniform c (fill c + offset)) n value = fill c := by
    simp [storedValue, hinit, read_uniform hfar hv]
  have haddr := storeAddress_uniform (c := c) hfar hb
  rw [splitAddress_some hm] at haddr
  rw [hs, haddr, hval] at hmem
  have hat := congrFun hmem (fill c + offset)
  rw [Option.getD_some, store_uniform_self (setWidth_le hN), uniform_self] at hat
  exact not_eq_self c hat

/-- The scratch register of a store with an offset is of eight bytes, so a value that goes
through it is stored with eight bytes. -/
theorem not_storesExactly_of_memory (hv : Placed storeReserved value.bindingAug) {base : Expr}
    {offset : Word} (hm : matchBaseOffset a = some (base, offset)) (ho : sbyte offset)
    (hmem : (locOf flat value.bindingAug).isMemory) (hw : width = 2 ∨ width = 4) :
    ¬ StoresExactly n a value width := by
  intro h
  have hinit := initialize_offset hn hN hm
  -- the first byte after those that are to be stored
  set x := fill 0x40 + offset + BitVec.ofNat 64 width with hx
  have hfar : Far x := by
    have hoff := toNat_of_sbyte ho
    rw [hx, BitVec.add_assoc]
    apply far_near_fill (.inl rfl)
    rw [BitVec.toNat_add, BitVec.toNat_ofNat]
    rcases hw with rfl | rfl <;> omega
  obtain ⟨s', hdoes, hs'⟩ := h flat 0 (fun _ => []) _ (uniform 0x40 x)
    (by rw [operandCode_nil]; exact Does.nil _)
  rw [intrinsicCode_offset hn hN 0 _ hm hv.1, if_pos ho, operandCode_nil] at hdoes
  have hbase := hb
  rw [splitAddress_some hm] at hbase
  obtain ⟨s'', hdoes', hs''⟩ := does_set_memory 0 hbase hv (setWidth_sizes hN) (k := 8)
    (by decide) hmem offset (.inl rfl) (uniform 0x40 x)
  have hsame : s' = s'' := hdoes.unique hdoes'
    (fitting_generateSet (by decide) (span_partialOp 0 width _)) (length_generateSet _ _ _ _ _ _ _)
  have htr : transfer 8 width = 8 := by rcases hw with rfl | rfl <;> rfl
  have haddr := storeAddress_uniform (c := 0x40) hfar hb
  have hval : storedValue flat (uniform 0x40 x) n value = fill 0x40 := by
    simp [storedValue, hinit, read_uniform hfar hv]
  rw [splitAddress_some hm, Option.getD_some] at haddr
  rw [hsame, hs'', htr, read_uniform hfar hbase, read_uniform hfar hv, signed_of_sbyte ho, haddr,
    hval] at hs'
  -- eight bytes change this one, and as many as the name says do not
  have hdist : (x - (fill 0x40 + offset)).toNat = width :=
    X86.toNat_add_sub _ (by rcases hw with rfl | rfl <;> decide)
  have hat := congrFun hs' x
  rw [X86.store_inside _ (by rw [hdist]; rcases hw with rfl | rfl <;> decide), hdist,
    X86.byte_fill (by rcases hw with rfl | rfl <;> decide),
    X86.store_outside _ (Nat.le_of_eq hdist.symm), uniform_self] at hat
  exact not_eq_self _ hat.symm

end

/-- The move of a constant of two bytes has no prefix for them, and the processor reads it
as one of four bytes. -/
theorem decode_mov_two (pos : Word) (i : Reg) (x : Word) :
    X86.decode (writeInstr flat pos 0xC7 1 (.none 0) (digitOp 0)
      (makeMemOp 2 (reg64 i) noRegister 0 0 4) (.immediate 2 x)) = none := by
  set op := makeMemOp 2 (reg64 i) noRegister 0 0 4 with hop
  have hnames : Names flat 2 op (.mem i (signed 4 0)) := .mem i 0 4 (.inr rfl)
  have hrex := hnames.hasRex (.inr rfl) (.none 0) (digitOp 0)
  have hsize : (prefixesOf (.none 0) (digitOp 0) op).operandSize = 4 := by
    rw [operandSize_prefixesOf hrex, hnames.size]
    decide
  have hreg : X86.extend (rexR (digitOp 0))
      (BitVec.ofNat 3 ((digitOp 0).opRegister &&& 7)) = 0 := by decide
  have hrm : IsRm flat (pos + BitVec.ofNat 64 (writeInstr flat pos 0xC7 1 (.none 0) (digitOp 0) op
      (.immediate 2 x)).length) 2 op (.mem i (signed 4 0)) := .mem i 0 4 (.inr rfl)
  have hd := decode_write (by decide) (by decide) hrm hrex []
  rw [List.append_nil, hreg, X86.decodeRm_movImm _ rfl, hsize] at hd
  exact hd

/-- So it does not end where its bytes do. -/
theorem not_does_set_two {base : Bndg} (hp : Placed storeReserved base) (x : Word)
    (scratch : Register) (s s' : State) :
    ¬ Does flat 0 (generateSet 0 base 2 0 4 (makeImmOp 2 x) scratch) s s' := by
  obtain ⟨i, s₁, hi, _, hmove, _⟩ := exists_moveToRegister 0 hp s
  have hspan : (makeImmOp 2 x).span ≤ 8 := by
    simp [Operand.span, makeImmOp, Operand.dispSize, writeImm]
  have hset : generateSet 0 base 2 0 4 (makeImmOp 2 x) scratch =
      (generateMoveToRegister 0 r10 base).2 ++
        [⟨.mov, [makeMemOp 2 (reg64 i) noRegister 0 0 4, makeImmOp 2 x, makeRegOp scratch]⟩] := by
    rw [← hi]
    rfl
  have hfit : ∀ n ∈ generateSet 0 base 2 0 4 (makeImmOp 2 x) scratch, Fitting n.operands :=
    fitting_generateSet (by decide) hspan
  have hshort := length_generateSet 0 base 2 4 0 (makeImmOp 2 x) scratch
  rw [hset] at hfit hshort ⊢
  apply not_does_of_stuck toNat_flat_lt hmove _ hfit hshort
  intro pos bs es hbs hes _
  have hw : writeInstr flat pos 0xC7 1 (.none 0) (digitOp 0)
      (makeMemOp 2 (reg64 i) noRegister 0 0 4) (.immediate 2 x) = bs := Option.some.inj hbs
  have hnil : [] = es := Option.some.inj hes
  subst hw hnil
  constructor
  · intro h
    have hlen := congrArg List.length h
    rw [length_writeInstr] at hlen
    simp [Operand.dispSize, makeMemOp] at hlen
  · rw [List.append_nil]
    unfold X86.step
    rw [show X86.decode _ = none from decode_mov_two pos i x]
    rfl

/-! ## The exact condition -/

section
variable {n a value : Expr} {name : String} {width : Nat}
  (hn : matchUndefinedBinaryInvoke n = some (name, a, value)) (hN : setWidth name = some width)
include hn hN

theorem not_storesExactly_of_constant (hb : Placed storeReserved (splitAddress a).1.bindingAug)
    (hm : matchBaseOffset a = none) (h2 : width = 2) {x : Word}
    (hval : value.literalValue = some x) : ¬ StoresExactly n a value width := by
  intro h
  subst h2
  rw [splitAddress_none hm] at hb
  have hinit := initialize_plain hn hN hm
  rw [hval] at hinit
  obtain ⟨s', hdoes, _⟩ := h flat 0 (fun _ => []) _ (uniform 0 0)
    (by rw [operandCode_nil]; exact Does.nil _)
  rw [intrinsicCode_constant hn hN 0 _ hval (fun h => by cases h) hinit, operandCode_nil] at hdoes
  exact not_does_set_two hb x _ _ _ hdoes

/-- A store is exact if and only if its offset is a signed byte and a value of two or four
bytes does not come from memory, or it has no offset and is not of a constant of two
bytes. -/
theorem storesExactly_iff (hb : Placed storeReserved (splitAddress a).1.bindingAug)
    (hv : initializeArithmeticIntrinsics n ≠ some .rightImm →
      Placed storeReserved value.bindingAug) :
    StoresExactly n a value width ↔ StoreSupported a value width := by
  refine ⟨fun h => ?_, storesExactly_of_supported hn hN hb hv⟩
  unfold StoreSupported
  cases hm : matchBaseOffset a with
  | none =>
    rw [splitAddress_none hm]
    intro hw
    obtain ⟨x, hx⟩ := Option.isSome_iff_exists.mp hw.2
    exact not_storesExactly_of_constant hn hN hb hm hw.1 hx h
  | some p =>
    obtain ⟨base, offset⟩ := p
    rw [splitAddress_some hm]
    have hpv := hv (by rw [initialize_offset hn hN hm]; decide)
    have ho : sbyte offset := by
      by_contra ho
      exact not_storesExactly_of_offset hn hN hb hpv hm ho h
    refine ⟨ho, ?_⟩
    by_contra hw
    have hmem : (locOf flat value.bindingAug).isMemory = true := by
      have hr := inRegister_iff flat value.bindingAug
      revert hr hw
      cases (locOf flat value.bindingAug).isMemory <;> simp_all
    have hwidth : width = 2 ∨ width = 4 := by
      rcases setWidth_cases hN with ⟨rfl, _⟩ | ⟨rfl, _⟩ | ⟨rfl, _⟩ | ⟨rfl, _⟩ <;> simp_all
    exact not_storesExactly_of_memory hn hN hb hpv hm ho hmem hwidth h

end

/-! ## Two stores -/

def placedIn (storage : Storage) : Bndg := ⟨"", .defined, .value, storage, wordSize, .nop, false⟩

/-- The invocation of an undefined symbol. -/
def undefinedCall (name : String) (arguments : List Expr) : Expr :=
  .invoke (.symbol ⟨name, .undefined, .reference, .absolute 0, 0, .nop, false⟩ (placedIn .nil))
    arguments (placedIn .nil)

def inRax : Expr := .other (placedIn (.register rax))

def inRcx : Expr := .other (placedIn (.register rcx))

def inFrame : Expr := .other (placedIn (.frameRelative (-24)))

/-- `[+ a 100]` with `a` in a register -/
def raxPlus100 : Expr := undefinedCall "+" [inRax, .literal 100 (placedIn .nil)]

/-- `[set8b [+ a 100] b]` with `b` in the frame is exact. -/
theorem storesExactly_offset_frame :
    StoresExactly (undefinedCall "set8b" [raxPlus100, inFrame]) raxPlus100 inFrame 8 := by
  have hrax : Placed storeReserved inRax.bindingAug := ⟨rfl, X86.rax, rfl, by decide⟩
  have hframe : Placed storeReserved inFrame.bindingAug := ⟨rfl, rfl, by decide⟩
  have hn : matchUndefinedBinaryInvoke (undefinedCall "set8b" [raxPlus100, inFrame]) =
      some ("set8b", raxPlus100, inFrame) := rfl
  have hsupported : StoreSupported raxPlus100 inFrame 8 := ⟨by decide, .inr (.inl rfl)⟩
  exact (storesExactly_iff hn rfl hrax (fun _ => hframe)).mpr hsupported

/-- `[set8b [+ a 200] b]` stores nothing. -/
theorem not_storesExactly_offset_200 :
    ¬ StoresExactly (undefinedCall "set8b"
      [undefinedCall "+" [inRax, .literal 200 (placedIn .nil)], inRcx])
      (undefinedCall "+" [inRax, .literal 200 (placedIn .nil)]) inRcx 8 := by
  have hrax : Placed storeReserved inRax.bindingAug := ⟨rfl, X86.rax, rfl, by decide⟩
  have hrcx : Placed storeReserved inRcx.bindingAug := ⟨rfl, X86.rcx, rfl, by decide⟩
  exact not_storesExactly_of_offset rfl rfl hrax hrcx rfl (by decide)

end L2.SelfHost
