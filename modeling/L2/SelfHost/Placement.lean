import L2.SelfHost.Execution
import L2.SelfHost.Generator

/-!
# Where bindings are

A placed binding is in a register that is not reserved, in the frame or in static memory,
and the operand made of it names that place.  Frames and static memory are small enough
for displacements of 32 bits: the compiler keeps all it works on in the low 2 GB.
-/

namespace L2.SelfHost

open X86 (Word Reg State low load store merge signed)

/-- The register of 8 bytes that a number with its flags stands for. -/
def regNumber (reg : Register) : Reg := Fin.ofNat 16 (reg &&& 15)

/-- The place of a binding at run time. -/
def locOf (address : Bndg → Word) (bndg : Bndg) : Loc :=
  match bndg.storage with
  | .register reg => .reg (regNumber reg)
  | .frameRelative offset => .mem X86.rbp offset
  | .absolute _ => .fixed (address bndg)
  | .nil => .fixed 0

def Placed (reserved : List Reg) (bndg : Bndg) : Prop :=
  bndg.size = wordSize ∧
  match bndg.storage with
  | .register reg => ∃ i : Reg, reg = reg64 i ∧ i ∉ reserved
  | .frameRelative offset => bndg.state = .defined ∧ signed 4 offset = offset
  | .absolute _ => True
  | .nil => False

variable (address : Bndg → Word) (raw : Nat) {reserved : List Reg} {bndg : Bndg}

theorem regNumber_reg64 : ∀ i : Reg, regNumber (reg64 i) = i := by decide

theorem regLower_reg64 : ∀ n ∈ sizes, ∀ i : Reg, regLower n (reg64 i) = regN n i := by decide

theorem makeRegOp_regN {n : Nat} (hn : n ∈ sizes) (i : Reg) :
    makeRegOp (regN n i) = .register n (regN n i) := by
  unfold makeRegOp
  rw [(regN_fields n hn i).2.2.2]

theorem Placed.names (h : Placed reserved bndg) {n : Nat} (hn : n ∈ sizes) :
    Names address n (bndgToPartialOp raw n bndg) (locOf address bndg) := by
  obtain ⟨_, hp⟩ := h
  unfold bndgToPartialOp locOf
  cases hs : bndg.storage with
  | nil =>
    rw [hs] at hp
    exact hp.elim
  | register reg =>
    rw [hs] at hp
    obtain ⟨i, rfl, _⟩ := hp
    show Names address n (makeRegOp (regLower n (reg64 i))) (.reg (regNumber (reg64 i)))
    rw [regLower_reg64 n hn, makeRegOp_regN hn, regNumber_reg64]
    exact .reg i
  | frameRelative offset =>
    rw [hs] at hp
    obtain ⟨hd, ho⟩ := hp
    show Names address n
      (if bndg.state = .defined then makeMemOp n rbp noRegister 0 offset 4 else _)
      (.mem X86.rbp offset)
    rw [if_pos hd]
    conv => rhs; rw [← ho]
    exact .mem X86.rbp offset 4 (.inr rfl)
  | absolute offset => exact .static bndg offset hs

theorem Placed.names_word (h : Placed reserved bndg) :
    Names address 8 (bndgToOp raw bndg) (locOf address bndg) := by
  unfold bndgToOp
  rw [h.1]
  exact h.names address raw (by decide)

/-- The place does not depend on a register that is reserved. -/
theorem Placed.read_congr (h : Placed reserved bndg) {changed : List Reg} (hbp : X86.rbp ∉ changed)
    (hsub : ∀ q ∈ changed, q ∈ reserved) {s s' : State} (hm : s'.mem = s.mem)
    (hr : ∀ q ∉ changed, s'.regs q = s.regs q) (n : Nat) :
    (locOf address bndg).read s' n = (locOf address bndg).read s n := by
  obtain ⟨_, hp⟩ := h
  unfold locOf
  cases hs : bndg.storage with
  | nil =>
    rw [hs] at hp
    exact hp.elim
  | register reg =>
    rw [hs] at hp
    obtain ⟨i, rfl, hi⟩ := hp
    show low n (s'.regs _) = low n (s.regs _)
    rw [regNumber_reg64, hr i fun h => hi (hsub i h)]
  | frameRelative offset =>
    show load s'.mem (s'.regs X86.rbp + offset) n = load s.mem (s.regs X86.rbp + offset) n
    rw [hm, hr _ hbp]
  | absolute offset =>
    show load s'.mem _ n = load s.mem _ n
    rw [hm]
    rfl

/-- A shorter read of a place is the low part of the whole. -/
theorem Loc.low_read {n : Nat} (hn : n ≤ 8) (s : State) (l : Loc) :
    low n (l.read s 8) = l.read s n := by
  cases l with
  | reg r => exact X86.low_low hn _
  | mem base disp => exact X86.low_load hn _ _
  | fixed a => exact X86.low_load hn _ _

end L2.SelfHost
