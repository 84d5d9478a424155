import L2.SelfHost.Places
import L2.SelfHost.Uniqueness

/-!
# Layouts

Bindings are laid out in a state when those with the same storage are in the same place and
the others do not share a byte.  There is a state for every layout in which the bindings have
any values that agree where the storage does.
-/

namespace L2.SelfHost

open X86 (Word Reg State low load store signed)

/-! ## Places of bindings -/

/-- The registers of the stack: no operand is in one of them. -/
def stackRegisters : List Reg := [X86.rsp, X86.rbp]

variable {address : Bndg → Word} {s : State}

theorem Placed.usable {b : Bndg} (h : Placed stackRegisters b) : (locOf address b).Usable := by
  have hp := h.2
  unfold locOf
  cases hs : b.storage with
  | nil =>
    rw [hs] at hp
    exact hp.elim
  | register reg =>
    rw [hs] at hp
    obtain ⟨i, rfl, hi⟩ := hp
    show regNumber (reg64 i) ≠ X86.rsp ∧ regNumber (reg64 i) ≠ X86.rbp
    rw [regNumber_reg64]
    simpa [stackRegisters] using hi
  | frameRelative offset => rfl
  | absolute offset => trivial

theorem Placed.eq_reg_iff {reserved : List Reg} {b : Bndg} (h : Placed reserved b) (r : Reg) :
    locOf address b = .reg r ↔ b.storage = .register (reg64 r) := by
  have hp := h.2
  unfold locOf
  cases hs : b.storage with
  | nil =>
    rw [hs] at hp
    exact hp.elim
  | register reg =>
    rw [hs] at hp
    obtain ⟨i, rfl, _⟩ := hp
    show Loc.reg (regNumber (reg64 i)) = .reg r ↔ _
    rw [regNumber_reg64]
    constructor
    · intro h
      rw [Loc.reg.inj h]
    · intro h
      have hi := congrArg regNumber (Storage.register.inj h)
      rw [regNumber_reg64, regNumber_reg64] at hi
      rw [hi]
  | frameRelative offset => simp
  | absolute offset => simp

/-- Bindings with the same storage are in the same place, and others do not share a byte. -/
def Laid (address : Bndg → Word) (s : State) (bs : List Bndg) : Prop :=
  ∀ b ∈ bs, ∀ b' ∈ bs, if b'.storage = b.storage then locOf address b' = locOf address b
    else Apart s (locOf address b) (locOf address b')

section
variable {bs : List Bndg} (h : Laid address s bs) {b b' : Bndg} (hb : b ∈ bs) (hb' : b' ∈ bs)
include h hb hb'

theorem Laid.eq_iff : locOf address b' = locOf address b ↔ b'.storage = b.storage := by
  have hpair := h b hb b' hb'
  by_cases hs : b'.storage = b.storage
  · rw [if_pos hs] at hpair
    exact ⟨fun _ => hs, fun _ => hpair⟩
  · rw [if_neg hs] at hpair
    exact ⟨fun heq => absurd heq.symm hpair.ne, fun heq => absurd heq hs⟩

theorem Laid.eq_or_apart : locOf address b' = locOf address b ∨
    Apart s (locOf address b) (locOf address b') := by
  have hpair := h b hb b' hb'
  by_cases hs : b'.storage = b.storage
  · rw [if_pos hs] at hpair
    exact .inl hpair
  · rw [if_neg hs] at hpair
    exact .inr hpair

end

theorem reg_eq_or_apart (l : Loc) (r : Reg) : Loc.reg r = l ∨ Apart s l (.reg r) := by
  by_cases h : l = .reg r
  · exact .inl h.symm
  · exact .inr (apart_reg h).symm

theorem usable_reg {r : Reg} (h : r ∉ stackRegisters) : (Loc.reg r).Usable := by
  have hne : r ≠ X86.rsp ∧ r ≠ X86.rbp := by simpa [stackRegisters] using h
  exact hne

/-- The value of a binding. -/
def valueAt (address : Bndg → Word) (s : State) (b : Bndg) : Word := (locOf address b).read s 8

def Bndg.isIn (b : Bndg) (used : List Reg) : Bool :=
  used.any fun r => b.storage = .register (reg64 r)

theorem isIn_iff {b : Bndg} (hb : Placed stackRegisters b) (used : List Reg) :
    locOf address b ∈ used.map Loc.reg ↔ b.isIn used = true := by
  unfold Bndg.isIn
  rw [List.any_eq_true, List.mem_map]
  constructor
  · rintro ⟨r, hr, heq⟩
    exact ⟨r, hr, decide_eq_true ((hb.eq_reg_iff r).mp heq.symm)⟩
  · rintro ⟨r, hr, heq⟩
    exact ⟨r, hr, ((hb.eq_reg_iff r).mpr (of_decide_eq_true heq)).symm⟩

/-- What a binding holds after another one has been set. -/
theorem Sets.valueAt {bs : List Bndg} (hl : Laid address s bs) {dst b : Bndg} (hdst : dst ∈ bs)
    (hb : b ∈ bs) (hp : Placed stackRegisters b) {used : List Reg} {w v : Word} {s' : State}
    (h : Sets used w (locOf address dst) v s s') : valueAt address s' b =
      if b.storage = dst.storage then v else if b.isIn used then w else valueAt address s b := by
  have hread := h.read hp.usable (hl.eq_or_apart hdst hb)
  simp only [hl.eq_iff hdst hb, isIn_iff hp] at hread
  exact hread

theorem Laid.congr {bs : List Bndg} (h : Laid address s bs)
    (hp : ∀ b ∈ bs, Placed stackRegisters b) {s' : State}
    (hbp : s'.regs X86.rbp = s.regs X86.rbp) : Laid address s' bs := by
  intro b hb b' hb'
  have hpair := h b hb b' hb'
  by_cases hs : b'.storage = b.storage
  · rw [if_pos hs] at hpair ⊢
    exact hpair
  · rw [if_neg hs] at hpair ⊢
    exact hpair.congr (hp b hb).usable (hp b' hb').usable hbp

/-! ## States for all values -/

/-- Words of the frame are aligned. -/
def Bndg.Aligned (b : Bndg) : Prop :=
  ∀ offset, b.storage = .frameRelative offset → offset.toNat % 8 = 0

theorem wordsApart_of_lt {a b : Word} (h : a.toNat + 8 ≤ b.toNat)
    (h' : b.toNat ≤ a.toNat + (2 ^ 64 - 8)) : WordsApart a b := by
  unfold WordsApart
  rw [BitVec.toNat_sub, BitVec.toNat_sub]
  omega

/-- A frame far above static memory. -/
def farFrame : State where
  regs r := if r = X86.rbp then 2 ^ 40 else 0
  mem _ := 0
  zf := false
  cf := false

/-- Where a word of the frame is. -/
theorem toNat_farFrame {offset : Word} (h : signed 4 offset = offset) :
    2 ^ 39 ≤ ((2 ^ 40 : Word) + offset).toNat ∧ ((2 ^ 40 : Word) + offset).toNat < 2 ^ 41 ∧
      (((2 ^ 40 : Word) + offset).toNat + (2 ^ 64 - 2 ^ 40)) % 2 ^ 64 = offset.toNat := by
  have hrange := (signed_four_iff offset).mp h
  have hbase : ((2 ^ 40 : Word)).toNat = 2 ^ 40 := by decide
  rw [BitVec.toNat_add, hbase]
  have hlt := offset.isLt
  omega

/-- Static bindings with the storages in a list are 64 bytes from each other. -/
def spread (bs : List Bndg) (b : Bndg) : Word :=
  BitVec.ofNat 64 (2 ^ 20 + 64 * (bs.map Bndg.storage).idxOf b.storage)

section
variable {bs : List Bndg} (hlen : bs.length < 2 ^ 20)
include hlen

theorem toNat_spread (b : Bndg) :
    (spread bs b).toNat = 2 ^ 20 + 64 * (bs.map Bndg.storage).idxOf b.storage ∧
      (bs.map Bndg.storage).idxOf b.storage < 2 ^ 20 := by
  have hidx : (bs.map Bndg.storage).idxOf b.storage ≤ bs.length := by
    have hle := List.idxOf_le_length (a := b.storage) (l := bs.map Bndg.storage)
    rwa [List.length_map] at hle
  unfold spread
  rw [BitVec.toNat_ofNat]
  omega

theorem low_spread : Low (spread bs) := by
  intro b
  obtain ⟨hnat, hlt⟩ := toNat_spread hlen b
  omega

theorem apart_spread {b b' : Bndg} (hb : Placed stackRegisters b) (hb' : Placed stackRegisters b')
    (ha : b.Aligned) (ha' : b'.Aligned) (hin : b.storage ∈ bs.map Bndg.storage)
    (hs : b'.storage ≠ b.storage) :
    Apart farFrame (locOf (spread bs) b) (locOf (spread bs) b') := by
  have hp := hb.2
  have hp' := hb'.2
  obtain ⟨hspread, hlt⟩ := toNat_spread hlen b
  obtain ⟨hspread', hlt'⟩ := toNat_spread hlen b'
  unfold Bndg.Aligned at ha ha'
  have hidx : (bs.map Bndg.storage).idxOf b'.storage ≠ (bs.map Bndg.storage).idxOf b.storage := by
    intro heq
    exact hs ((List.idxOf_inj hin).mp heq.symm).symm
  unfold locOf
  cases h : b.storage with
  | nil =>
    rw [h] at hp
    exact hp.elim
  | register r =>
    cases h' : b'.storage with
    | nil =>
      rw [h'] at hp'
      exact hp'.elim
    | register r' =>
      rw [h] at hp hs
      rw [h'] at hp' hs
      obtain ⟨i, rfl, _⟩ := hp
      obtain ⟨j, rfl, _⟩ := hp'
      show regNumber (reg64 i) ≠ regNumber (reg64 j)
      rw [regNumber_reg64, regNumber_reg64]
      rintro rfl
      exact hs rfl
    | frameRelative y => trivial
    | absolute y => trivial
  | frameRelative x =>
    rw [h] at hp hs
    obtain ⟨hx, hx', hoff⟩ := toNat_farFrame hp.2
    have hxa := ha x h
    cases h' : b'.storage with
    | nil =>
      rw [h'] at hp'
      exact hp'.elim
    | register r' => trivial
    | frameRelative y =>
      rw [h'] at hp' hs
      obtain ⟨hy, hy', hoff'⟩ := toNat_farFrame hp'.2
      have hya := ha' y h'
      have hne : x.toNat ≠ y.toNat := by
        intro heq
        exact hs (congrArg Storage.frameRelative (BitVec.eq_of_toNat_eq heq.symm))
      show WordsApart ((2 ^ 40 : Word) + x) ((2 ^ 40 : Word) + y)
      generalize (2 ^ 40 : Word) + x = a at hx hx' hoff
      generalize (2 ^ 40 : Word) + y = c at hy hy' hoff'
      rcases Nat.lt_or_ge a.toNat c.toNat with hlt | hge
      · exact wordsApart_of_lt (by omega) (by omega)
      · exact (wordsApart_of_lt (by omega) (by omega)).symm
    | absolute y =>
      show WordsApart ((2 ^ 40 : Word) + x) (spread bs b')
      exact (wordsApart_of_lt (by omega) (by omega)).symm
  | absolute x =>
    cases h' : b'.storage with
    | nil =>
      rw [h'] at hp'
      exact hp'.elim
    | register r' => trivial
    | frameRelative y =>
      rw [h'] at hp'
      obtain ⟨hy, hy', _⟩ := toNat_farFrame hp'.2
      show WordsApart (spread bs b) ((2 ^ 40 : Word) + y)
      exact wordsApart_of_lt (by omega) (by omega)
    | absolute y =>
      show WordsApart (spread bs b) (spread bs b')
      rcases Nat.lt_or_ge (spread bs b).toNat (spread bs b').toNat with hlt | hge
      · exact wordsApart_of_lt (by omega) (by omega)
      · exact (wordsApart_of_lt (by omega) (by omega)).symm

theorem laid_spread (hp : ∀ b ∈ bs, Placed stackRegisters b) (ha : ∀ b ∈ bs, b.Aligned) :
    Laid (spread bs) farFrame bs := by
  intro b hb b' hb'
  by_cases hs : b'.storage = b.storage
  · rw [if_pos hs]
    have hspread : spread bs b' = spread bs b := by
      unfold spread
      rw [hs]
    unfold locOf
    rw [hs, hspread]
  · rw [if_neg hs]
    exact apart_spread hlen (hp b hb) (hp b' hb') (ha b hb) (ha b' hb')
      (List.mem_map_of_mem hb) hs

end

/-- The bindings of a list are given values, one after the other. -/
def setAll (address : Bndg → Word) (f : Bndg → Word) (bs : List Bndg) (s : State) : State :=
  bs.foldl (fun s b => (locOf address b).write s 8 (f b)) s

/-- Values that agree where the storage does. -/
def Consistent (bs : List Bndg) (f : Bndg → Word) : Prop :=
  ∀ b ∈ bs, ∀ b' ∈ bs, b'.storage = b.storage → f b' = f b

/-- The part of the list that is still to be set comes first; the induction is on it. -/
theorem valueAt_setAll {bs : List Bndg} (hp : ∀ b ∈ bs, Placed stackRegisters b) {f : Bndg → Word}
    (hf : Consistent bs f) (cs : List Bndg) (hcs : ∀ c ∈ cs, c ∈ bs) (s : State)
    (hl : Laid address s bs) :
    Laid address (setAll address f cs s) bs ∧
      ∀ b ∈ bs, b ∈ cs ∨ valueAt address s b = f b →
        valueAt address (setAll address f cs s) b = f b := by
  induction cs generalizing s with
  | nil => exact ⟨hl, fun b _ h => h.resolve_left List.not_mem_nil⟩
  | cons c cs ih =>
    have hc := hcs c List.mem_cons_self
    have hu : (locOf address c).Usable := (hp c hc).usable
    have hsets : Sets [] 0 (locOf address c) (f c) s ((locOf address c).write s 8 (f c)) :=
      sets_write hu 0 (f c) s
    have hl' : Laid address ((locOf address c).write s 8 (f c)) bs := hl.congr hp hsets.base
    obtain ⟨hlaid, hvalue⟩ := ih (fun e he => hcs e (List.mem_cons_of_mem c he)) _ hl'
    refine ⟨hlaid, fun b hb h => hvalue b hb ?_⟩
    by_cases hin : b ∈ cs
    · exact .inl hin
    · right
      rw [hsets.valueAt hl hc hb (hp b hb)]
      by_cases hs : b.storage = c.storage
      · rw [if_pos hs]
        exact (hf c hc b hb hs).symm
      · rw [if_neg hs]
        rcases h with h | h
        · rcases List.mem_cons.mp h with rfl | h
          · exact absurd rfl hs
          · exact absurd h hin
        · exact h

/-- Every consistent choice of values is that of some state with a layout of the bindings. -/
theorem exists_laid {bs : List Bndg} (hlen : bs.length < 2 ^ 20)
    (hp : ∀ b ∈ bs, Placed stackRegisters b) (ha : ∀ b ∈ bs, b.Aligned) {f : Bndg → Word}
    (hf : Consistent bs f) :
    ∃ address s, Low address ∧ Laid address s bs ∧ ∀ b ∈ bs, valueAt address s b = f b := by
  obtain ⟨hlaid, hvalue⟩ :=
    valueAt_setAll hp hf bs (fun _ h => h) farFrame (laid_spread hlen hp ha)
  exact ⟨spread bs, _, low_spread hlen, hlaid, fun b hb => hvalue b hb (.inl hb)⟩

end L2.SelfHost
