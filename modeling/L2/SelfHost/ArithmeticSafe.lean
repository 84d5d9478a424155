import L2.SelfHost.ArithmeticResults

/-!
# Which places of operands are safe

The code of an arithmetic intrinsic leaves what the routine of the runtime returns for all
values of its operands if and only if its places do not overlap in one of a few ways.  For
each of these ways there are values that show it.
-/

namespace L2.SelfHost

open X86 (Word Reg State Alu Cond low signed)

variable {address : Bndg → Word} {raw : Nat} {s : State}

/-! ## Where the operands may be -/

/-- The binding is overwritten when the result is cleared. -/
def Bndg.clearedBy (b dst : Bndg) : Bool := b.storage = dst.storage ∨ b.isIn (scratch dst dst)

/-- The places for which the general form of an operation is right. -/
def Operation.Safe (dst a b : Bndg) : Operation → Prop
  | accumulate _ _ => dst.storage = a.storage ∨
    b.storage ≠ dst.storage ∧ ¬ b.isIn (scratch dst a)
  | multiply => b.storage = .register rax → a.storage = .register rax
  | divide | rem => a.storage ≠ .register rdx ∧ b.storage ≠ .register rdx ∧
    (b.storage = .register rax → a.storage = .register rax)
  | compare _ => dst.isCondition ∨
    (a.storage = b.storage ∨ ¬ a.clearedBy dst ∧ ¬ b.clearedBy dst) ∧ ¬ dst.isIn (scratch a b)
  | shift _ => a.storage = b.storage ∨
    a.storage ≠ .register rcx ∧ dst.storage ≠ .register rcx
  | bnot => True

/-- The places for which the form with the constant `v` is right. -/
def Operation.SafeConstant (dst a : Bndg) (v : Word) : Operation → Prop
  | compare c => dst.isCondition ∨ ¬ a.clearedBy dst ∨ (c = .lesserthan ∧ v = 0) ∨
    (c = .greaterthan ∧ v = BitVec.allOnes 64)
  | _ => True

theorem isIn_scratch {dst a b : Bndg} (h : b.isIn (scratch dst a)) :
    b.storage = .register r11 ∧ dst.inRegister = false ∧ a.inRegister = false := by
  unfold scratch Bndg.isIn at h
  cases hd : dst.inRegister <;> cases ha : a.inRegister <;> simp [hd, ha] at h
  exact ⟨h, rfl, rfl⟩

theorem clearedValue_of_not {dst b : Bndg} (h : ¬ b.clearedBy dst) (z v : Word) :
    clearedValue dst b z v = v := by
  unfold Bndg.clearedBy at h
  unfold clearedValue
  simp only [decide_eq_true_eq, not_or] at h
  rw [if_neg h.1, if_neg h.2]

theorem Comparison.holds_same (c : Comparison) (v w : Word) : c.holds v v = c.holds w w := by
  cases c <;> simp [Comparison.holds]

theorem clearedValue_congr {a b : Bndg} (h : b.storage = a.storage) (dst : Bndg) (z v : Word) :
    clearedValue dst b z v = clearedValue dst a z v := by
  unfold clearedValue Bndg.isIn
  rw [h]

section
variable {dst a b : Bndg} {z x y v : Word} (hab : b.storage = a.storage → y = x)
include hab

theorem division_of_safe (ha : a.storage ≠ .register rdx) (hb : b.storage ≠ .register rdx)
    (hax : b.storage = .register rax → a.storage = .register rax) :
    dividend a x = x ∧ divisor a b x y = y := by
  have hx : dividend a x = x := if_neg ha
  refine ⟨hx, ?_⟩
  unfold divisor
  by_cases h : b.storage = .register rax
  · rw [if_pos h, hx, hab (h.trans (hax h).symm)]
  · rw [if_neg h, if_neg hb]

/-- In safe places the code leaves the value. -/
theorem outcome_of_safe {op : Operation} (hs : op.Safe dst a b) (hv : op.value x y = some v) :
    op.outcome dst a b z x y = some v := by
  cases op with
  | accumulate alu halu =>
    rw [← hv]
    show some (alu.eval x (if _ then _ else _)) = some (alu.eval x y)
    by_cases hover : b.storage = dst.storage ∨ b.isIn (moveScratch dst a)
    · rw [if_pos hover]
      have hsame : dst.storage = a.storage := by
        rcases hs with hsame | ⟨hb, hin⟩
        · exact hsame
        · by_contra hne
          unfold moveScratch at hover
          rw [if_neg hne] at hover
          exact hover.elim hb hin
      have hb : b.storage = a.storage := by
        rcases hover with hb | hin
        · exact hb.trans hsame
        · unfold moveScratch at hin
          rw [if_pos hsame] at hin
          exact absurd hin Bool.false_ne_true
      rw [hab hb]
    · rw [if_neg hover]
  | multiply =>
    rw [← hv]
    show some (x * if _ then _ else _) = some (x * y)
    by_cases hb : b.storage = .register rax
    · rw [if_pos hb, hab (hb.trans (hs hb).symm)]
    · rw [if_neg hb]
  | divide =>
    obtain ⟨hx, hy⟩ := division_of_safe hab hs.1 hs.2.1 hs.2.2
    show (if divisor a b x y = 0 then none else some (dividend a x / divisor a b x y)) = _
    rw [hx, hy]
    exact hv
  | rem =>
    obtain ⟨hx, hy⟩ := division_of_safe hab hs.1 hs.2.1 hs.2.2
    show (if divisor a b x y = 0 then none else some (dividend a x % divisor a b x y)) = _
    rw [hx, hy]
    exact hv
  | compare c =>
    rw [← hv]
    show (if dst.isCondition then some (truth (c.holds x y)) else _) = some (truth (c.holds x y))
    cases hc : dst.isCondition with
    | true => rfl
    | false =>
      obtain ⟨hplaces, hin⟩ := hs.resolve_left (by simp [hc])
      rw [if_neg Bool.false_ne_true, if_neg hin, merge_byte]
      rcases hplaces with hsame | ⟨ha, hb⟩
      · rw [clearedValue_congr hsame.symm, hab hsame.symm, c.holds_same _ x]
      · rw [clearedValue_of_not ha, clearedValue_of_not hb]
  | shift left =>
    rw [← hv]
    show some (shifted left (if a.storage = .register rcx then y else x)
      ((if dst.storage = .register rcx then (if a.storage = .register rcx then y else x)
        else y).toNat % 64)) = some (shifted left x (y.toNat % 64))
    rcases hs with hsame | ⟨ha, hd⟩
    · rw [hab hsame.symm]
      simp
    · rw [if_neg ha, if_neg hd]
  | bnot => exact hv

end

/-! ## Values that show it -/

/-- The value `x` where `a` is, `y` where `b` is and 0 elsewhere. -/
def pick (a b : Bndg) (x y : Word) (e : Bndg) : Word :=
  if e.storage = a.storage then x else if e.storage = b.storage then y else 0

theorem consistent_pick (bs : List Bndg) (a b : Bndg) (x y : Word) :
    Consistent bs (pick a b x y) := by
  intro e _ e' _ h
  unfold pick
  rw [h]

theorem pick_first (a b : Bndg) (x y : Word) : pick a b x y a = x := if_pos rfl

theorem pick_second {a b : Bndg} (h : b.storage ≠ a.storage) (x y : Word) :
    pick a b x y b = y := by
  unfold pick
  rw [if_neg h, if_pos rfl]

theorem pick_same {a b e : Bndg} (h : e.storage = a.storage) (x y : Word) :
    pick a b x y e = x := if_pos h

theorem pick_other {a b e : Bndg} (ha : e.storage ≠ a.storage) (hb : e.storage ≠ b.storage)
    (x y : Word) : pick a b x y e = 0 := by
  unfold pick
  rw [if_neg ha, if_neg hb]

/-- The comparisons of 0 and 1 with an operand replaced are not those without. -/
theorem Comparison.differs (c : Comparison) :
    (∃ x y : Word, c.holds 0 y ≠ c.holds x y) ∧ (∃ x y : Word, c.holds x 0 ≠ c.holds x y) ∧
      (∃ x y : Word, c.holds 0 x ≠ c.holds x y) ∧ ∃ x y : Word, c.holds y 0 ≠ c.holds x y := by
  cases c with
  | equals => exact ⟨⟨1, 0, by decide⟩, ⟨0, 1, by decide⟩, ⟨0, 1, by decide⟩, 1, 0, by decide⟩
  | lesserthan => exact ⟨⟨1, 1, by decide⟩, ⟨0, 1, by decide⟩, ⟨1, 0, by decide⟩, 0, 1, by decide⟩
  | greaterthan => exact ⟨⟨1, 0, by decide⟩, ⟨1, 1, by decide⟩, ⟨1, 0, by decide⟩, 0, 1, by decide⟩

theorem truth_inj {b c : Bool} (h : truth b = truth c) : b = c := by
  revert h
  cases b <;> cases c <;> decide

section
variable {dst a b : Bndg}

/-- The comparison has other operands than it should. -/
theorem exists_cleared (c : Comparison) (hab : a.storage ≠ b.storage)
    (h : a.clearedBy dst ∨ b.clearedBy dst) :
    ∃ x y, c.holds (clearedValue dst a (pick a b x y dst) x)
      (clearedValue dst b (pick a b x y dst) y) ≠ c.holds x y := by
  obtain ⟨⟨x₁, y₁, h₁⟩, ⟨x₂, y₂, h₂⟩, ⟨x₃, y₃, h₃⟩, x₄, y₄, h₄⟩ := c.differs
  have hout : ∀ e : Bndg, ¬ e.storage = dst.storage → ¬ e.isIn (scratch dst dst) →
      ∀ z v, clearedValue dst e z v = v :=
    fun e hs hi => clearedValue_of_not (by simp [Bndg.clearedBy, hs, hi])
  have hscratch : ∀ e : Bndg, ¬ e.storage = dst.storage → e.isIn (scratch dst dst) →
      ∀ z v, clearedValue dst e z v = z := by
    intro e hs hi z v
    unfold clearedValue
    rw [if_neg hs, if_pos hi]
  have hself : ∀ e : Bndg, e.storage = dst.storage → ∀ z v, clearedValue dst e z v = 0 :=
    fun e hs _ _ => if_pos hs
  by_cases had : a.storage = dst.storage
  · have hbd : ¬ b.storage = dst.storage := fun h => hab (had.trans h.symm)
    by_cases hb : b.isIn (scratch dst dst)
    · refine ⟨x₃, y₃, ?_⟩
      rw [hself a had, hscratch b hbd hb, pick_same had.symm]
      exact h₃
    · refine ⟨x₁, y₁, ?_⟩
      rw [hself a had, hout b hbd hb]
      exact h₁
  · have hda : dst.storage ≠ a.storage := fun h => had h.symm
    by_cases hbd : b.storage = dst.storage
    · by_cases ha : a.isIn (scratch dst dst)
      · refine ⟨x₄, y₄, ?_⟩
        have hpick : pick a b x₄ y₄ dst = y₄ := by
          unfold pick
          rw [if_neg hda, if_pos hbd.symm]
        rw [hscratch a had ha, hself b hbd, hpick]
        exact h₄
      · refine ⟨x₂, y₂, ?_⟩
        rw [hout a had ha, hself b hbd]
        exact h₂
    · have hother : ∀ x y, pick a b x y dst = 0 :=
        fun x y => pick_other hda (fun h => hbd h.symm) x y
      by_cases ha : a.isIn (scratch dst dst)
      · have hb : ¬ b.isIn (scratch dst dst) :=
          fun hb => hab ((isIn_scratch ha).1.trans (isIn_scratch hb).1.symm)
        refine ⟨x₁, y₁, ?_⟩
        rw [hscratch a had ha, hout b hbd hb, hother]
        exact h₁
      · have hb : b.isIn (scratch dst dst) := by
          simpa [Bndg.clearedBy, had, hbd, ha] using h
        refine ⟨x₂, y₂, ?_⟩
        rw [hout a had ha, hscratch b hbd hb, hother]
        exact h₂

theorem inRegister_of_register {b : Bndg} {r : Register} (h : b.storage = .register r) :
    b.inRegister = true := by
  unfold Bndg.inRegister
  rw [h]

theorem inRegister_congr {a b : Bndg} (h : b.storage = a.storage) :
    b.inRegister = a.inRegister := by
  unfold Bndg.inRegister
  rw [h]

/-- A binding that is overwritten by the register between two others is neither of them. -/
theorem ne_of_isIn {dst a b : Bndg} (h : b.isIn (scratch dst a)) :
    b.storage ≠ dst.storage ∧ b.storage ≠ a.storage := by
  obtain ⟨hb, hd, ha⟩ := isIn_scratch h
  have hreg := inRegister_of_register hb
  constructor
  · intro hs
    rw [inRegister_congr hs, hd] at hreg
    cases hreg
  · intro hs
    rw [inRegister_congr hs, ha] at hreg
    cases hreg

theorem eval_one (alu : Alu) : alu.eval 1 1 ≠ alu.eval 1 2 := by
  cases alu <;> decide

theorem merge_wide (s t : Bool) : X86.merge 1 256 (truth s) ≠ truth t := by
  cases s <;> cases t <;> decide

/-- Quotients and remainders are told apart by the operands 5, 2 and 0. -/
theorem safe_division {g : Word → Word → Word} (hg : g 0 2 ≠ g 5 2 ∧ g 5 5 ≠ g 5 2)
    (h : ∀ f, Consistent [dst, a, b] f → f b ≠ 0 →
      (if divisor a b (f a) (f b) = 0 then none
        else some (g (dividend a (f a)) (divisor a b (f a) (f b)))) = some (g (f a) (f b))) :
    a.storage ≠ .register rdx ∧ b.storage ≠ .register rdx ∧
      (b.storage = .register rax → a.storage = .register rax) := by
  have hpick : b.storage ≠ a.storage → (if divisor a b 5 2 = 0 then none
      else some (g (dividend a 5) (divisor a b 5 2))) = some (g 5 2) := by
    intro hne
    have hf := h (pick a b 5 2) (consistent_pick _ a b 5 2)
    rw [pick_first, pick_second hne] at hf
    exact hf (by decide)
  have hrax : Storage.register rdx ≠ .register rax := by decide
  have hb : b.storage ≠ .register rdx := by
    intro hb
    have hzero : divisor a b 2 2 = 0 := by
      unfold divisor
      rw [if_neg (by rw [hb]; exact hrax), if_pos hb]
    have hv := h (fun _ => 2) (fun _ _ _ _ _ => rfl) (by decide)
    rw [if_pos hzero] at hv
    cases hv
  have ha : a.storage ≠ .register rdx := by
    intro ha
    have hv := hpick fun hba => hb (hba.trans ha)
    have hzero : dividend a 5 = 0 := if_pos ha
    unfold divisor at hv
    rw [hzero, if_neg hb] at hv
    by_cases hax : b.storage = .register rax
    · rw [if_pos hax, if_pos rfl] at hv
      cases hv
    · rw [if_neg hax, if_neg (by decide)] at hv
      exact hg.1 (Option.some.inj hv)
  refine ⟨ha, hb, ?_⟩
  intro hax
  by_contra hne
  have hv := hpick fun hba => hne (hba.symm.trans hax)
  have hfive : dividend a 5 = 5 := if_neg ha
  unfold divisor at hv
  rw [if_pos hax, hfive, if_neg (by decide)] at hv
  exact hg.2 (Option.some.inj hv)

/-- Where the code leaves the value whatever the operands are, the places are safe. -/
theorem safe_of_outcome {op : Operation} (h : ∀ f, Consistent [dst, a, b] f → ∀ v,
    op.value (f a) (f b) = some v → op.outcome dst a b (f dst) (f a) (f b) = some v) :
    op.Safe dst a b := by
  have hpick : b.storage ≠ a.storage → ∀ x y v, op.value x y = some v →
      op.outcome dst a b (pick a b x y dst) x y = some v := by
    intro hne x y v hv
    have hf := h (pick a b x y) (consistent_pick _ a b x y) v
    rw [pick_first, pick_second hne] at hf
    exact hf hv
  cases op with
  | accumulate alu halu =>
    by_contra hs
    have hd : dst.storage ≠ a.storage := fun hd => hs (.inl hd)
    have hover : b.storage = dst.storage ∨ b.isIn (scratch dst a) := by
      by_contra hno
      exact hs (.inr ⟨fun hb => hno (.inl hb), fun hi => hno (.inr hi)⟩)
    have hne : b.storage ≠ a.storage := by
      rcases hover with hb | hi
      · exact fun hba => hd (hb.symm.trans hba)
      · exact (ne_of_isIn hi).2
    have hv : some (alu.eval 1 (if _ then _ else _)) = some (alu.eval 1 2) := hpick hne 1 2 _ rfl
    unfold moveScratch at hv
    rw [if_neg hd, if_pos hover] at hv
    exact eval_one alu (Option.some.inj hv)
  | multiply =>
    intro hb
    by_contra ha
    have hne : b.storage ≠ a.storage := fun hba => ha (hba.symm.trans hb)
    have hv : some ((5 : Word) * if _ then _ else _) = some (5 * 2) := hpick hne 5 2 _ rfl
    rw [if_pos hb] at hv
    exact absurd (Option.some.inj hv) (by decide)
  | divide =>
    apply safe_division (g := fun x y => x / y) (by decide)
    intro f hf hne
    exact h f hf _ (if_neg hne)
  | rem =>
    apply safe_division (g := fun x y => x % y) (by decide)
    intro f hf hne
    exact h f hf _ (if_neg hne)
  | compare c =>
    by_contra hs
    have hcond : ¬ dst.isCondition = true := fun hc => hs (.inl hc)
    by_cases hin : dst.isIn (scratch a b)
    · have hv := h (fun _ => 256) (fun _ _ _ _ _ => rfl) _ rfl
      have hv : (if dst.isCondition then _ else some (X86.merge 1
        (if dst.isIn (scratch a b) then clearedValue dst b 256 256 else 0) _)) = _ := hv
      have hreg := inRegister_of_register (isIn_scratch hin).1
      have hnot : ¬ b.clearedBy dst := by
        have hscratch : scratch dst dst = [] := by simp [scratch, hreg]
        have hb := (ne_of_isIn hin).2
        simp [Bndg.clearedBy, hscratch, Bndg.isIn, Ne.symm hb]
      rw [if_neg hcond, if_pos hin, clearedValue_of_not hnot] at hv
      exact merge_wide _ _ (Option.some.inj hv)
    · have hab : a.storage ≠ b.storage := fun hab => hs (.inr ⟨.inl hab, hin⟩)
      have hcleared : a.clearedBy dst ∨ b.clearedBy dst := by
        by_contra hno
        exact hs (.inr ⟨.inr ⟨fun ha => hno (.inl ha), fun hb => hno (.inr hb)⟩, hin⟩)
      obtain ⟨x, y, hdiff⟩ := exists_cleared c hab hcleared
      have hv : (if dst.isCondition then _ else some (X86.merge 1 (if dst.isIn (scratch a b) then _
        else 0) (truth _))) = some (truth _) := hpick hab.symm x y _ rfl
      rw [if_neg hcond, if_neg hin, merge_byte] at hv
      exact hdiff (truth_inj (Option.some.inj hv))
  | shift left =>
    by_contra hs
    have hab : a.storage ≠ b.storage := fun hab => hs (.inl hab)
    have hv : some (shifted left (if a.storage = .register rcx then 0 else 1)
      ((if dst.storage = .register rcx then (if a.storage = .register rcx then 0 else 1)
        else 0 : Word).toNat % 64)) = some (shifted left 1 0) := hpick hab.symm 1 0 _ rfl
    by_cases ha : a.storage = .register rcx
    · rw [if_pos ha] at hv
      revert hv
      cases left <;> split <;> decide
    · have hd : dst.storage = .register rcx := by
        by_contra hd
        exact hs (.inr ⟨ha, hd⟩)
      rw [if_neg ha, if_pos hd] at hv
      revert hv
      cases left <;> decide
  | bnot => trivial

theorem toNat_lt_allOnes {v : Word} (h : v ≠ BitVec.allOnes 64) :
    v.toNat < (BitVec.allOnes 64).toNat := by
  have hne : v.toNat ≠ (BitVec.allOnes 64).toNat := fun heq => h (BitVec.eq_of_toNat_eq heq)
  have hlt := v.isLt
  rw [BitVec.toNat_allOnes] at hne ⊢
  omega

theorem constantOutcome_of_safe {op : Operation} {z x v w : Word} (hs : op.SafeConstant dst a v)
    (hv : op.value x v = some w) : op.constantOutcome dst a v z x = some w := by
  cases op with
  | compare c =>
    rw [← hv]
    show (if dst.isCondition then some (truth (c.holds x v)) else _) = some (truth (c.holds x v))
    by_cases hc : dst.isCondition = true
    · rw [if_pos hc]
    · rw [if_neg hc]
      rcases hs.resolve_left hc with ha | ⟨rfl, rfl⟩ | ⟨rfl, rfl⟩
      · rw [clearedValue_of_not ha]
      · simp [Comparison.holds]
      · have hmax : ∀ u : Word, ¬ (BitVec.allOnes 64).toNat < u.toNat := by
          intro u
          have hlt := u.isLt
          rw [BitVec.toNat_allOnes]
          omega
        simp only [Comparison.holds, hmax]
  | _ => exact hv

theorem safeConstant_of_outcome {op : Operation} {v : Word} (h : ∀ f, Consistent [dst, a] f → ∀ w,
    op.value (f a) v = some w → op.constantOutcome dst a v (f dst) (f a) = some w) :
    op.SafeConstant dst a v := by
  cases op with
  | compare c =>
    by_contra hs
    have hcond : ¬ dst.isCondition = true := fun hc => hs (.inl hc)
    have hcleared : a.clearedBy dst := by
      by_contra ha
      exact hs (.inr (.inl ha))
    -- the operand counts as 0 whatever it is
    have hzero : ∀ x, c.holds 0 v = c.holds x v := by
      intro x
      have hv : (if dst.isCondition then _ else some (truth (c.holds
          (clearedValue dst a (pick a a x x dst) (pick a a x x a)) v))) = some (truth (c.holds
            (pick a a x x a) v)) := h (pick a a x x) (consistent_pick _ a a x x) _ rfl
      have hvalue : clearedValue dst a (pick a a x x dst) (pick a a x x a) = 0 := by
        unfold clearedValue
        by_cases had : a.storage = dst.storage
        · rw [if_pos had]
        · have hda : dst.storage ≠ a.storage := fun h => had h.symm
          rw [if_neg had, if_pos (by simpa [Bndg.clearedBy, had] using hcleared),
            pick_other hda hda]
      rw [if_neg hcond, hvalue, pick_first] at hv
      exact truth_inj (Option.some.inj hv)
    cases c with
    | equals =>
      by_cases hv : v = 0
      · subst hv
        exact absurd (hzero 1) (by decide)
      · have hself : decide ((0 : Word) = v) = decide (v = v) := hzero v
        rw [decide_eq_true (rfl : v = v)] at hself
        exact absurd (of_decide_eq_true hself).symm hv
    | lesserthan =>
      apply hs
      refine .inr (.inr (.inl ⟨rfl, ?_⟩))
      have hself := hzero v
      simp only [Comparison.holds, Nat.lt_irrefl, decide_false, decide_eq_false_iff_not] at hself
      apply BitVec.eq_of_toNat_eq
      exact Nat.eq_zero_of_not_pos hself
    | greaterthan =>
      apply hs
      refine .inr (.inr (.inr ⟨rfl, ?_⟩))
      by_contra hv
      have hself := hzero (BitVec.allOnes 64)
      have hlt := toNat_lt_allOnes hv
      have hnot : ¬ v.toNat < (0 : Word).toNat := Nat.not_lt_zero _
      simp only [Comparison.holds, hlt, hnot, decide_true, decide_false] at hself
      cases hself
  | _ => trivial

end

/-! ## Invocations -/

/-- The arguments that the intrinsic evaluates. -/
def operands (n : Expr) : List Expr :=
  match initializeArithmeticIntrinsics n with
  | some g => operandsOf g n
  | none => []

/-- The binding of the result and those of the operands. -/
def operandBndgs (n : Expr) : List Bndg := n.bindingAug :: (operands n).map Expr.bindingAug

/-- The constant in the code, if there is one. -/
def constantOf (n : Expr) : List Word :=
  match initializeArithmeticIntrinsics n, matchUndefinedBinaryRightImmInvoke n with
  | some .rightImm, some (_, _, v) => [v]
  | _, _ => []

def operandValues (address : Bndg → Word) (s : State) (n : Expr) : List Word :=
  (operands n).map (fun e => valueAt address s e.bindingAug) ++ constantOf n

/-- After its operands have been evaluated the intrinsic leaves what the routine of the
same name returns for them, if that returns. -/
def Computes (n : Expr) (name : String) (op : Operation) : Prop :=
  ∀ (address : Bndg → Word) (raw : Nat) (gen : Expr → List Instr) (s s₁ : State),
    Laid address s₁ (operandBndgs n) → Does address raw (operandCode gen n) s s₁ →
      ∀ v, routineValue name (operandValues address s₁ n) = some v →
        ∃ s', Does address raw (intrinsicCode raw gen n) s s' ∧ op.Result address s' n.bindingAug v

/-- The places of the operands and of the result are safe for the form of the code. -/
def Supported (n : Expr) (op : Operation) : Prop :=
  match matchUndefinedInvoke n with
  | some (_, [a, b]) =>
    match b.literalValue with
    | some v => if op.takes v then op.SafeConstant n.bindingAug a.bindingAug v
      else op.Safe n.bindingAug a.bindingAug b.bindingAug
    | none => op.Safe n.bindingAug a.bindingAug b.bindingAug
  | _ => True

section
variable {n : Expr} {name : String} {op : Operation} {code : Nat → List Instr}
  (hcode : ∀ raw gen, intrinsicCode raw gen n = operandCode gen n ++ code raw)
include hcode

/-- What counts is the code after that of the operands. -/
theorem computes_iff_code : Computes n name op ↔ ∀ address raw s, Laid address s (operandBndgs n) →
    ∀ v, routineValue name (operandValues address s n) = some v →
      ∃ s', Does address raw (code raw) s s' ∧ op.Result address s' n.bindingAug v := by
  constructor
  · intro h address raw s hl v hv
    have hnil : Does address raw (operandCode (fun _ => []) n) s s := by
      rw [operandCode_nil]
      exact Does.nil s
    obtain ⟨s', hdoes, hresult⟩ := h address raw (fun _ => []) s s hl hnil v hv
    rw [hcode, operandCode_nil] at hdoes
    exact ⟨s', hdoes, hresult⟩
  · intro h address raw gen s s₁ hl hbefore v hv
    obtain ⟨s', hdoes, hresult⟩ := h address raw s₁ hl v hv
    refine ⟨s', ?_, hresult⟩
    rw [hcode]
    exact hbefore.append hdoes

end

/-- The result of an operation is one value, unless it is left in the flags. -/
theorem Operation.Result.unique {op : Operation} {dst : Bndg} {v w : Word}
    (hcond : (∃ c, op = .compare c) → dst.isCondition = false)
    (hv : op.Result address s dst v) (hw : op.Result address s dst w) : v = w := by
  have hplace : ∀ u, op.Result address s dst u → valueAt address s dst = u := by
    intro u hu
    cases op with
    | compare c =>
      have hu : if dst.isCondition then _ else valueAt address s dst = u := hu
      rwa [hcond ⟨c, rfl⟩, if_neg Bool.false_ne_true] at hu
    | _ => exact hu
  exact (hplace v hv).symm.trans (hplace w hw)

/-- The code that has no outcome does not end. -/
theorem not_does_of_outcome (hlow : Low address) {dst a b : Bndg} (ha : Placed stackRegisters a)
    (hb : Placed stackRegisters b) (raw : Nat) {op : Operation}
    (h : op.outcome dst a b (valueAt address s dst) (valueAt address s a) (valueAt address s b) =
      none) (s' : State) : ¬ Does address raw (op.code raw dst a b) s s' := by
  have hfit := (fitting_code raw dst a b op).1
  cases op with
  | divide =>
    have hy : divisor a b (valueAt address s a) (valueAt address s b) = 0 := by
      by_contra hy
      have h : (if _ then none else some _) = none := h
      rw [if_neg hy] at h
      cases h
    exact not_does_division hlow ha hb hy s' hfit
  | rem =>
    have hy : divisor a b (valueAt address s a) (valueAt address s b) = 0 := by
      by_contra hy
      have h : (if _ then none else some _) = none := h
      rw [if_neg hy] at h
      cases h
    exact not_does_division hlow ha hb hy s' hfit
  | compare c =>
    have h : (if _ then some _ else some _) = none := h
    split at h <;> cases h
  | _ => cases h

/-- Code with one outcome that leaves a value has this value for its outcome. -/
theorem outcome_of_does (hlow : Low address) {op : Operation} {dst : Bndg} {ns : List Instr}
    (hfit : (∀ n ∈ ns, Fitting n.operands) ∧ ns.length < 2 ^ 20)
    (hcond : ¬ ((∃ c, op = .compare c) ∧ dst.isCondition = true)) {s' : State} {v : Word}
    (hdoes : Does address raw ns s s') (hresult : op.Result address s' dst v) {o : Option Word}
    (hsome : ∀ w, o = some w → ∃ s'', Does address raw ns s s'' ∧ op.Result address s'' dst w)
    (hnone : o = none → ¬ Does address raw ns s s') : o = some v := by
  cases o with
  | none => exact absurd hdoes (hnone rfl)
  | some w =>
    obtain ⟨s'', hdoes', hresult'⟩ := hsome w rfl
    have hsame := hdoes.unique_of_low hlow hdoes' hfit.1 hfit.2
    subst hsame
    have hplace : (∃ c, op = .compare c) → dst.isCondition = false :=
      fun hc => Bool.eq_false_iff.mpr fun htrue => hcond ⟨hc, htrue⟩
    rw [hresult.unique hplace hresult']

/-! ## The three forms -/

theorem constantOutcome_ne_none {op : Operation} {v : Word} (ht : op.takes v) (dst a : Bndg)
    (z x : Word) : op.constantOutcome dst a v z x ≠ none := by
  cases op with
  | compare c =>
    show (if dst.isCondition then some _ else some _) ≠ none
    split <;> simp
  | multiply | divide | rem | bnot => cases ht
  | _ => exact Option.some_ne_none _

theorem placed_operands {n : Expr} (hd : Placed stackRegisters n.bindingAug)
    (hp : ∀ e ∈ operands n, Placed stackRegisters e.bindingAug) :
    ∀ b ∈ operandBndgs n, Placed stackRegisters b := by
  intro b hb
  rcases List.mem_cons.mp hb with rfl | hb
  · exact hd
  · obtain ⟨e, he, rfl⟩ := List.mem_map.mp hb
    exact hp e he

section
variable {n a b : Expr} {name : String} {op : Operation} (hop : operationOf name = some op)
  (hn : matchUndefinedBinaryInvoke n = some (name, a, b)) (h2 : op.arity = 2)
  (hd : Placed stackRegisters n.bindingAug)
  (hp : ∀ e ∈ operands n, Placed stackRegisters e.bindingAug)
  (hal : ∀ c ∈ operandBndgs n, c.Aligned)
include hop hn h2 hd hp hal

theorem computes_iff_general (hg : initializeArithmeticIntrinsics n = some .binary) :
    Computes n name op ↔ op.Safe n.bindingAug a.bindingAug b.bindingAug := by
  have hoperands : operands n = [a, b] := by
    unfold operands operandsOf
    rw [hg, hn]
    rfl
  have hconstant : constantOf n = [] := by
    unfold constantOf
    rw [hg]
  have hbs : operandBndgs n = [n.bindingAug, a.bindingAug, b.bindingAug] := by
    unfold operandBndgs
    rw [hoperands]
    rfl
  have hvalues : ∀ address s, routineValue name (operandValues address s n) =
      op.value (valueAt address s a.bindingAug) (valueAt address s b.bindingAug) := by
    intro address s
    unfold operandValues
    rw [hoperands, hconstant, routineValue_eq hop]
    rfl
  have hcode : ∀ raw gen, intrinsicCode raw gen n = operandCode gen n ++
      op.code raw n.bindingAug a.bindingAug b.bindingAug := by
    intro raw gen
    unfold intrinsicCode operandCode
    rw [hg]
    show generateBinary raw gen n = (operandsOf .binary n).flatMap gen ++ _
    unfold operandsOf
    rw [generateBinary_operation hop hn h2, hn]
    rfl
  have ha : Placed stackRegisters a.bindingAug := hp a (by simp [hoperands])
  have hb : Placed stackRegisters b.bindingAug := hp b (by simp [hoperands])
  rw [computes_iff_code hcode, hbs]
  constructor
  · intro h
    by_cases hflags : (∃ c, op = .compare c) ∧ n.bindingAug.isCondition = true
    · obtain ⟨⟨c, rfl⟩, hc⟩ := hflags
      exact .inl hc
    · apply safe_of_outcome
      intro f hf v hv
      have hplaced := placed_operands hd hp
      rw [hbs] at hplaced hal
      obtain ⟨address, s, hlow, hl, hvalue⟩ := exists_laid (by simp) hplaced hal hf
      have hdst := hvalue n.bindingAug (by simp)
      have hfst := hvalue a.bindingAug (by simp)
      have hsnd := hvalue b.bindingAug (by simp)
      rw [← hfst, ← hsnd] at hv
      obtain ⟨s', hdoes, hresult⟩ := h address 0 s hl v ((hvalues address s).trans hv)
      rw [← hdst, ← hfst, ← hsnd]
      exact outcome_of_does hlow (fitting_code 0 _ _ _ op) hflags hdoes hresult
        (fun w => code_outcome hd ha hb hl 0 op)
        (fun ho => not_does_of_outcome hlow ha hb 0 ho s')
  · intro h address raw s hl v hv
    rw [hvalues] at hv
    apply code_outcome hd ha hb hl raw op
    apply outcome_of_safe _ h hv
    intro hs
    unfold valueAt
    rw [(hl.eq_iff (by simp) (by simp)).mpr hs]

theorem computes_iff_constant {v : Word} (hv : b.literalValue = some v) (ht : op.takes v)
    (hg : initializeArithmeticIntrinsics n = some .rightImm) :
    Computes n name op ↔ op.SafeConstant n.bindingAug a.bindingAug v := by
  have hm : matchUndefinedBinaryRightImmInvoke n = some (name, a, v) := by
    rw [matchRightImm_eq hn, hv]
    rfl
  have hoperands : operands n = [a] := by
    unfold operands operandsOf
    rw [hg, hm]
    rfl
  have hconstant : constantOf n = [v] := by
    unfold constantOf
    rw [hg, hm]
  have hbs : operandBndgs n = [n.bindingAug, a.bindingAug] := by
    unfold operandBndgs
    rw [hoperands]
    rfl
  have hvalues : ∀ address s, routineValue name (operandValues address s n) =
      op.value (valueAt address s a.bindingAug) v := by
    intro address s
    unfold operandValues
    rw [hoperands, hconstant, routineValue_eq hop]
    rfl
  have hcode : ∀ raw gen, intrinsicCode raw gen n = operandCode gen n ++
      op.constantCode raw n.bindingAug a.bindingAug v := by
    intro raw gen
    unfold intrinsicCode operandCode
    rw [hg]
    show generateRightImm raw gen n = (operandsOf .rightImm n).flatMap gen ++ _
    unfold operandsOf
    rw [generateRightImm_operation hop hn h2 raw gen hv ht, hm]
    rfl
  have ha : Placed stackRegisters a.bindingAug := hp a (by simp [hoperands])
  rw [computes_iff_code hcode, hbs]
  constructor
  · intro h
    by_cases hflags : (∃ c, op = .compare c) ∧ n.bindingAug.isCondition = true
    · obtain ⟨⟨c, rfl⟩, hc⟩ := hflags
      exact .inl hc
    · apply safeConstant_of_outcome
      intro f hf u hu
      have hplaced := placed_operands hd hp
      rw [hbs] at hplaced hal
      obtain ⟨address, s, hlow, hl, hvalue⟩ := exists_laid (by simp) hplaced hal hf
      have hdst := hvalue n.bindingAug (by simp)
      have hfst := hvalue a.bindingAug (by simp)
      rw [← hfst] at hu
      obtain ⟨s', hdoes, hresult⟩ := h address 0 s hl u ((hvalues address s).trans hu)
      rw [← hdst, ← hfst]
      exact outcome_of_does hlow (fitting_constantCode 0 _ _ v op) hflags hdoes hresult
        (fun w => constantCode_outcome hd ha hl 0 ht)
        (fun ho => absurd ho (constantOutcome_ne_none ht _ _ _ _))
  · intro h address raw s hl u hu
    rw [hvalues] at hu
    exact constantCode_outcome hd ha hl raw ht (constantOutcome_of_safe h hu)

end

section
variable {n a : Expr} (hn : matchUndefinedInvoke n = some ("bnot", [a]))
include hn

theorem initialize_complement : initializeArithmeticIntrinsics n = some .unary := by
  have hget : initializeGetBaseOffset n = none := by
    unfold initializeGetBaseOffset matchGetBaseOffset
    rw [hn]
    dsimp only
    cases matchBaseOffset a with
    | none => rfl
    | some p => exact if_neg fun h => absurd h.2 (by decide)
  have hset : initializeSetBaseOffset n = none := by
    unfold initializeSetBaseOffset matchSetBaseOffset
    rw [hn]
  have hunary : initializeUnary n = some .unary := by
    unfold initializeUnary matchUndefinedUnaryInvoke
    rw [hn]
    rfl
  unfold initializeArithmeticIntrinsics
  rw [hget, hset, hunary]
  rfl

theorem computes_complement (hd : Placed stackRegisters n.bindingAug)
    (hp : ∀ e ∈ operands n, Placed stackRegisters e.bindingAug) : Computes n "bnot" .bnot := by
  have hg := initialize_complement hn
  have hm : matchUndefinedUnaryInvoke n = some ("bnot", a) := by
    unfold matchUndefinedUnaryInvoke
    rw [hn]
  have hoperands : operands n = [a] := by
    unfold operands operandsOf
    rw [hg, hm]
    rfl
  have hconstant : constantOf n = [] := by
    unfold constantOf
    rw [hg]
  have hcode : ∀ raw gen, intrinsicCode raw gen n = operandCode gen n ++
      Operation.bnot.code raw n.bindingAug a.bindingAug a.bindingAug := by
    intro raw gen
    unfold intrinsicCode operandCode
    rw [hg]
    show generateUnary raw gen n = (operandsOf .unary n).flatMap gen ++ _
    unfold operandsOf generateUnary
    rw [hm]
    simp [Operation.code]
  have ha : Placed stackRegisters a.bindingAug := hp a (by simp [hoperands])
  rw [computes_iff_code hcode]
  intro address raw s _ v hv
  unfold operandValues at hv
  rw [hoperands, hconstant, routineValue_eq rfl] at hv
  rw [← Option.some.inj hv]
  exact complement_value hd ha raw

end

theorem arity_cases {name : String} {op : Operation} (hop : operationOf name = some op) :
    op.arity = 2 ∨ op = .bnot ∧ name = "bnot" := by
  unfold operationOf at hop
  split at hop <;> cases hop <;> first | exact .inl rfl | exact .inr ⟨rfl, rfl⟩

theorem matchBinary_of_invoke {n a b : Expr} {name : String}
    (hn : matchUndefinedInvoke n = some (name, [a, b])) :
    matchUndefinedBinaryInvoke n = some (name, a, b) := by
  unfold matchUndefinedBinaryInvoke
  rw [hn]

section
variable {n : Expr} {name : String} {op : Operation} (hop : operationOf name = some op)
  (hd : Placed stackRegisters n.bindingAug)
  (hp : ∀ e ∈ operands n, Placed stackRegisters e.bindingAug)
include hop hd hp

theorem computes_iff_pair {a b : Expr} (hn : matchUndefinedInvoke n = some (name, [a, b]))
    (h2 : op.arity = 2) (hal : ∀ c ∈ operandBndgs n, c.Aligned) :
    Computes n name op ↔ Supported n op := by
  have hm := matchBinary_of_invoke hn
  have hg := initialize_operation hop hm h2
  simp only [Supported, hn]
  cases hv : b.literalValue with
  | none =>
    rw [hv] at hg
    exact computes_iff_general hop hm h2 hd hp hal hg
  | some v =>
    rw [hv] at hg
    show _ ↔ if op.takes v then _ else _
    by_cases ht : op.takes v = true
    · rw [if_pos ht]
      exact computes_iff_constant hop hm h2 hd hp hal hv ht (hg.trans (if_pos ht))
    · rw [if_neg ht]
      exact computes_iff_general hop hm h2 hd hp hal (hg.trans (if_neg ht))

theorem computes_iff_single {a : Expr} (hn : matchUndefinedInvoke n = some (name, [a]))
    (h1 : op.arity = 1) : Computes n name op ↔ Supported n op := by
  rcases arity_cases hop with h2 | ⟨rfl, rfl⟩
  · omega
  · have hs : Supported n .bnot := by
      unfold Supported
      rw [hn]
      trivial
    exact ⟨fun _ => hs, fun _ => computes_complement hn hd hp⟩

end

/-- The result of every arithmetic intrinsic is that of the routine for all operands if and
only if its places are safe. -/
theorem computes_iff {n : Expr} {name : String} {arguments : List Expr} {op : Operation}
    (hn : matchUndefinedInvoke n = some (name, arguments)) (hop : operationOf name = some op)
    (hlen : arguments.length = op.arity) (hd : Placed stackRegisters n.bindingAug)
    (hp : ∀ e ∈ operands n, Placed stackRegisters e.bindingAug)
    (hal : ∀ b ∈ operandBndgs n, b.Aligned) : Computes n name op ↔ Supported n op := by
  rcases arity_cases hop with h2 | ⟨rfl, rfl⟩
  · rw [h2] at hlen
    obtain ⟨a, b, rfl⟩ := List.length_eq_two.mp hlen
    exact computes_iff_pair hop hd hp hn h2 hal
  · obtain ⟨a, rfl⟩ := List.length_eq_one_iff.mp hlen
    exact computes_iff_single hop hd hp hn rfl

/-- An invocation of an undefined symbol with its result in `storage`. -/
def callIn (storage : Storage) (name : String) (arguments : List Expr) : Expr :=
  .invoke (.symbol ⟨name, .undefined, .reference, .absolute 0, 0, .nop, false⟩ (placedIn .nil))
    arguments (placedIn storage)

/-- `[- a b]` with `a` in `rax` and `b` in `rcx` is right in `rax` and wrong in `rcx`. -/
theorem computes_sub_registers :
    Computes (callIn (.register rax) "-" [inRax, inRcx]) "-" (.accumulate .sub (by decide)) ∧
      ¬ Computes (callIn (.register rcx) "-" [inRax, inRcx]) "-"
        (.accumulate .sub (by decide)) := by
  have hrax : Placed stackRegisters inRax.bindingAug := ⟨rfl, X86.rax, rfl, by decide⟩
  have hrcx : Placed stackRegisters inRcx.bindingAug := ⟨rfl, X86.rcx, rfl, by decide⟩
  have hp : ∀ e ∈ [inRax, inRcx], Placed stackRegisters e.bindingAug := by
    intro e he
    rcases List.mem_pair.mp he with rfl | rfl
    · exact hrax
    · exact hrcx
  have hal : ∀ r, ∀ b ∈ [placedIn (.register r), inRax.bindingAug, inRcx.bindingAug],
      b.Aligned := by
    intro r b hb
    simp only [List.mem_cons, List.not_mem_nil, or_false] at hb
    rcases hb with rfl | rfl | rfl <;> exact fun _ ho => nomatch ho
  have hsafe : ∀ r, Placed stackRegisters (placedIn (.register r)) →
      (Computes (callIn (.register r) "-" [inRax, inRcx]) "-" (.accumulate .sub (by decide)) ↔
        Supported (callIn (.register r) "-" [inRax, inRcx]) (.accumulate .sub (by decide))) :=
    fun r hr => computes_iff rfl rfl rfl hr hp (hal r)
  constructor
  · exact (hsafe rax hrax).mpr (.inl rfl)
  · intro h
    have hs : _ ∨ _ := (hsafe rcx hrcx).mp h
    exact hs.elim (fun heq => absurd heq (by decide)) (fun hne => hne.1 rfl)

end L2.SelfHost
