import L2.X86.Memory

/-!
# Bytes in a row

A list of bytes that is in memory from an address on, what a number that is in it is read as,
and what is there once a cell in it has been stored to.
-/

namespace X86

/-- The bytes are in memory from address `a` on. -/
def BytesAt (m : Memory) (a : Word) (bytes : List Byte) : Prop :=
  ∀ i b, bytes[i]? = some b → m (a + BitVec.ofNat 64 i) = b

variable {m m' : Memory} {a : Word} {bytes bytes' : List Byte}

theorem bytesAt_append : BytesAt m a (bytes ++ bytes') ↔
    BytesAt m a bytes ∧ BytesAt m (a + BitVec.ofNat 64 bytes.length) bytes' := by
  have hplace : ∀ i, a + BitVec.ofNat 64 bytes.length + BitVec.ofNat 64 i =
      a + BitVec.ofNat 64 (bytes.length + i) := by
    intro i
    rw [BitVec.add_assoc, BitVec.ofNat_add]
  constructor
  · intro h
    constructor
    · intro i b hb
      apply h i b
      obtain ⟨hi, -⟩ := List.getElem?_eq_some_iff.mp hb
      rw [List.getElem?_append_left hi, hb]
    · intro i b hb
      rw [hplace]
      apply h
      rw [List.getElem?_append_right (by omega), Nat.add_sub_cancel_left, hb]
  · intro h i b hb
    by_cases hi : i < bytes.length
    · rw [List.getElem?_append_left hi] at hb
      exact h.1 i b hb
    · rw [List.getElem?_append_right (by omega)] at hb
      have hrest := h.2 _ _ hb
      rw [hplace] at hrest
      rwa [Nat.add_sub_cancel' (by omega)] at hrest

theorem bytesAt_cons {b : Byte} :
    BytesAt m a (b :: bytes) ↔ m a = b ∧ BytesAt m (a + 1) bytes := by
  rw [← List.singleton_append, bytesAt_append]
  apply and_congr_left'
  constructor
  · intro h
    have hzero := h 0 b rfl
    rwa [BitVec.add_zero] at hzero
  · intro h i c hc
    obtain ⟨hi, rfl⟩ := List.getElem?_eq_some_iff.mp hc
    have hzero : i = 0 := by
      simp only [List.length_singleton] at hi
      omega
    subst hzero
    rwa [BitVec.add_zero]

/-- Bytes that are as they were are still there. -/
theorem BytesAt.congr (h : BytesAt m a bytes)
    (hm : ∀ i < bytes.length, m' (a + BitVec.ofNat 64 i) = m (a + BitVec.ofNat 64 i)) :
    BytesAt m' a bytes := by
  intro i b hb
  obtain ⟨hi, -⟩ := List.getElem?_eq_some_iff.mp hb
  rw [hm i hi]
  exact h i b hb

/-- What is read from memory is what is taken from the list. -/
theorem BytesAt.load_eq {n : Nat} {v : Word} {rest : List Byte} (h : BytesAt m a bytes)
    (hv : takeBytes n bytes = some (v, rest)) : load m a n = v := by
  induction n generalizing a bytes v rest with
  | zero =>
    cases hv
    rfl
  | succ n ih =>
    cases bytes with
    | nil => cases hv
    | cons b bytes =>
      obtain ⟨⟨w, rest'⟩, hw, hv⟩ := Option.bind_eq_some_iff.mp hv
      cases hv
      obtain ⟨hb, hbytes⟩ := bytesAt_cons.mp h
      show (m a).setWidth 64 ||| load m (a + 1) n <<< 8 = _
      rw [hb, ih hbytes hw]

theorem BytesAt.load_bytesOf {n : Nat} {v : Word} (h : BytesAt m a (bytesOf n v)) :
    load m a n = low n v := by
  apply h.load_eq
  rw [← List.append_nil (bytesOf n v)]
  exact takeBytes_bytesOf n v []

theorem getElem?_bytesOf {i n : Nat} (v : Word) (h : i < n) :
    (bytesOf n v)[i]? = some (byte v i) := by
  induction n generalizing i v with
  | zero => omega
  | succ n ih =>
    cases i with
    | zero =>
      show some (v.setWidth 8) = some ((v >>> (8 * 0)).setWidth 8)
      rw [Nat.mul_zero, BitVec.ushiftRight_zero]
    | succ i =>
      show (bytesOf n (v >>> 8))[i]? = _
      rw [ih _ (by omega)]
      unfold byte
      rw [← BitVec.shiftRight_add, Nat.mul_succ, Nat.add_comm]

/-- A cell among the bytes is stored to, and the others are kept. -/
theorem BytesAt.store {before old after : List Byte} {n : Nat} (v : Word)
    (h : BytesAt m a (before ++ (old ++ after))) (hn : old.length = n)
    (hsize : (before ++ (old ++ after)).length ≤ 2 ^ 64) :
    BytesAt (store m (a + BitVec.ofNat 64 before.length) n v) a
      (before ++ (bytesOf n v ++ after)) := by
  rw [List.length_append, List.length_append] at hsize
  have hdistance : ∀ i, (a + BitVec.ofNat 64 i - (a + BitVec.ofNat 64 before.length)).toNat =
      (BitVec.ofNat 64 i - BitVec.ofNat 64 before.length).toNat := by
    intro i
    congr 1
    generalize BitVec.ofNat 64 i = x
    generalize BitVec.ofNat 64 before.length = y
    bv_omega
  have hbefore : ∀ i < before.length, n ≤
      (a + BitVec.ofNat 64 i - (a + BitVec.ofNat 64 before.length)).toNat := by
    intro i hi
    rw [hdistance, BitVec.toNat_sub, BitVec.toNat_ofNat, BitVec.toNat_ofNat]
    by_cases hlast : before.length < 2 ^ 64
    · rw [Nat.mod_eq_of_lt hlast, Nat.mod_eq_of_lt (by omega), Nat.mod_eq_of_lt (by omega)]
      omega
    · omega
  obtain ⟨hb, hrest⟩ := bytesAt_append.mp h
  obtain ⟨-, hafter⟩ := bytesAt_append.mp hrest
  have hplace : ∀ i, a + BitVec.ofNat 64 before.length + BitVec.ofNat 64 i =
      a + BitVec.ofNat 64 (before.length + i) := by
    intro i
    rw [BitVec.add_assoc, BitVec.ofNat_add]
  rw [bytesAt_append, bytesAt_append, length_bytesOf, ← hn]
  refine ⟨?_, ?_, ?_⟩
  · exact hb.congr fun i hi => store_outside v (hn ▸ hbefore i hi)
  · intro i b hi
    obtain ⟨hlt, -⟩ := List.getElem?_eq_some_iff.mp hi
    rw [length_bytesOf] at hlt
    rw [getElem?_bytesOf v hlt] at hi
    have hdist := toNat_add_sub (a + BitVec.ofNat 64 before.length) (i := i) (by omega)
    rw [store_inside v (by omega), hdist]
    exact Option.some.inj hi
  · apply hafter.congr
    intro i hi
    rw [BitVec.add_assoc (a + _), ← BitVec.ofNat_add]
    apply store_outside
    rw [toNat_add_sub _ (by omega)]
    omega

end X86
