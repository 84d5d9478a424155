import Mathlib.Data.BitVec

/-!
# Words and byte-addressed memory

A word is 64 bits and memory maps every word to a byte.  A cell of `n` bytes is read and
written with the low byte first, and only the low `n` bytes of a value take part.
-/

namespace X86

abbrev Byte := BitVec 8

abbrev Word := BitVec 64

abbrev Memory := Word → Byte

/-- The low `n` bytes of a value. -/
def low (n : Nat) (v : Word) : Word := (v.setWidth (8 * n)).setWidth 64

/-- The low `n` bytes of a value, read as a signed number. -/
def signed (n : Nat) (v : Word) : Word := (v.setWidth (8 * n)).signExtend 64

/-- The byte at place `i` of a value, counted from the low end. -/
def byte (v : Word) (i : Nat) : Byte := (v >>> (8 * i)).setWidth 8

/-- The value of the `n` bytes from address `a` on. -/
def load (m : Memory) (a : Word) : Nat → Word
  | 0 => 0
  | n + 1 => (m a).setWidth 64 ||| load m (a + 1) n <<< 8

/-- Memory with the low `n` bytes of `v` from address `a` on. -/
def store (m : Memory) (a : Word) (n : Nat) (v : Word) : Memory := fun x =>
  if (x - a).toNat < n then byte v (x - a).toNat else m x

/-- The low `n` bytes of a value as a list, the low byte first. -/
def bytesOf : Nat → Word → List Byte
  | 0, _ => []
  | n + 1, v => v.setWidth 8 :: bytesOf n (v >>> 8)

/-- The value of the first `n` bytes of a list, and what follows them. -/
def takeBytes : Nat → List Byte → Option (Word × List Byte)
  | 0, bs => some (0, bs)
  | _ + 1, [] => none
  | n + 1, b :: bs => do
    let (v, rest) ← takeBytes n bs
    some (b.setWidth 64 ||| v <<< 8, rest)

/-! ## Low bytes -/

theorem getLsbD_low (n : Nat) (v : Word) (j : Nat) :
    (low n v).getLsbD j = (decide (j < 8 * n) && v.getLsbD j) := by
  unfold low
  simp only [BitVec.getLsbD_setWidth]
  by_cases hj : j < 64
  · simp [hj]
  · have hv : v.getLsbD j = false := BitVec.getLsbD_of_ge v j (by omega)
    simp [hj, hv]

@[simp] theorem low_eight (v : Word) : low 8 v = v := by
  apply BitVec.eq_of_getLsbD_eq
  intro j hj
  rw [getLsbD_low]
  have h : j < 8 * 8 := by omega
  simp [h]

theorem low_low {k n : Nat} (h : k ≤ n) (v : Word) : low k (low n v) = low k v := by
  apply BitVec.eq_of_getLsbD_eq
  intro j _
  simp only [getLsbD_low]
  by_cases hk : j < 8 * k
  · have hn : j < 8 * n := by omega
    simp [hk, hn]
  · simp [hk]

theorem getLsbD_byte (v : Word) (i j : Nat) :
    (byte v i).getLsbD j = (decide (j < 8) && v.getLsbD (8 * i + j)) := by
  unfold byte
  simp [BitVec.getLsbD_setWidth, BitVec.getLsbD_ushiftRight]

theorem byte_low {i n : Nat} (h : i < n) (v : Word) : byte (low n v) i = byte v i := by
  apply BitVec.eq_of_getLsbD_eq
  intro j hj
  have hn : 8 * i + j < 8 * n := by omega
  simp [getLsbD_byte, getLsbD_low, hn]

theorem byte_congr {n : Nat} {v w : Word} (h : low n v = low n w) {i : Nat} (hi : i < n) :
    byte v i = byte w i := by
  rw [← byte_low hi v, h, byte_low hi]

/-! ## Cells -/

theorem getLsbD_load (m : Memory) (n : Nat) : ∀ (a : Word) (j : Nat),
    (load m a n).getLsbD j =
      (decide (j < 8 * n) && decide (j < 64) && (m (a + BitVec.ofNat 64 (j / 8))).getLsbD
        (j % 8)) := by
  induction n with
  | zero => intro a j; simp [load]
  | succ n ih =>
    intro a j
    show ((m a).setWidth 64 ||| load m (a + 1) n <<< 8).getLsbD j = _
    rw [BitVec.getLsbD_or, BitVec.getLsbD_shiftLeft, BitVec.getLsbD_setWidth, ih]
    by_cases hj : j < 64
    · by_cases h8 : j < 8
      · have hd : j / 8 = 0 := by omega
        have hm : j % 8 = j := by omega
        have hn : j < 8 * (n + 1) := by omega
        simp [hj, h8, hd, hm, hn]
      · have hb : (m a).getLsbD j = false := BitVec.getLsbD_of_ge _ j (by omega)
        have hd : a + 1 + BitVec.ofNat 64 ((j - 8) / 8) = a + BitVec.ofNat 64 (j / 8) := by
          have he : j / 8 = 1 + (j - 8) / 8 := by omega
          rw [he, BitVec.ofNat_add, ← BitVec.add_assoc]
          rfl
        have hm : (j - 8) % 8 = j % 8 := by omega
        have hl : j - 8 < 64 := by omega
        have hn : decide (j - 8 < 8 * n) = decide (j < 8 * (n + 1)) := by
          rw [decide_eq_decide]; omega
        rw [hd, hm, hn]
        simp [hj, h8, hb, hl]
    · simp [hj]

/-- Cells at two addresses that hold the same bytes have the same value. -/
theorem load_eq_load {m m' : Memory} {a b : Word} {n : Nat}
    (h : ∀ i < n, m (a + BitVec.ofNat 64 i) = m' (b + BitVec.ofNat 64 i)) :
    load m a n = load m' b n := by
  apply BitVec.eq_of_getLsbD_eq
  intro j _
  simp only [getLsbD_load]
  by_cases hj : j < 8 * n
  · rw [h (j / 8) (by omega)]
  · simp [hj]

theorem load_congr {m m' : Memory} {a : Word} {n : Nat}
    (h : ∀ i < n, m (a + BitVec.ofNat 64 i) = m' (a + BitVec.ofNat 64 i)) :
    load m a n = load m' a n := load_eq_load h

/-- A shorter read of a cell is the low part of the longer one. -/
theorem low_load {k n : Nat} (h : k ≤ n) (m : Memory) (a : Word) :
    low k (load m a n) = load m a k := by
  apply BitVec.eq_of_getLsbD_eq
  intro j _
  simp only [getLsbD_low, getLsbD_load]
  by_cases hk : j < 8 * k
  · have hn : j < 8 * n := by omega
    simp [hk, hn]
  · simp [hk]

/-- Only the low bytes of the value are stored. -/
theorem store_congr {n : Nat} {v w : Word} (h : low n v = low n w) (m : Memory) (a : Word) :
    store m a n v = store m a n w := by
  funext x
  unfold store
  by_cases hx : (x - a).toNat < n
  · rw [if_pos hx, if_pos hx, byte_congr h hx]
  · rw [if_neg hx, if_neg hx]

theorem store_low (m : Memory) (a : Word) (n : Nat) (v : Word) :
    store m a n (low n v) = store m a n v :=
  store_congr (low_low (Nat.le_refl n) v) m a

theorem store_outside {m : Memory} {a x : Word} {n : Nat} (v : Word) (h : n ≤ (x - a).toNat) :
    store m a n v x = m x := if_neg (by omega)

theorem store_inside {m : Memory} {a x : Word} {n : Nat} (v : Word) (h : (x - a).toNat < n) :
    store m a n v x = byte v (x - a).toNat := if_pos h

theorem toNat_add_sub (a : Word) {i : Nat} (h : i < 2 ^ 64) :
    (a + BitVec.ofNat 64 i - a).toNat = i := by
  rw [BitVec.add_comm, BitVec.add_sub_cancel, BitVec.toNat_ofNat, Nat.mod_eq_of_lt h]

/-- What has been stored in a cell is read back. -/
theorem load_store {n : Nat} (hn : n ≤ 8) (m : Memory) (a v : Word) :
    load (store m a n v) a n = low n v := by
  apply BitVec.eq_of_getLsbD_eq
  intro j hj
  rw [getLsbD_load, getLsbD_low]
  by_cases hk : j < 8 * n
  · have hi : j / 8 < n := by omega
    have ht : (a + BitVec.ofNat 64 (j / 8) - a).toNat = j / 8 := toNat_add_sub a (by omega)
    rw [store_inside v (by omega), ht, getLsbD_byte]
    have hd : 8 * (j / 8) + j % 8 = j := by omega
    have hm : j % 8 < 8 := by omega
    simp [hk, hj, hd, hm]
  · simp [hk]

/-- A cell that does not meet the stored one keeps its value. -/
theorem load_store_of_disjoint {m : Memory} {a b : Word} {k n : Nat} (v : Word)
    (h : ∀ i < k, n ≤ (b + BitVec.ofNat 64 i - a).toNat) :
    load (store m a n v) b k = load m b k :=
  load_congr fun i hi => store_outside v (h i hi)

/-! ## Lists of bytes -/

@[simp] theorem length_bytesOf (n : Nat) (v : Word) : (bytesOf n v).length = n := by
  induction n generalizing v with
  | zero => rfl
  | succ n ih => simp [bytesOf, ih]

/-- Bytes written are read back. -/
theorem takeBytes_bytesOf (n : Nat) (v : Word) (rest : List Byte) :
    takeBytes n (bytesOf n v ++ rest) = some (low n v, rest) := by
  induction n generalizing v with
  | zero =>
    have h0 : low 0 v = 0 := BitVec.eq_of_getLsbD_eq fun j _ => by simp [getLsbD_low]
    simp [takeBytes, bytesOf, h0]
  | succ n ih =>
    have hv : (v.setWidth 8).setWidth 64 ||| low n (v >>> 8) <<< 8 = low (n + 1) v := by
      apply BitVec.eq_of_getLsbD_eq
      intro j hj
      rw [BitVec.getLsbD_or, BitVec.getLsbD_shiftLeft, getLsbD_low, getLsbD_low,
        BitVec.getLsbD_setWidth, BitVec.getLsbD_setWidth, BitVec.getLsbD_ushiftRight]
      by_cases h8 : j < 8
      · have hn : j < 8 * (n + 1) := by omega
        simp [h8, hj, hn]
      · have he : 8 + (j - 8) = j := by omega
        have hn : decide (j - 8 < 8 * n) = decide (j < 8 * (n + 1)) := by
          rw [decide_eq_decide]; omega
        rw [he, hn]
        simp [h8, hj]
    simp [takeBytes, bytesOf, ih, hv]

theorem signed_low (n : Nat) (v : Word) : signed n (low n v) = signed n v := by
  unfold signed low
  congr 1
  apply BitVec.eq_of_getLsbD_eq
  intro j hj
  simp only [BitVec.getLsbD_setWidth]
  by_cases h : j < 64
  · simp [h]
  · have hv : v.getLsbD j = false := BitVec.getLsbD_of_ge v j (by omega)
    simp [hv]

@[simp] theorem signed_eight (v : Word) : signed 8 v = v := by
  simp [signed]

@[simp] theorem signed_zero (n : Nat) : signed n 0#64 = 0#64 := by
  apply BitVec.eq_of_getLsbD_eq
  intro j _
  simp [signed, BitVec.getLsbD_signExtend, BitVec.msb_eq_getLsbD_last]

/-- A value whose high bits all are the sign of its low bytes is what these stand for. -/
theorem signed_of_bits {n : Nat} (hn : 0 < n) {v : Word} (p : Bool)
    (h : ∀ j, 8 * n - 1 ≤ j → j < 64 → v.getLsbD j = p) (h8 : n ≤ 8) : signed n v = v := by
  apply BitVec.eq_of_getLsbD_eq
  intro j hj
  unfold signed
  rw [BitVec.getLsbD_signExtend, BitVec.msb_eq_getLsbD_last, BitVec.getLsbD_setWidth,
    BitVec.getLsbD_setWidth]
  by_cases hlt : j < 8 * n
  · simp [hlt, hj]
  · have h1 : 8 * n - 1 < 8 * n := by omega
    rw [h (8 * n - 1) (Nat.le_refl _) (by omega), h j (by omega) hj]
    simp [hlt, hj, h1]

/-! ## Memory filled with one byte -/

/-- The word all of whose bytes are `c`. -/
def fill (c : Byte) : Word := load (fun _ => c) 0 8

theorem load_const (c : Byte) (a : Word) : load (fun _ => c) a 8 = fill c := by
  apply BitVec.eq_of_getLsbD_eq
  intro j _
  unfold fill
  rw [getLsbD_load, getLsbD_load]

theorem byte_load {i n : Nat} (hi : i < n) (hn : n ≤ 8) (m : Memory) (a : Word) :
    byte (load m a n) i = m (a + BitVec.ofNat 64 i) := by
  apply BitVec.eq_of_getLsbD_eq
  intro j hj
  rw [getLsbD_byte, getLsbD_load]
  have hd : (8 * i + j) / 8 = i := by omega
  have hm : (8 * i + j) % 8 = j := by omega
  have hlt : 8 * i + j < 64 := by omega
  have hl8 : 8 * i + j < 8 * n := by omega
  simp [hd, hm, hlt, hl8, hj]

theorem byte_fill {i : Nat} (hi : i < 8) (c : Byte) : byte (fill c) i = c :=
  byte_load hi (Nat.le_refl 8) _ _

end X86
