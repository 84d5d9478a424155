import L2.SelfHost.BuildExpression
import Mathlib.Data.Nat.Digits.Defs

/-!
# Numeric literals

The macros of `64-numbers.l2` that make literal expressions: `=#` writes a word in base 2,
and `#` and `0x` read a token in base 10 and 16.  A fragment that a macro makes of
characters is a token, unless there are none.
-/

namespace L2.Macros

open Bootstrap (Token Fragment Source)

abbrev Word := BitVec 64

/-- A chain of characters. -/
def ofChars (cs : List Char) : Fragment := if h : cs = [] then .node [] else .atom ⟨cs, h⟩

def literalChars : List Char := ['l', 'i', 't', 'e', 'r', 'a', 'l']

/-- The continuation `write` of `=#`, with the count as a number. -/
def write : Nat → Word → List Char → List Char
  | 0, _, out => out
  | count + 1, binary, out =>
    write count (binary >>> 1) ((if binary &&& 1 = 0 then '0' else '1') :: out)

/-- `=#` -/
def literalOf (binary : Word) : Fragment :=
  .node [ofChars literalChars, ofChars (write 0b1000000 binary [])]

/-- The tests for the decimal digits. -/
def decimalDigit (c : Char) : Word :=
  if c = '9' then 0b1001 else if c = '8' then 0b1000 else if c = '7' then 0b111
  else if c = '6' then 0b110 else if c = '5' then 0b101 else if c = '4' then 0b100
  else if c = '3' then 0b11 else if c = '2' then 0b10 else if c = '1' then 0b1 else 0b0

/-- The tests for the hexadecimal digits. -/
def hexadecimalDigit (c : Char) : Word :=
  if c = 'F' then 0b1111 else if c = 'E' then 0b1110 else if c = 'D' then 0b1101
  else if c = 'C' then 0b1100 else if c = 'B' then 0b1011 else if c = 'A' then 0b1010
  else decimalDigit c

/-- The continuation `read` of `#` and `0x`. -/
def read (base : Word) (digit : Char → Word) : List Char → Word → Word
  | [], out => out
  | c :: rst, out => read base digit rst (out * base + digit c)

/-- The macros read the characters of their first argument. -/
def readFirst (base : Word) (digit : Char → Word) : List Fragment → Option Fragment
  | .atom t :: _ => some (literalOf (read base digit t.1 0))
  | .node [] :: _ => some (literalOf (read base digit [] 0))
  | _ => none

/-- `#` -/
def decimal : List Fragment → Option Fragment := readFirst 0b1010 decimalDigit

/-- `0x` -/
def hexadecimal : List Fragment → Option Fragment := readFirst 0b10000 hexadecimalDigit

/-! ## Writing and building -/

theorem length_write (count : Nat) : ∀ (binary : Word) (out : List Char),
    (write count binary out).length = count + out.length := by
  induction count with
  | zero =>
    intro binary out
    show out.length = 0 + out.length
    omega
  | succ count ih =>
    intro binary out
    rw [write, ih, List.length_cons]
    omega

/-- The low bit and the others make up the word again. -/
theorem low_bits (binary : Word) (k : Nat) :
    binary.toNat % 2 ^ (k + 1) = 2 * ((binary >>> 1).toNat % 2 ^ k) + binary.toNat % 2 := by
  rw [BitVec.toNat_ushiftRight, Nat.shiftRight_one, Nat.pow_succ, Nat.mul_comm (2 ^ k) 2,
    Nat.mod_mul]
  omega

theorem and_one_eq_zero (binary : Word) : binary &&& 1 = 0 ↔ binary.toNat % 2 = 0 := by
  rw [← BitVec.toNat_inj, BitVec.toNat_and]
  show binary.toNat &&& 1 = 0 ↔ _
  rw [Nat.and_one_is_mod]

/-- A digit more in the value of a literal. -/
theorem shift_add (value : Word) (b : Nat) :
    value <<< 1 + BitVec.ofNat 64 b = value * 2 + BitVec.ofNat 64 b := by
  rw [BitVec.shiftLeft_eq_mul_twoPow]
  rfl

/-- A digit that has been written is read with the value of its bit. -/
theorem literalValue_digit (binary value : Word) (out : List Char) :
    Bootstrap.literalValue value ((if binary &&& 1 = 0 then '0' else '1') :: out) =
      Bootstrap.literalValue (value * 2 + BitVec.ofNat 64 (binary.toNat % 2)) out := by
  rw [← shift_add]
  by_cases h : binary &&& 1 = 0
  · rw [if_pos h, (and_one_eq_zero binary).mp h]
    show Bootstrap.literalValue (value <<< 1) out = _
    rw [BitVec.add_zero]
  · have h1 : binary.toNat % 2 = 1 := by
      have h0 : binary.toNat % 2 ≠ 0 := fun h0 => h ((and_one_eq_zero binary).mpr h0)
      omega
    rw [if_neg h, h1]
    rfl

/-- What `write` has written is read as the low bits of the word. -/
theorem literalValue_write (count : Nat) : ∀ (binary value : Word) (out : List Char),
    Bootstrap.literalValue value (write count binary out) = Bootstrap.literalValue
      (value * BitVec.ofNat 64 (2 ^ count) + BitVec.ofNat 64 (binary.toNat % 2 ^ count)) out := by
  induction count with
  | zero =>
    intro binary value out
    rw [write, Nat.pow_zero, Nat.mod_one]
    show _ = Bootstrap.literalValue (value * 1 + 0) out
    rw [show value * 1 + 0 = value * 1#64 + 0#64 from rfl, BitVec.mul_one, BitVec.add_zero]
  | succ count ih =>
    intro binary value out
    rw [write, ih, literalValue_digit, low_bits]
    congr 1
    rw [BitVec.ofNat_add, BitVec.ofNat_mul, Nat.pow_succ, BitVec.ofNat_mul]
    show (value * _ + _) * BitVec.ofNat 64 2 + _ = _
    rw [BitVec.add_mul, BitVec.mul_assoc, BitVec.add_assoc, BitVec.mul_comm (BitVec.ofNat 64 2)]

theorem literalValue_literalOf (binary : Word) :
    Bootstrap.literalValue 0 (write 64 binary []) = some binary := by
  rw [literalValue_write]
  show some (0 * _ + BitVec.ofNat 64 (binary.toNat % 2 ^ 64)) = _
  rw [show (0 : Word) * _ = 0#64 from BitVec.zero_mul, BitVec.zero_add,
    Nat.mod_eq_of_lt binary.isLt,
    BitVec.ofNat_toNat, BitVec.setWidth_eq]

/-- The two loops over the digits of a literal agree where there are as many as are asked
for. -/
theorem buildNum_eq (cs : List Char) : ∀ value : Word,
    SelfHost.buildNum cs cs.length value = Bootstrap.literalValue value cs := by
  induction cs with
  | nil =>
    intro value
    rfl
  | cons c cs ih =>
    intro value
    show (if c = '1' then _ else if c = '0' then _ else none) = _
    rw [ih, ih, Bootstrap.literalValue]

/-- The digits that `=#` writes, as a token. -/
def binaryToken (binary : Word) : Token :=
  ⟨write 64 binary [], fun h => absurd (congrArg List.length h) (by rw [length_write]; simp)⟩

def literalToken : Token := ⟨literalChars, by decide⟩

theorem ofChars_eq (t : Token) : ofChars t.1 = .atom t := dif_neg t.2

theorem literalOf_eq (binary : Word) :
    literalOf binary = .node [.atom literalToken, .atom (binaryToken binary)] := by
  rw [← ofChars_eq, ← ofChars_eq]
  rfl

theorem keywordOf_literalToken :
    Bootstrap.keywordOf (.atom literalToken) = some .literalWord := by decide

theorem length_binaryToken (binary : Word) : (binaryToken binary).1.length = 64 := by
  show (write 64 binary []).length = 64
  rw [length_write]
  rfl

theorem buildExpression_literalOf (binary : Word) :
    Bootstrap.buildExpression (literalOf binary) = .ok (.literal binary) := by
  have hvalue : Bootstrap.literalValue 0 (binaryToken binary).1 = some binary :=
    literalValue_literalOf binary
  rw [literalOf_eq]
  unfold Bootstrap.buildExpression
  simp only [keywordOf_literalToken]
  rw [if_pos (show _ = Bootstrap.wordBinLen from length_binaryToken binary), hvalue]

theorem selfHost_buildExpression_literalOf (binary : Word) :
    SelfHost.buildExpression (literalOf binary) = .ok (.literal binary) := by
  have hnum : SelfHost.buildNum (binaryToken binary).1 SelfHost.buildExpressionLiteralLen 0 =
      some binary := by
    have h := buildNum_eq (binaryToken binary).1 0
    rw [length_binaryToken] at h
    exact h.trans (literalValue_literalOf binary)
  rw [literalOf_eq]
  unfold SelfHost.buildExpression
  simp only [keywordOf_literalToken]
  rw [if_pos (show _ = SelfHost.buildExpressionLiteralLen from length_binaryToken binary), hnum]

/-! ## Reading -/

/-- The value of digits in a base, the first digit being the highest. -/
def valueOf (base : Nat) (digit : Char → Nat) (cs : List Char) : Nat :=
  Nat.ofDigits base (cs.map digit).reverse

/-- The value of a digit by its place behind `0`. -/
def decimalValue (c : Char) : Nat := c.toNat - '0'.toNat

/-- The capital letters from `A` to `F` go on where the digits end. -/
def hexadecimalValue (c : Char) : Nat :=
  if c.isDigit then decimalValue c else c.toNat - 'A'.toNat + 10

def decimalDigits : List Char := ['0', '1', '2', '3', '4', '5', '6', '7', '8', '9']

def hexadecimalDigits : List Char := decimalDigits ++ ['A', 'B', 'C', 'D', 'E', 'F']

theorem read_eq {base : Nat} {digit : Char → Word} {value : Char → Nat} {cs : List Char}
    (hcs : ∀ c ∈ cs, digit c = BitVec.ofNat 64 (value c)) : ∀ out : Nat,
    read (BitVec.ofNat 64 base) digit cs (BitVec.ofNat 64 out) =
      BitVec.ofNat 64 (valueOf base value cs + base ^ cs.length * out) := by
  induction cs with
  | nil =>
    intro out
    show BitVec.ofNat 64 out = BitVec.ofNat 64 (0 + 1 * out)
    rw [Nat.zero_add, Nat.one_mul]
  | cons c cs ih =>
    intro out
    obtain ⟨hc, hcs⟩ := List.forall_mem_cons.mp hcs
    rw [read, hc, ← BitVec.ofNat_mul, ← BitVec.ofNat_add, ih hcs]
    congr 1
    have hval : valueOf base value (c :: cs) = valueOf base value cs +
      base ^ cs.length * value c := by
      unfold valueOf
      rw [List.map_cons, List.reverse_cons, Nat.ofDigits_append, List.length_reverse,
        List.length_map,
        Nat.ofDigits_singleton]
    rw [hval, List.length_cons, Nat.pow_succ, Nat.mul_add]
    ring

theorem decimalDigit_eq : ∀ c ∈ decimalDigits, decimalDigit c =
    BitVec.ofNat 64 (decimalValue c) := by
  have hall : (decimalDigits.all fun c =>
      decide (decimalDigit c = BitVec.ofNat 64 (decimalValue c))) = true := by decide
  exact fun c hc => of_decide_eq_true (List.all_eq_true.mp hall c hc)

theorem hexadecimalDigit_eq :
    ∀ c ∈ hexadecimalDigits, hexadecimalDigit c = BitVec.ofNat 64 (hexadecimalValue c) := by
  have hall : (hexadecimalDigits.all fun c =>
      decide (hexadecimalDigit c = BitVec.ofNat 64 (hexadecimalValue c))) = true := by decide
  exact fun c hc => of_decide_eq_true (List.all_eq_true.mp hall c hc)

theorem readFirst_eq {base : Nat} {digit : Char → Word} {value : Char → Nat} {t : Token}
    (ht : ∀ c ∈ t.1, digit c = BitVec.ofNat 64 (value c)) (l : List Fragment) :
    readFirst (BitVec.ofNat 64 base) digit (.atom t :: l) =
      some (literalOf (BitVec.ofNat 64 (valueOf base value t.1 % 2 ^ 64))) := by
  have hread : read (BitVec.ofNat 64 base) digit t.1 (BitVec.ofNat 64 0) = _ := read_eq ht 0
  rw [Nat.mul_zero, Nat.add_zero] at hread
  show some (literalOf (read (BitVec.ofNat 64 base) digit t.1 0)) = _
  rw [show (0 : Word) = BitVec.ofNat 64 0 from rfl, hread]
  congr 2
  apply BitVec.eq_of_toNat_eq
  rw [BitVec.toNat_ofNat, BitVec.toNat_ofNat, Nat.mod_mod]

/-- A literal that was written is built with the value it was written of, and digits of
base 10 and 16 make the literal of their value. -/
theorem literals_roundTrip :
    (∀ v : Word, Bootstrap.buildExpression (literalOf v) = .ok (.literal v) ∧
      SelfHost.buildExpression (literalOf v) = .ok (.literal v)) ∧
    (∀ (t : Token) (l : List Fragment), (∀ c ∈ t.1, c ∈ decimalDigits) →
      decimal (.atom t :: l) =
        some (literalOf (BitVec.ofNat 64 (valueOf 10 decimalValue t.1 % 2 ^ 64)))) ∧
    ∀ (t : Token) (l : List Fragment), (∀ c ∈ t.1, c ∈ hexadecimalDigits) →
      hexadecimal (.atom t :: l) =
        some (literalOf (BitVec.ofNat 64 (valueOf 16 hexadecimalValue t.1 % 2 ^ 64))) :=
  ⟨fun v => ⟨buildExpression_literalOf v, selfHost_buildExpression_literalOf v⟩,
    fun _ l ht => @readFirst_eq 10 _ _ _ (fun c hc => decimalDigit_eq c (ht c hc)) l,
    fun _ l ht => @readFirst_eq 16 _ _ _ (fun c hc => hexadecimalDigit_eq c (ht c hc)) l⟩

/-- `5F` in base 16. -/
theorem literals_roundTrip_5F :
    hexadecimal [.atom ⟨['5', 'F'], by decide⟩] = some (literalOf 0x5F) :=
  literals_roundTrip.2.2 ⟨['5', 'F'], by decide⟩ [] (by simp [hexadecimalDigits, decimalDigits])

end L2.Macros
