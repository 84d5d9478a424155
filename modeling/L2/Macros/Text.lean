import L2.Macros.Numbers
import L2.Bootstrap.Lexer
import L2.X86.Memory

/-!
# Text

The macro `"` of `text-meta.l2` turns a list of tokens and other fragments into an expression
that puts a string on the stack.  It packs characters into a word that it does not clear, and
lets instructions store the values of the fragments behind that.
-/

namespace L2.Macros

open Bootstrap (Token Fragment charOf)
open X86 (Memory Byte load store byte bytesOf)
open Lexical (inTable)

/-! ## Characters -/

def charTable : List (Char × Word) := [
  ('!', 33), (Char.ofNat 34, 34), ('#', 35), ('$', 36), ('%', 37), ('&', 38), (Char.ofNat 39, 39),
  ('*', 42), ('+', 43), (',', 44), ('-', 45), ('.', 46), ('/', 47), ('0', 48), ('1', 49), ('2', 50),
  ('3', 51), ('4', 52), ('5', 53), ('6', 54), ('7', 55), ('8', 56), ('9', 57), ('<', 60),
  ('=', 61), ('>', 62), ('?', 63), ('@', 64), ('A', 65), ('B', 66), ('C', 67), ('D', 68),
  ('E', 69), ('F', 70), ('G', 71), ('H', 72), ('I', 73), ('J', 74), ('K', 75), ('L', 76),
  ('M', 77), ('N', 78), ('O', 79), ('P', 80), ('Q', 81), ('R', 82), ('S', 83), ('T', 84),
  ('U', 85), ('V', 86), ('W', 87), ('X', 88), ('Y', 89), ('Z', 90), (Char.ofNat 92, 92), ('^', 94),
  ('_', 95), (Char.ofNat 96, 96), ('a', 97), ('b', 98), ('c', 99), ('d', 100), ('e', 101),
  ('f', 102), ('g', 103), ('h', 104), ('i', 105), ('j', 106), ('k', 107), ('l', 108), ('m', 109),
  ('n', 110), ('o', 111), ('p', 112), ('q', 113), ('r', 114), ('s', 115), ('t', 116), ('u', 117),
  ('v', 118), ('w', 119), ('x', 120), ('y', 121), ('z', 122), ('|', 124), ('~', 126)]

/-- `meta.char-aux` -/
def charAux (l : Char) : Word := (charTable.lookup l).getD 0

/-- The table has the code of each character that tokens are made of. -/
theorem charAux_eq {c : Char} (h : charOf c = c) : charAux c = BitVec.ofNat 64 c.toNat := by
  have htable : ((List.range 127).all fun n => !inTable (Char.ofNat n) ||
      charAux (Char.ofNat n) == BitVec.ofNat 64 n) = true := by decide +kernel
  by_cases hin : inTable c = true
  · have hle : c.toNat < 127 := by
      have hle := (of_decide_eq_true hin).2.1
      omega
    have hentry := List.all_eq_true.mp htable c.toNat (List.mem_range.mpr hle)
    rw [Char.ofNat_toNat, hin] at hentry
    simpa using hentry
  · have hnul : c = Bootstrap.nul := by
      rw [← h, charOf, if_neg hin]
    rw [hnul]
    decide +kernel

/-! ## The macro -/

def setb (m : Memory) (a v : Word) : Memory := store m a 1 v

def invokeToken : Token := ⟨['i', 'n', 'v', 'o', 'k', 'e'], by decide⟩
def letToken : Token := ⟨['l', 'e', 't'], by decide⟩
def doToken : Token := ⟨['d', 'o'], by decide⟩
def setbToken : Token := ⟨['s', 'e', 't', 'b'], by decide⟩
def plusToken : Token := ⟨['+'], by decide⟩
def lambdaToken : Token := ⟨[Char.ofNat 92], by decide⟩
def quoteToken : Token := ⟨[Char.ofNat 96], by decide⟩
def kToken : Token := ⟨['k'], by decide⟩
def stringToken : Token := ⟨['s', 't', 'r', 'i', 'n', 'g'], by decide⟩
def dquoteStr : Token := ⟨['d', 'q', 'u', 'o', 't', 'e', '.', 's', 't', 'r'], by decide⟩
def dquoteTmp : Token := ⟨['d', 'q', 'u', 'o', 't', 'e', '.', 't', 'm', 'p'], by decide⟩
def storageToken : Token := ⟨['s', 't', 'o', 'r', 'a', 'g', 'e'], by decide⟩
def constrainToken : Token := ⟨['c', 'o', 'n', 's', 't', 'r', 'a', 'i', 'n'], by decide⟩

/-- `[setb [+ dquote.str index] e]` -/
def setbOf (index : Word) (e : Fragment) : Fragment :=
  .node [.atom invokeToken, .atom setbToken,
    .node [.atom invokeToken, .atom plusToken, .atom dquoteStr, literalOf index], e]

/-- The signature of the string. -/
def constrainOf : Fragment :=
  .node [.atom constrainToken, .atom dquoteStr,
    .node [.atom lambdaToken, .atom kToken,
      .node [.atom quoteToken, .atom stringToken, .atom kToken]]]

/-- What the macro is expanded to. -/
def dquoteOf (exprs instrs : List Fragment) : Fragment :=
  .node [.atom letToken,
    .node [.atom dquoteStr, .node (.atom storageToken :: .atom dquoteTmp :: exprs)],
    .node (.atom doToken :: instrs)]

/-- The size of what is left to be packed, which goes down. -/
def weight : Fragment → Nat
  | .atom t => t.1.length + 1
  | _ => 1

theorem weight_pos (f : Fragment) : 0 < weight f := by
  cases f <;> exact Nat.succ_pos _

theorem weight_ofChars (cs : List Char) : weight (ofChars cs) = cs.length + 1 := by
  cases cs <;> rfl

/-- The word is finished with the byte at `subIndex`. -/
def flush (buf : Word) (m : Memory) (subIndex : Word) (exprs : List Fragment) : List Fragment :=
  if subIndex = 7 then literalOf (load m buf 8) :: exprs else exprs

/-- The loop `add-word` over the parts, with the word at `buf`. -/
def addWord (buf : Word) : List Fragment → Word → List Fragment → List Fragment → Memory → Fragment
  | [], index, exprs, instrs, m =>
    let m := setb m (buf + index % 8) 0
    dquoteOf (literalOf (load m buf 8) :: exprs).reverse (constrainOf :: instrs).reverse
  | [.node []], index, exprs, instrs, m => addWord buf [] index exprs instrs m
  | .node [] :: .atom t :: rst, index, exprs, instrs, m =>
    let m := setb m (buf + index % 8) 32
    addWord buf (.atom t :: rst) (index + 1) (flush buf m (index % 8) exprs) instrs m
  | .node [] :: rst, index, exprs, instrs, m => addWord buf rst index exprs instrs m
  | .atom ⟨c :: cs, _⟩ :: rst, index, exprs, instrs, m =>
    let m := setb m (buf + index % 8) (charAux c)
    addWord buf (ofChars cs :: rst) (index + 1) (flush buf m (index % 8) exprs) instrs m
  | f :: rst, index, exprs, instrs, m =>
    addWord buf rst (index + 1) (flush buf m (index % 8) exprs) (setbOf index f :: instrs) m
termination_by str => (str.map weight).sum
decreasing_by
  all_goals simp only [List.map_cons, List.map_nil, List.sum_cons, List.sum_nil, weight_ofChars]
  · exact Nat.lt_add_of_pos_left (weight_pos _)
  · exact Nat.lt_add_of_pos_left (weight_pos _)
  · exact Nat.lt_add_of_pos_left (weight_pos _)
  · simp only [weight, List.length_cons]
    omega
  · exact Nat.lt_add_of_pos_left (weight_pos _)

/-- The value of `(~)`. -/
def tilde : Word := 0xDEADBEEF

/-- `"`, where the word to pack in is at `buf`. -/
def dquote (buf : Word) (m : Memory) (l : List Fragment) : Fragment :=
  addWord buf l 0 [] [] (store m buf 8 tilde)

/-! ## What the expansion evaluates to -/

/-- Memory, and what else the expressions between the tokens may depend on and change. -/
structure World (σ : Type) where
  mem : Memory
  rest : σ

section Evaluation

variable {σ : Type} (value : Fragment → σ → Word × σ)

def literalWord (f : Fragment) : Option Word :=
  match Bootstrap.buildExpression f with
  | .ok (.literal w) => some w
  | _ => none

/-- The words of a storage expression are put in order from an address on. -/
def storeWords : Memory → Word → List Word → Memory
  | m, _, [] => m
  | m, a, w :: ws => storeWords (store m a 8 w) (a + 8) ws

/-- A sum of a name and a literal. -/
def evalAddress (env : Token → Option Word) : Fragment → Option Word
  | .node [.atom f, .atom g, .atom x, index] =>
    if f = invokeToken ∧ g = plusToken then do
      some ((← env x) + (← literalWord index))
    else none
  | _ => none

/-- An invocation of `setb`, where the second argument is evaluated by `value`. -/
def evalInstr (env : Token → Option Word) : Fragment → World σ → Option (World σ)
  | .node [.atom f, .atom g, a, e], w =>
    if f = invokeToken ∧ g = setbToken then do
      let a ← evalAddress env a
      some ⟨setb w.mem a (value e w.rest).1, (value e w.rest).2⟩
    else none
  | _, _ => none

/-- The instructions of a `do`, the last one being a name with a signature. -/
def evalDo (env : Token → Option Word) : List Fragment → World σ → Option (Word × World σ)
  | [], _ => none
  | [.node [.atom c, .atom x, _]], w => if c = constrainToken then (env x).map (·, w) else none
  | instr :: instrs, w => (evalInstr value env instr w).bind (evalDo env instrs)

/-- A `let` of words that are stored at `base`. -/
def evalLet (base : Word) : Fragment → World σ → Option (Word × World σ)
  | .node [.atom l, .node [.atom x, .node (.atom s :: .atom _ :: words)],
      .node (.atom d :: instrs)],
      w =>
    if l = letToken ∧ s = storageToken ∧ d = doToken then do
      let ws ← words.mapM literalWord
      evalDo value (fun y => if y = x then some base else none) instrs
        ⟨storeWords w.mem base ws, w.rest⟩
    else none
  | _, _ => none

/-! ## What the parts stand for -/

inductive Item where
  | char (c : Char)
  | embedded (f : Fragment)

/-- What is between a token and what follows it. -/
def separator : List Fragment → List Item
  | .atom _ :: _ => [.char ' ']
  | _ => []

/-- The characters of the tokens, with a space between two of them, and the other
fragments. -/
def content : List Fragment → List Item
  | [] => []
  | .atom t :: rst => t.1.map .char ++ (separator rst ++ content rst)
  | f :: rst => .embedded f :: content rst

/-- The bytes of a string, where the values are asked for one after the other. -/
def stringBytes : List Item → σ → List Byte × σ
  | [], s => ([], s)
  | .char c :: items, s =>
    let (bs, s) := stringBytes items s
    (BitVec.ofNat 8 c.toNat :: bs, s)
  | .embedded f :: items, s =>
    let (bs, s') := stringBytes items (value f s).2
    ((value f s).1.setWidth 8 :: bs, s')

end Evaluation

/-- A part is a token of characters that there are, or another list that is not empty. -/
def IsPart : Fragment → Prop
  | .atom t => ∀ c ∈ t.1, charOf c = c
  | .node ts => ts ≠ []
  | .var _ => False

/-! ## Packing -/

/-- Behind an ended token only what follows it is left. -/
def left : List Fragment → List Item
  | .node [] :: rst => separator rst ++ content rst
  | str => content str

/-- The instructions for the items from an index on. -/
def stores (index : Nat) : List Item → List Fragment
  | [] => []
  | .char _ :: items => stores (index + 1) items
  | .embedded f :: items => setbOf (BitVec.ofNat 64 index) f :: stores (index + 1) items

/-- The byte of a character; that of another fragment is stored later. -/
def Item.Holds : Item → Byte → Prop
  | .char c, b => b = BitVec.ofNat 8 c.toNat
  | .embedded _, _ => True

/-- The items are in words that are full and in the first bytes of the one at `buf`. -/
structure Packed (buf : Word) (m : Memory) (items : List Item) (exprs instrs : List Fragment)
    (ws : List Word) (part : List Byte) : Prop where
  holds : List.Forall₂ Item.Holds items (ws.flatMap (bytesOf 8) ++ part)
  short : part.length < 8
  exprs : exprs.reverse = ws.map literalOf
  instrs : instrs.reverse = stores 0 items
  part : ∀ (j : Nat) (h : j < part.length), m (buf + BitVec.ofNat 64 j) = part.get ⟨j, h⟩

variable {buf : Word} {m : Memory} {items : List Item} {exprs instrs : List Fragment}
  {ws : List Word} {part : List Byte}

theorem length_flatMap_bytesOf (ws : List Word) :
    (ws.flatMap (bytesOf 8)).length = 8 * ws.length := by
  induction ws with
  | nil => rfl
  | cons w ws ih =>
    rw [List.flatMap_cons, List.length_append, ih, X86.length_bytesOf, List.length_cons]
    omega

theorem Packed.length (h : Packed buf m items exprs instrs ws part) :
    items.length = 8 * ws.length + part.length := by
  rw [h.holds.length_eq, List.length_append, length_flatMap_bytesOf]

theorem index_mod (n : Nat) : BitVec.ofNat 64 n % 8 = BitVec.ofNat 64 (n % 8) := by
  apply BitVec.eq_of_toNat_eq
  rw [BitVec.toNat_umod, BitVec.toNat_ofNat, BitVec.toNat_ofNat]
  show n % 2 ^ 64 % 8 = n % 8 % 2 ^ 64
  omega

theorem stores_append (items items' : List Item) : ∀ index : Nat,
    stores index (items ++ items') = stores index items ++
      stores (index + items.length) items' := by
  induction items with
  | nil => exact fun _ => rfl
  | cons item items ih =>
    intro index
    cases item with
    | char c =>
      show stores (index + 1) (items ++ items') = stores (index + 1) items ++ _
      rw [ih, List.length_cons]
      congr 2
      omega
    | embedded f =>
      show _ :: stores (index + 1) (items ++ items') = _ :: (stores (index + 1) items ++ _)
      rw [ih, List.length_cons]
      congr 3
      omega

theorem setb_self (m : Memory) (a v : Word) : setb m a v a = v.setWidth 8 := by
  show (if (a - a).toNat < 1 then byte v (a - a).toNat else m a) = _
  rw [BitVec.sub_self, if_pos (by decide)]
  show (v >>> 0).setWidth 8 = _
  rw [BitVec.ushiftRight_zero]

theorem setb_ne {m : Memory} {a x : Word} (v : Word) (h : x ≠ a) : setb m a v x = m x := by
  apply X86.store_outside
  have hne : (x - a).toNat ≠ 0 := by
    intro hzero
    apply h
    have hzero : x - a = 0#64 := BitVec.eq_of_toNat_eq hzero
    have hadd := congrArg (· + a) hzero
    simpa using hadd
  omega

/-- Places of a word are different. -/
theorem add_ofNat_ne (a : Word) {i j : Nat} (hi : i < 2 ^ 64) (hj : j < 2 ^ 64) (h : i ≠ j) :
    a + BitVec.ofNat 64 i ≠ a + BitVec.ofNat 64 j := by
  intro heq
  have hsub := congrArg (fun x => (x - a).toNat) heq
  simp only [X86.toNat_add_sub a hi, X86.toNat_add_sub a hj] at hsub
  exact h hsub

theorem bytesOf_eq (n : Nat) : ∀ v : Word, bytesOf n v = (List.range n).map (byte v) := by
  induction n with
  | zero => exact fun _ => rfl
  | succ n ih =>
    intro v
    rw [List.range_succ_eq_map, List.map_cons, List.map_map]
    show v.setWidth 8 :: bytesOf n (v >>> 8) = (v >>> 0).setWidth 8 :: _
    rw [ih, BitVec.ushiftRight_zero]
    congr 2
    funext i
    show ((v >>> 8) >>> (8 * i)).setWidth 8 = (v >>> (8 * (i + 1))).setWidth 8
    rw [← BitVec.shiftRight_add]
    congr 2
    omega

/-- The bytes of a word that has been loaded. -/
theorem bytesOf_load (m : Memory) (a : Word) :
    bytesOf 8 (load m a 8) = (List.range 8).map (fun i => m (a + BitVec.ofNat 64 i)) := by
  rw [bytesOf_eq]
  apply List.map_congr_left
  intro i hi
  exact X86.byte_load (List.mem_range.mp hi) (by omega) m a

/-- The bytes in which the part ends, with what is behind it. -/
theorem bytesOf_part {m : Memory} {part : List Byte}
    (hpart : ∀ (j : Nat) (h : j < part.length), m (buf + BitVec.ofNat 64 j) = part.get ⟨j, h⟩)
    (hlen : part.length ≤ 8) :
    ∃ junk, bytesOf 8 (load m buf 8) = part ++ junk ∧ junk.length = 8 - part.length := by
  refine ⟨(bytesOf 8 (load m buf 8)).drop part.length, ?_, ?_⟩
  · have htake : (bytesOf 8 (load m buf 8)).take part.length = part := by
      apply List.ext_getElem
      · rw [List.length_take, X86.length_bytesOf]
        omega
      · intro j hj hj'
        simp only [bytesOf_load, List.getElem_take, List.getElem_map, List.getElem_range]
        exact hpart j hj'
    rw [← List.take_append_drop part.length (bytesOf 8 (load m buf 8)), htake]
    simp
  · rw [List.length_drop, X86.length_bytesOf]

/-- An item more, whose byte is in the word or is yet to be stored. -/
theorem Packed.next {m' : Memory} {item : Item} {instrs' : List Fragment}
    (h : Packed buf m items exprs instrs ws part)
    (hkept : ∀ j < part.length, m' (buf + BitVec.ofNat 64 j) = m (buf + BitVec.ofNat 64 j))
    (hitem : item.Holds (m' (buf + BitVec.ofNat 64 part.length)))
    (hinstrs : instrs'.reverse = instrs.reverse ++ stores items.length [item]) :
    ∃ ws' part', Packed buf m' (items ++ [item])
      (flush buf m' (BitVec.ofNat 64 items.length % 8) exprs) instrs' ws' part' := by
  let last := m' (buf + BitVec.ofNat 64 part.length)
  have hholds : List.Forall₂ Item.Holds (items ++ [item])
      (ws.flatMap (bytesOf 8) ++ (part ++ [last])) := by
    rw [← List.append_assoc]
    exact List.rel_append h.holds (.cons hitem .nil)
  have hpart : ∀ (j : Nat) (hj : j < (part ++ [last]).length),
      m' (buf + BitVec.ofNat 64 j) = (part ++ [last]).get ⟨j, hj⟩ := by
    intro j hj
    rw [List.length_append] at hj
    by_cases hlt : j < part.length
    · rw [hkept j hlt, h.part j hlt]
      simp [hlt]
    · have heq : j = part.length := by
        have : j < part.length + 1 := hj
        omega
      subst heq
      simp [last]
  have hstores : instrs'.reverse = stores 0 (items ++ [item]) := by
    rw [hinstrs, h.instrs, stores_append, Nat.zero_add]
  have hindex : BitVec.ofNat 64 items.length % 8 = BitVec.ofNat 64 part.length := by
    rw [index_mod, h.length]
    congr 1
    have := h.short
    omega
  have hshort := h.short
  by_cases hfull : part.length = 7
  · have hflush : flush buf m' (BitVec.ofNat 64 items.length % 8) exprs
        = literalOf (load m' buf 8) :: exprs := by
      rw [flush, hindex, hfull]
      exact if_pos rfl
    obtain ⟨junk, hbytes, hjunk⟩ := bytesOf_part hpart (by
      rw [List.length_append]
      show part.length + 1 ≤ 8
      omega)
    have hnil : junk = [] := by
      apply List.eq_nil_of_length_eq_zero
      rw [hjunk, List.length_append]
      show 8 - (part.length + 1) = 0
      omega
    rw [hnil, List.append_nil] at hbytes
    refine ⟨ws ++ [load m' buf 8], [], ?_, by decide, ?_, hstores, fun _ hj => absurd hj (by simp)⟩
    · rw [List.flatMap_append, List.flatMap_singleton, hbytes, List.append_nil]
      exact hholds
    · rw [hflush, List.reverse_cons, h.exprs, List.map_append]
      rfl
  · have hflush : flush buf m' (BitVec.ofNat 64 items.length % 8) exprs = exprs := by
      rw [flush, hindex, if_neg]
      intro hseven
      have hnat := congrArg BitVec.toNat hseven
      rw [BitVec.toNat_ofNat, Nat.mod_eq_of_lt (by omega)] at hnat
      exact hfull hnat
    refine ⟨ws, part ++ [last], hholds, ?_, ?_, hstores, hpart⟩
    · rw [List.length_append]
      show part.length + 1 < 8
      omega
    · rw [hflush, h.exprs]

/-- The words of a string: its bytes, a zero and what remains of the last word. -/
structure Strung (items : List Item) (ws : List Word) : Prop where
  length : ws.length = items.length / 8 + 1
  bytes : ∃ bs junk, List.Forall₂ Item.Holds items bs ∧ ws.flatMap (bytesOf 8) = bs ++ 0 :: junk

/-- The end of the string. -/
theorem Packed.strung (h : Packed buf m items exprs instrs ws part) :
    Strung items (ws ++ [load (setb m (buf + BitVec.ofNat 64 items.length % 8) 0) buf 8]) := by
  have hshort := h.short
  have hindex : BitVec.ofNat 64 items.length % 8 = BitVec.ofNat 64 part.length := by
    rw [index_mod, h.length]
    congr 1
    omega
  rw [hindex]
  have hpart : ∀ (j : Nat) (hj : j < (part ++ [(0 : Byte)]).length),
      setb m (buf + BitVec.ofNat 64 part.length) 0 (buf + BitVec.ofNat 64 j)
        = (part ++ [(0 : Byte)]).get ⟨j, hj⟩ := by
    intro j hj
    rw [List.length_append] at hj
    have hj : j < part.length + 1 := hj
    by_cases hlt : j < part.length
    · rw [setb_ne _ (add_ofNat_ne buf (by omega) (by omega) (by omega)), h.part j hlt]
      simp [hlt]
    · have heq : j = part.length := by omega
      subst heq
      rw [setb_self]
      simp
  obtain ⟨junk, hbytes, _⟩ := bytesOf_part hpart (by
    rw [List.length_append]
    show part.length + 1 ≤ 8
    omega)
  constructor
  · rw [h.length, List.length_append]
    show ws.length + 1 = (8 * ws.length + part.length) / 8 + 1
    omega
  · refine ⟨_, junk, h.holds, ?_⟩
    rw [List.flatMap_append, List.flatMap_singleton, hbytes]
    simp

/-- The parts that the loop goes over: an ended token may be at their head. -/
def AreLeft : List Fragment → Prop
  | .node [] :: rst => ∀ f ∈ rst, IsPart f
  | str => ∀ f ∈ str, IsPart f

theorem content_char (c : Char) (cs : List Char) (h : c :: cs ≠ []) (rst : List Fragment) :
    content (.atom ⟨c :: cs, h⟩ :: rst) = .char c :: left (ofChars cs :: rst) := by
  cases cs <;> rfl

/-- Where parts are left none of which is an ended token, all their content is. -/
theorem left_of_parts {str : List Fragment} (h : ∀ f ∈ str, IsPart f) :
    left str = content str ∧ AreLeft str := by
  cases str with
  | nil => exact ⟨rfl, h⟩
  | cons f rst =>
    have hf := h f List.mem_cons_self
    cases f with
    | node ts =>
      cases ts with
      | nil => exact absurd rfl hf
      | cons => exact ⟨rfl, h⟩
    | atom => exact ⟨rfl, h⟩
    | var => exact absurd hf id

theorem setWidth_charAux {c : Char} (h : charOf c = c) :
    (charAux c).setWidth 8 = BitVec.ofNat 8 c.toNat := by
  rw [charAux_eq h]
  apply BitVec.eq_of_toNat_eq
  rw [BitVec.toNat_setWidth, BitVec.toNat_ofNat, BitVec.toNat_ofNat]
  omega

/-- A character is packed. -/
theorem Packed.char {c : Char} {v : Word} (h : Packed buf m items exprs instrs ws part)
    (hv : v.setWidth 8 = BitVec.ofNat 8 c.toNat) :
    ∃ ws' part', Packed buf
      (setb m (buf + BitVec.ofNat 64 items.length % 8) v) (items ++ [.char c])
      (flush buf (setb m (buf + BitVec.ofNat 64 items.length % 8) v)
        (BitVec.ofNat 64 items.length % 8) exprs) instrs ws' part' := by
  have hshort := h.short
  have hindex : BitVec.ofNat 64 items.length % 8 = BitVec.ofNat 64 part.length := by
    rw [index_mod, h.length]
    congr 1
    omega
  apply h.next
  · intro j hj
    rw [hindex]
    exact setb_ne _ (add_ofNat_ne buf (by omega) (by omega) (by omega))
  · rw [hindex]
    exact (setb_self m _ v).trans hv
  · exact (List.append_nil _).symm

/-- Another fragment is passed over. -/
theorem Packed.embedded (f : Fragment) (h : Packed buf m items exprs instrs ws part) :
    ∃ ws' part', Packed buf m (items ++ [.embedded f])
      (flush buf m (BitVec.ofNat 64 items.length % 8) exprs)
      (setbOf (BitVec.ofNat 64 items.length) f :: instrs) ws' part' :=
  h.next (fun _ _ => rfl) trivial List.reverse_cons

/-- The loop packs all that is left. -/
theorem addWord_eq (str : List Fragment) (index : Word) (exprs instrs : List Fragment)
    (m : Memory) : ∀ items ws part, Packed buf m items exprs instrs ws part →
      index = BitVec.ofNat 64 items.length → AreLeft str →
      ∃ ws', addWord buf str index exprs instrs m =
          dquoteOf (ws'.map literalOf) (stores 0 (items ++ left str) ++ [constrainOf]) ∧
        Strung (items ++ left str) ws' := by
  induction str, index, exprs, instrs, m using addWord.induct buf with
  | case1 index exprs instrs m =>
    intro items ws part h hindex _
    subst hindex
    refine ⟨_, ?_, (List.append_nil items).symm ▸ h.strung⟩
    rw [addWord, List.reverse_cons, h.exprs, List.reverse_cons, h.instrs, List.map_append]
    show dquoteOf _ _ = dquoteOf _ (stores 0 (items ++ []) ++ _)
    rw [List.append_nil]
    rfl
  | case2 index exprs instrs m ih =>
    intro items ws part h hindex hparts
    rw [addWord]
    exact ih items ws part h hindex hparts
  | case3 t rst index exprs instrs m m₁ ih =>
    intro items ws part h hindex hparts
    subst hindex
    obtain ⟨ws', part', h'⟩ :=
      h.char (show (32 : Word).setWidth 8 = BitVec.ofNat 8 ' '.toNat from rfl)
    obtain ⟨hleft, hparts'⟩ := left_of_parts hparts
    have hnext := ih _ ws' part' h' (by rw [List.length_append, BitVec.ofNat_add]; rfl) hparts'
    rw [addWord]
    rw [hleft, List.append_assoc] at hnext
    exact hnext
  | case4 rst index exprs instrs m hne hatom ih =>
    intro items ws part h hindex hparts
    rw [addWord]
    · obtain ⟨hleft, hparts'⟩ := left_of_parts hparts
      have hseparator : separator rst = [] := by
        cases rst with
        | nil => rfl
        | cons f rst =>
          cases f with
          | atom t => exact absurd rfl (hatom t rst)
          | node => rfl
          | var => rfl
      have heq : left (.node [] :: rst) = left rst := by
        show separator rst ++ content rst = _
        rw [hseparator, hleft]
        rfl
      rw [heq]
      exact ih items ws part h hindex hparts'
    · exact hne
    · exact hatom
  | case5 c cs hcs rst index exprs instrs m m₁ ih =>
    intro items ws part h hindex hparts
    subst hindex
    have hpart := hparts _ List.mem_cons_self
    obtain ⟨ws', part', h'⟩ := h.char (setWidth_charAux (hpart c List.mem_cons_self))
    have hparts' : AreLeft (ofChars cs :: rst) := by
      have hrst : ∀ f ∈ rst, IsPart f := fun f hf => hparts f (List.mem_cons_of_mem _ hf)
      cases cs with
      | nil => exact hrst
      | cons c' cs =>
        exact List.forall_mem_cons.mpr
          ⟨fun x hx => hpart x (List.mem_cons_of_mem c hx), hrst⟩
    have hnext := ih _ ws' part' h' (by rw [List.length_append, BitVec.ofNat_add]; rfl) hparts'
    rw [addWord]
    show ∃ ws', _ = dquoteOf _ (stores 0 (items ++ content _) ++ _) ∧
      Strung (items ++ content _) ws'
    rw [content_char]
    rw [List.append_assoc] at hnext
    exact hnext
  | case6 f rst index exprs instrs m hnil hatom hnode hchar ih =>
    intro items ws part h hindex hparts
    subst hindex
    obtain ⟨ws', part', h'⟩ := h.embedded f
    have hitems : AreLeft rst ∧ left (f :: rst) = .embedded f :: left rst := by
      cases f with
      | atom t =>
        obtain ⟨cs, hcs⟩ := t
        cases cs with
        | nil => exact absurd rfl hcs
        | cons c cs => exact absurd rfl (hchar c cs hcs)
      | var v => exact absurd (hparts _ List.mem_cons_self) id
      | node ts =>
        cases ts with
        | nil => exact absurd rfl hnode
        | cons g gs =>
          obtain ⟨hleft, hparts'⟩ :=
            left_of_parts (fun f hf => hparts f (List.mem_cons_of_mem _ hf))
          refine ⟨hparts', ?_⟩
          rw [hleft]
          rfl
    have hnext := ih _ ws' part' h' (by rw [List.length_append, BitVec.ofNat_add]; rfl) hitems.1
    rw [addWord, hitems.2]
    · rw [List.append_assoc] at hnext
      exact hnext
    · exact hnil
    · exact hatom
    · exact hnode
    · exact hchar

theorem Packed.start (buf : Word) (m : Memory) : Packed buf m [] [] [] [] [] :=
  ⟨.nil, by decide, rfl, rfl, fun _ h => absurd h (Nat.not_lt_zero _)⟩

/-- The expansion has a word for each eight bytes of the string and the zero behind it. -/
theorem dquote_eq (buf : Word) (m : Memory) {l : List Fragment} (hl : ∀ f ∈ l, IsPart f) :
    ∃ ws, dquote buf m l =
        dquoteOf (ws.map literalOf) (stores 0 (content l) ++ [constrainOf]) ∧
      Strung (content l) ws := by
  obtain ⟨hleft, hparts⟩ := left_of_parts hl
  have h := addWord_eq l 0 [] [] (store m buf 8 tilde) [] [] [] (Packed.start buf _) rfl hparts
  rw [hleft] at h
  exact h

/-! ## Evaluation -/

theorem literalWord_literalOf (w : Word) : literalWord (literalOf w) = some w := by
  rw [literalWord, buildExpression_literalOf]

theorem mapM_literalWord (ws : List Word) : (ws.map literalOf).mapM literalWord = some ws := by
  induction ws with
  | nil => rfl
  | cons w ws ih =>
    rw [List.map_cons, List.mapM_cons, literalWord_literalOf, ih]
    rfl

/-- The bytes of the words are behind one another. -/
theorem storeWords_apply (ws : List Word) : ∀ (m : Memory) (a x : Word), 8 * ws.length ≤ 2 ^ 64 →
    storeWords m a ws x = ((ws.flatMap (bytesOf 8))[(x - a).toNat]?).getD (m x) := by
  induction ws with
  | nil => exact fun _ _ _ _ => rfl
  | cons w ws ih =>
    intro m a x hlen
    rw [List.length_cons] at hlen
    have hbytes := length_flatMap_bytesOf ws
    rw [storeWords, ih _ _ _ (by omega), List.flatMap_cons]
    have hoffset : (x - (a + 8)).toNat = (2 ^ 64 - 8 + (x - a).toNat) % 2 ^ 64 := by
      rw [← BitVec.sub_sub, BitVec.toNat_sub]
      rfl
    have hlt := (x - a).isLt
    by_cases hin : (x - a).toNat < 8
    · have hout : 8 * ws.length ≤ (x - (a + 8)).toNat := by omega
      rw [List.getElem?_eq_none (by omega), Option.getD_none, X86.store_inside _ hin,
        List.getElem?_append_left (by rw [X86.length_bytesOf]; exact hin), bytesOf_eq,
        List.getElem?_map, List.getElem?_range hin]
      rfl
    · have hsub : (x - (a + 8)).toNat = (x - a).toNat - 8 := by omega
      rw [hsub, X86.store_outside _ (by omega),
        List.getElem?_append_right (by rw [X86.length_bytesOf]; omega), X86.length_bytesOf]

section Evaluation

variable {σ : Type} {value : Fragment → σ → Word × σ}

theorem length_stringBytes (items : List Item) : ∀ s : σ,
    (stringBytes value items s).1.length = items.length := by
  induction items with
  | nil => exact fun _ => rfl
  | cons item items ih =>
    intro s
    cases item with
    | char c => exact congrArg (· + 1) (ih s)
    | embedded f => exact congrArg (· + 1) (ih _)

theorem evalInstr_setbOf {env : Token → Option Word} {base : Word}
    (henv : env dquoteStr = some base)
    (index : Word) (f : Fragment) (w : World σ) :
    evalInstr value env (setbOf index f) w =
      some ⟨setb w.mem (base + index) (value f w.rest).1, (value f w.rest).2⟩ := by
  have haddress : evalAddress env (.node [.atom invokeToken, .atom plusToken, .atom dquoteStr,
      literalOf index]) = some (base + index) := by
    rw [evalAddress, if_pos ⟨rfl, rfl⟩, henv, literalWord_literalOf]
    rfl
  rw [setbOf, evalInstr, if_pos ⟨rfl, rfl⟩, haddress]
  rfl

theorem evalDo_cons {env : Token → Option Word} {base : Word} (henv : env dquoteStr = some base)
    (index : Word) (f : Fragment) (instrs : List Fragment) (w : World σ) :
    evalDo value env (setbOf index f :: instrs) w = evalDo value env instrs
      ⟨setb w.mem (base + index) (value f w.rest).1, (value f w.rest).2⟩ := by
  have hinstr : evalInstr value env (setbOf index f) w = _ := evalInstr_setbOf henv index f w
  show (evalInstr value env (setbOf index f) w).bind _ = _
  rw [hinstr]
  rfl

theorem evalDo_constrainOf {env : Token → Option Word} {base : Word}
    (henv : env dquoteStr = some base) (w : World σ) :
    evalDo value env [constrainOf] w = some (base, w) := by
  show (if constrainToken = constrainToken then (env dquoteStr).map (·, w) else none) = _
  rw [if_pos rfl, henv]
  rfl

/-- The values take their places among the bytes that were there, and nothing else
changes. -/
theorem evalDo_stores {env : Token → Option Word} {base : Word}
    (henv : env dquoteStr = some base) (items : List Item) :
    ∀ (index : Nat) (bs : List Byte) (w : World σ), index + items.length < 2 ^ 64 →
      List.Forall₂ Item.Holds items bs →
      (∀ (j : Nat) (h : j < bs.length),
        w.mem (base + BitVec.ofNat 64 (index + j)) = bs.get ⟨j, h⟩) →
      ∃ mem, evalDo value env (stores index items ++ [constrainOf]) w =
          some (base, ⟨mem, (stringBytes value items w.rest).2⟩) ∧
        (∀ (j : Nat) (h : j < (stringBytes value items w.rest).1.length),
          mem (base + BitVec.ofNat 64 (index + j)) =
            (stringBytes value items w.rest).1.get ⟨j, h⟩) ∧
        ∀ x, (∀ j < items.length, x ≠ base + BitVec.ofNat 64 (index + j)) → mem x = w.mem x := by
  induction items with
  | nil =>
    intro index bs w _ _ _
    exact ⟨w.mem, evalDo_constrainOf henv w, fun _ h => absurd h (Nat.not_lt_zero _),
      fun _ _ => rfl⟩
  | cons item items ih =>
    intro index bs w hlen hholds hmem
    rw [List.length_cons] at hlen
    cases hholds with
    | @cons _ b _ bs hitem hrest =>
      have hplace : ∀ j < items.length, base + BitVec.ofNat 64 index ≠
          base + BitVec.ofNat 64 (index + 1 + j) := by
        intro j hj
        exact add_ofNat_ne base (by omega) (by omega) (by omega)
      have htail : ∀ (j : Nat) (h : j < bs.length),
          w.mem (base + BitVec.ofNat 64 (index + 1 + j)) = bs.get ⟨j, h⟩ := by
        intro j hj
        have h := hmem (j + 1) (Nat.succ_lt_succ hj)
        rw [show index + (j + 1) = index + 1 + j by omega] at h
        exact h
      have hlength := hrest.length_eq
      cases item with
      | char c =>
        obtain ⟨mem, heval, hbytes, hout⟩ := ih (index + 1) bs w (by omega) hrest htail
        refine ⟨mem, heval, ?_, ?_⟩
        · intro j hj
          cases j with
          | zero =>
            show mem (base + BitVec.ofNat 64 index) = BitVec.ofNat 8 c.toNat
            rw [hout _ hplace]
            exact (hmem 0 (Nat.succ_pos _)).trans hitem
          | succ j =>
            rw [show index + (j + 1) = index + 1 + j by omega]
            exact hbytes j (Nat.lt_of_succ_lt_succ hj)
        · intro x hx
          apply hout
          intro j hj
          rw [show index + 1 + j = index + (j + 1) by omega]
          exact hx (j + 1) (Nat.succ_lt_succ hj)
      | embedded f =>
        let w' : World σ := ⟨setb w.mem (base + BitVec.ofNat 64 index) (value f w.rest).1,
          (value f w.rest).2⟩
        have htail' : ∀ (j : Nat) (h : j < bs.length),
            w'.mem (base + BitVec.ofNat 64 (index + 1 + j)) = bs.get ⟨j, h⟩ := by
          intro j hj
          exact (setb_ne _ (hplace j (by omega)).symm).trans (htail j hj)
        obtain ⟨mem, heval, hbytes, hout⟩ := ih (index + 1) bs w' (by omega) hrest htail'
        refine ⟨mem, (evalDo_cons henv _ f _ w).trans heval, ?_, ?_⟩
        · intro j hj
          cases j with
          | zero =>
            show mem (base + BitVec.ofNat 64 index) = (value f w.rest).1.setWidth 8
            rw [hout _ hplace]
            exact setb_self ..
          | succ j =>
            rw [show index + (j + 1) = index + 1 + j by omega]
            exact hbytes j (Nat.lt_of_succ_lt_succ hj)
        · intro x hx
          have hne : x ≠ base + BitVec.ofNat 64 index := hx 0 (Nat.succ_pos _)
          have hmem' := hout x (by
            intro j hj
            rw [show index + 1 + j = index + (j + 1) by omega]
            exact hx (j + 1) (Nat.succ_lt_succ hj))
          exact hmem'.trans (setb_ne _ hne)

/-- The instructions that the macro makes store at the places of the embedded fragments. -/
theorem mem_stores {items : List Item} : ∀ {index : Nat} {instr : Fragment},
    instr ∈ stores index items → ∃ i f, instr = setbOf (BitVec.ofNat 64 i) f ∧
      i < index + items.length := by
  induction items with
  | nil => exact fun h => absurd h List.not_mem_nil
  | cons item items ih =>
    intro index instr h
    rw [List.length_cons]
    cases item with
    | char c =>
      have h : instr ∈ stores (index + 1) items := h
      obtain ⟨i, f, hinstr, hi⟩ := ih h
      exact ⟨i, f, hinstr, by omega⟩
    | embedded g =>
      rcases List.mem_cons.mp h with hhead | htail
      · exact ⟨index, g, hhead, by omega⟩
      · obtain ⟨i, f, hinstr, hi⟩ := ih htail
        exact ⟨i, f, hinstr, by omega⟩

theorem evalLet_dquoteOf (base : Word) (ws : List Word) (instrs : List Fragment) (w : World σ) :
    evalLet value base (dquoteOf (ws.map literalOf) instrs) w =
      evalDo value (fun y => if y = dquoteStr then some base else none) instrs
        ⟨storeWords w.mem base ws, w.rest⟩ := by
  rw [dquoteOf, evalLet, if_pos ⟨rfl, rfl, rfl⟩, mapM_literalWord]
  rfl

/-- The expansion of `"` has as many words as its string needs and stores inside of them, and
it evaluates to the string: its bytes and a zero are where the words are, and nothing else is
written. -/
theorem dquote_string (buf : Word) (m : Memory) {l : List Fragment} (hl : ∀ f ∈ l, IsPart f)
    (hlen : (content l).length < 2 ^ 64) :
    (∃ exprs instrs, dquote buf m l = dquoteOf exprs (instrs ++ [constrainOf]) ∧
      exprs.length = ((content l).length + 1 + 7) / 8 ∧
      ∀ instr ∈ instrs, ∃ (index : Word) (f : Fragment), instr = setbOf index f ∧
        index.toNat < 8 * exprs.length) ∧
    ∀ {σ : Type} (value : Fragment → σ → Word × σ) (base : Word) (w : World σ),
      let string := (stringBytes value (content l) w.rest).1 ++ [0]
      ∃ mem, evalLet value base (dquote buf m l) w =
          some (base, ⟨mem, (stringBytes value (content l) w.rest).2⟩) ∧
        (∀ (i : Nat) (h : i < string.length),
          mem (base + BitVec.ofNat 64 i) = string.get ⟨i, h⟩) ∧
        ∀ x, 8 * ((string.length + 7) / 8) ≤ (x - base).toNat → mem x = w.mem x := by
  obtain ⟨ws, hdquote, hwords, bs, junk, hholds, hbytes⟩ := dquote_eq buf m hl
  constructor
  · refine ⟨ws.map literalOf, stores 0 (content l), hdquote, ?_, ?_⟩
    · rw [List.length_map]
      omega
    · intro instr hinstr
      obtain ⟨i, f, heq, hi⟩ := mem_stores hinstr
      refine ⟨BitVec.ofNat 64 i, f, heq, ?_⟩
      rw [List.length_map, BitVec.toNat_ofNat, Nat.mod_eq_of_lt (by omega)]
      omega
  · intro σ value base w string
    have hlength := hholds.length_eq
    have hstring : string.length = (content l).length + 1 := by
      show ((stringBytes value (content l) w.rest).1 ++ [0]).length = _
      rw [List.length_append, length_stringBytes]
      rfl
    have hstored := fun x => storeWords_apply ws w.mem base x (by omega)
    rw [hbytes] at hstored
    have hplace : ∀ i < 2 ^ 64, (base + BitVec.ofNat 64 i - base).toNat = i :=
      fun i hi => X86.toNat_add_sub base hi
    obtain ⟨mem, heval, hvalues, hout⟩ := @evalDo_stores _ value
      (fun y => if y = dquoteStr then some base else none) base (if_pos rfl) (content l) 0 bs
      ⟨storeWords w.mem base ws, w.rest⟩ (by omega) hholds (by
        intro j hj
        show storeWords w.mem base ws (base + BitVec.ofNat 64 (0 + j)) = _
        rw [Nat.zero_add, hstored, hplace j (by omega), List.getElem?_append_left hj,
          List.getElem?_eq_getElem hj]
        rfl)
    refine ⟨mem, ?_, ?_, ?_⟩
    · rw [hdquote, evalLet_dquoteOf]
      exact heval
    · intro i hi
      rw [hstring] at hi
      by_cases hlast : i < (content l).length
      · have hi' : i < (stringBytes value (content l) w.rest).1.length := by
          rw [length_stringBytes]
          exact hlast
        have hvalue := hvalues i hi'
        rw [Nat.zero_add] at hvalue
        rw [hvalue]
        show (stringBytes value (content l) w.rest).1[i] =
          ((stringBytes value (content l) w.rest).1 ++ [0])[i]
        rw [List.getElem_append_left]
      · have heq : i = (content l).length := by omega
        subst heq
        rw [hout]
        · show storeWords w.mem base ws _ = _
          have hzero : (content l).length - bs.length = 0 := by omega
          rw [hstored, hplace _ hlen, List.getElem?_append_right (Nat.le_of_eq hlength.symm),
            hzero]
          simp [string, length_stringBytes]
        · intro j hj
          rw [Nat.zero_add]
          exact add_ofNat_ne base hlen (by omega) (by omega)
    · intro x hx
      rw [hstring] at hx
      rw [hout]
      · show storeWords w.mem base ws x = _
        have hall := congrArg List.length hbytes
        rw [length_flatMap_bytesOf] at hall
        rw [hstored, List.getElem?_eq_none (by omega)]
        rfl
      · intro j hj heq
        rw [heq, Nat.zero_add, hplace j (by omega)] at hx
        omega

/-- Two tokens and a line feed. -/
theorem dquote_string_aB :
    let l : List Fragment :=
      [.atom ⟨['a'], by decide⟩, .atom ⟨['B'], by decide⟩, .node [.atom ⟨['l', 'f'], by decide⟩]]
    ∃ mem, evalLet (fun _ (s : Unit) => (10, s)) 4096 (dquote 0 (fun _ => 0) l) ⟨fun _ => 0, ()⟩ =
        some (4096, ⟨mem, ()⟩) ∧
      mem 4096 = 97 ∧ mem 4097 = 32 ∧ mem 4098 = 66 ∧ mem 4099 = 10 ∧ mem 4100 = 0 := by
  intro l
  have hl : ∀ f ∈ l, IsPart f := by
    intro f hf
    simp only [l, List.mem_cons, List.not_mem_nil, or_false] at hf
    rcases hf with rfl | rfl | rfl
    · exact fun c hc => List.mem_singleton.mp hc ▸ rfl
    · exact fun c hc => List.mem_singleton.mp hc ▸ rfl
    · exact List.cons_ne_nil _ _
  obtain ⟨mem, heval, hbytes, -⟩ :=
    (dquote_string 0 (fun _ => 0) hl (by decide)).2 (fun _ (s : Unit) => (10, s)) 4096
      ⟨fun _ => 0, ()⟩
  exact ⟨mem, heval, hbytes 0 (by decide), hbytes 1 (by decide), hbytes 2 (by decide),
    hbytes 3 (by decide), hbytes 4 (by decide)⟩

end Evaluation

end L2.Macros
