import Mathlib.Data.List.Forall2
import L2.X86.Memory

/-!
# Object files in memory

`load` reads the sections of an object file into memory, makes addresses of the offsets,
keeps the addends of the relocations and does these.  `mutate_bindings` gives symbols the
addresses of bindings with their names and does the relocations again.

What C leaves undefined is `none`, and so is a jump to the handler.
-/

namespace L2.Bootstrap.ObjectFile

open X86 (Word Byte Memory)

structure Shdr where
  shType : Nat
  shOffset : Nat
  shSize : Nat
  shLink : Nat
  shInfo : Nat
  shEntsize : Nat
  deriving DecidableEq

structure Sym where
  stName : Nat
  stInfo : Byte
  stShndx : Nat
  stValue : Word
  stSize : Word
  deriving DecidableEq

structure Rela where
  rOffset : Word
  rInfo : Word
  rAddend : Word
  deriving DecidableEq

/-- What the arrays of an `Object` have for one section: its header, its symbols if it is
a symbol table, its relocations and their addends if it has such, and its address. -/
structure Section extends Shdr where
  syms : List Sym
  relas : List Rela
  addends : List Word
  seg : Word
  deriving DecidableEq

abbrev Object := List Section

@[match_pattern] abbrev R_X86_64_NONE : Nat := 0
@[match_pattern] abbrev R_X86_64_64 : Nat := 1
@[match_pattern] abbrev R_X86_64_PC32 : Nat := 2
@[match_pattern] abbrev R_X86_64_GLOB_DAT : Nat := 6
@[match_pattern] abbrev R_X86_64_JUMP_SLOT : Nat := 7
@[match_pattern] abbrev R_X86_64_32 : Nat := 10
@[match_pattern] abbrev R_X86_64_32S : Nat := 11
@[match_pattern] abbrev R_X86_64_16 : Nat := 12
@[match_pattern] abbrev R_X86_64_PC16 : Nat := 13
@[match_pattern] abbrev R_X86_64_8 : Nat := 14
@[match_pattern] abbrev R_X86_64_PC8 : Nat := 15
@[match_pattern] abbrev R_X86_64_SIZE32 : Nat := 32
@[match_pattern] abbrev R_X86_64_SIZE64 : Nat := 33

abbrev SHT_SYMTAB : Nat := 2
abbrev SHT_RELA : Nat := 4
abbrev SHT_NOBITS : Nat := 8
abbrev SHT_REL : Nat := 9

abbrev SHN_UNDEF : Nat := 0
abbrev SHN_ABS : Nat := 0xFFF1
abbrev SHN_COMMON : Nat := 0xFFF2

abbrev STB_GLOBAL : Byte := 1
abbrev STB_WEAK : Byte := 2

/-- `ELF64_R_SYM` -/
def Rela.symbol (rela : Rela) : Nat := (rela.rInfo >>> 32).toNat

/-- `ELF64_R_TYPE` -/
def Rela.type (rela : Rela) : Nat := (rela.rInfo &&& 0xffffffff).toNat

/-- `ELF64_ST_BIND` -/
def Sym.bind (sym : Sym) : Byte := sym.stInfo >>> 4

def Shdr.isRelocations (shdr : Shdr) : Bool := shdr.shType = SHT_REL ∨ shdr.shType = SHT_RELA

/-- `pad_size` -/
def padSize (x nearest : Word) : Word :=
  let rem := x % nearest
  x + if rem = 0 then 0 else nearest - rem

/-- What `region_alloc` sets aside for a section.  The sizes behind `2 ^ 64 - 8` are padded
to 0. -/
def Shdr.allocated (shdr : Shdr) : Nat := (padSize (BitVec.ofNat 64 shdr.shSize) 8).toNat

/-- The bytes of a section that have been set aside. -/
def Shdr.segmentSize (shdr : Shdr) : Nat := min shdr.shSize shdr.allocated

theorem le_padSize {x : Word} (h : x.toNat ≤ 2 ^ 64 - 8) : x.toNat ≤ (padSize x 8).toNat := by
  have hrem : (x % 8).toNat = x.toNat % 8 := BitVec.toNat_umod
  unfold padSize
  by_cases hzero : x % 8 = 0
  · show _ ≤ (x + if x % 8 = 0 then 0 else 8 - x % 8).toNat
    rw [if_pos hzero]
    exact Nat.le_of_eq (congrArg BitVec.toNat (BitVec.add_zero x).symm)
  · have hne : x.toNat % 8 ≠ 0 := by
      intro h
      exact hzero (BitVec.eq_of_toNat_eq (hrem.trans h))
    have hpad : (8 - x % 8).toNat = 8 - x.toNat % 8 := by
      rw [BitVec.toNat_sub, hrem, show (8 : Word).toNat = 8 from rfl]
      omega
    show _ ≤ (x + if x % 8 = 0 then 0 else 8 - x % 8).toNat
    rw [if_neg hzero, BitVec.toNat_add, hpad]
    omega

theorem Shdr.segmentSize_eq {shdr : Shdr} (h : shdr.shSize ≤ 2 ^ 64 - 8) :
    shdr.segmentSize = shdr.shSize := by
  have hsize : (BitVec.ofNat 64 shdr.shSize).toNat = shdr.shSize := by
    rw [BitVec.toNat_ofNat, Nat.mod_eq_of_lt (by omega)]
  have hle := le_padSize (x := BitVec.ofNat 64 shdr.shSize) (by omega)
  unfold segmentSize allocated
  omega

def Object.sym (obj : Object) (link index : Nat) : Option Sym := do (← obj[link]?).syms[index]?

/-! ## Relocations -/

/-- The address is one of a loaded section. -/
def Object.owns (obj : Object) (a : Word) : Bool :=
  obj.any fun sec => (a - sec.seg).toNat < sec.segmentSize

/-- `memcpy` of the low bytes of `temp`.  It is not defined outside of the object. -/
def memcpy (obj : Object) (location temp : Word) (n : Nat) (mem : Memory) : Option Memory :=
  if ∀ i < n, obj.owns (location + BitVec.ofNat 64 i) then some (X86.store mem location n temp)
  else none

/-- One round of the inner loop of `do_relocations`. -/
def doRelocation (obj : Object) (link : Nat) (rela : Rela) (addend : Word) (mem : Memory) :
    Option Memory :=
  let sym := obj.sym link rela.symbol
  let location := rela.rOffset
  match rela.type with
  | R_X86_64_NONE => some mem
  | R_X86_64_64 => do memcpy obj location ((← sym).stValue + addend) 8 mem
  | R_X86_64_PC32 => do memcpy obj location ((← sym).stValue + addend - rela.rOffset) 4 mem
  | R_X86_64_GLOB_DAT => do memcpy obj location (← sym).stValue 8 mem
  | R_X86_64_JUMP_SLOT => do memcpy obj location (← sym).stValue 8 mem
  | R_X86_64_32 => do memcpy obj location ((← sym).stValue + addend) 4 mem
  | R_X86_64_32S => do memcpy obj location ((← sym).stValue + addend) 4 mem
  | R_X86_64_16 => do memcpy obj location ((← sym).stValue + addend) 2 mem
  | R_X86_64_PC16 => do memcpy obj location ((← sym).stValue + addend - rela.rOffset) 2 mem
  | R_X86_64_8 => do memcpy obj location ((← sym).stValue + addend) 1 mem
  | R_X86_64_PC8 => do memcpy obj location ((← sym).stValue + addend - rela.rOffset) 1 mem
  | R_X86_64_SIZE32 => do memcpy obj location ((← sym).stSize + addend) 4 mem
  | R_X86_64_SIZE64 => do memcpy obj location ((← sym).stSize + addend) 8 mem
  | _ => some mem

/-- `do_relocations` -/
def doRelocations (obj : Object) (mem : Memory) : Option Memory :=
  obj.foldlM (fun mem sec =>
    if sec.isRelocations then
      (sec.relas.zip sec.addends).foldlM
        (fun mem (rela, addend) => doRelocation obj sec.shLink rela addend mem) mem
    else some mem) mem

/-- The addend of a relocation of a `SHT_REL` section. -/
def storedAddend (mem : Memory) (rela : Rela) : Option Word :=
  match rela.type with
  | R_X86_64_8 | R_X86_64_PC8 => some (X86.load mem rela.rOffset 1)
  | R_X86_64_16 | R_X86_64_PC16 => some (X86.load mem rela.rOffset 2)
  | R_X86_64_PC32 | R_X86_64_32 | R_X86_64_32S | R_X86_64_SIZE32 =>
    some (X86.load mem rela.rOffset 4)
  | R_X86_64_64 | R_X86_64_SIZE64 | R_X86_64_GLOB_DAT | R_X86_64_JUMP_SLOT =>
    some (X86.load mem rela.rOffset 8)
  | _ => none

/-- `store_addends` -/
def storeAddends (mem : Memory) (obj : Object) : Option Object :=
  obj.mapM fun sec => do
    if sec.shType = SHT_RELA then
      some { sec with addends := sec.relas.map Rela.rAddend }
    else if sec.shType = SHT_REL then
      some { sec with addends := ← sec.relas.mapM (storedAddend mem) }
    else some sec

/-! ## Loading -/

def addressedRela (obj : Object) (info : Nat) (rela : Rela) : Option Rela := do
  some { rela with rOffset := (← obj[info]?).seg + rela.rOffset }

def addressedSym (obj : Object) (sym : Sym) : Option Sym :=
  if sym.stShndx = SHN_ABS then some sym
  else if sym.stShndx = SHN_COMMON ∨ sym.stShndx = SHN_UNDEF then some { sym with stValue := 0 }
  else do some { sym with stValue := (← obj[sym.stShndx]?).seg + sym.stValue }

/-- `offsets_to_addresses` -/
def offsetsToAddresses (obj : Object) : Option Object :=
  obj.mapM fun sec => do
    if sec.isRelocations then
      some { sec with relas := ← sec.relas.mapM (addressedRela obj sec.shInfo) }
    else if sec.shType = SHT_SYMTAB then
      some { sec with syms := ← sec.syms.mapM (addressedSym obj) }
    else some sec

/-- A little-endian number in the file. -/
def readNumber (objsrc : List Byte) (pos n : Nat) : Option Nat := do
  some (← X86.takeBytes n (objsrc.drop pos)).1.toNat

def readShdr (objsrc : List Byte) (pos : Nat) : Option Shdr := do
  some {
    shType := ← readNumber objsrc (pos + 4) 4
    shOffset := ← readNumber objsrc (pos + 24) 8
    shSize := ← readNumber objsrc (pos + 32) 8
    shLink := ← readNumber objsrc (pos + 40) 4
    shInfo := ← readNumber objsrc (pos + 44) 4
    shEntsize := ← readNumber objsrc (pos + 56) 8 }

def readSym (mem : Memory) (a : Word) : Sym where
  stName := (X86.load mem a 4).toNat
  stInfo := mem (a + 4)
  stShndx := (X86.load mem (a + 6) 2).toNat
  stValue := X86.load mem (a + 8) 8
  stSize := X86.load mem (a + 16) 8

/-- An entry of a relocation section.  One of a `SHT_REL` section has no addend. -/
def readRela (shType : Nat) (mem : Memory) (a : Word) : Rela where
  rOffset := X86.load mem a 8
  rInfo := X86.load mem (a + 8) 8
  rAddend := if shType = SHT_RELA then X86.load mem (a + 16) 8 else 0

/-- The entries of a table, which all have to be in it. -/
def readTable {α : Type} (read : Word → α) (entrySize : Nat) (shdr : Shdr) (seg : Word) :
    Option (List α) :=
  if shdr.shEntsize = 0 then none
  else (List.range (shdr.shSize / shdr.shEntsize)).mapM fun i =>
    if shdr.shEntsize * i + entrySize ≤ shdr.shSize then
      some (read (seg + BitVec.ofNat 64 (shdr.shEntsize * i)))
    else none

/-- One round of the loop of `read_object`, for a section that `region_alloc` has given the
address `seg`.  A copy of no bytes reads nothing, whatever the offset. -/
def readSection (objsrc : List Byte) (pos : Nat) (seg : Word) (mem : Memory) :
    Option (Section × Memory) := do
  let shdr ← readShdr objsrc pos
  let mem ←
    if shdr.shType = SHT_NOBITS then some mem
    else if shdr.shSize = 0 ∨ shdr.shOffset + shdr.shSize ≤ objsrc.length then
      some fun a => if (a - seg).toNat < shdr.shSize
        then objsrc.getD (shdr.shOffset + (a - seg).toNat) 0 else mem a
    else none
  let syms ← if shdr.shType = SHT_SYMTAB then readTable (readSym mem) 24 shdr seg else some []
  let relas ←
    if shdr.isRelocations then
      readTable (readRela shdr.shType mem) (if shdr.shType = SHT_RELA then 24 else 16) shdr seg
    else some []
  some ({ shdr with syms, relas, addends := [], seg }, mem)

/-- The loop of `read_object`. -/
def readSections (objsrc : List Byte) (shoff shentsize : Nat) (place : Nat → Word) :
    List Nat → Memory → Option (Object × Memory)
  | [], mem => some ([], mem)
  | i :: is, mem => do
    let (sec, mem) ← readSection objsrc (shoff + shentsize * i) (place i) mem
    let (obj, mem) ← readSections objsrc shoff shentsize place is mem
    some (sec :: obj, mem)

/-- `read_object`, where `region_alloc` gives section `i` the address `place i`. -/
def readObject (objsrc : List Byte) (place : Nat → Word) (mem : Memory) :
    Option (Object × Memory) := do
  if objsrc.length < 64 ∨ objsrc.take 6 ≠ [0x7F, 0x45, 0x4C, 0x46, 2, 1] then none
  else
    let shoff ← readNumber objsrc 40 8
    let shentsize ← readNumber objsrc 58 2
    let shnum ← readNumber objsrc 60 2
    readSections objsrc shoff shentsize place (List.range shnum) mem

def load (objsrc : List Byte) (place : Nat → Word) (mem : Memory) : Option (Object × Memory) := do
  let (obj, mem) ← readObject objsrc place mem
  let obj ← offsetsToAddresses obj
  let obj ← storeAddends mem obj
  some (obj, ← doRelocations obj mem)

/-! ## Mutation -/

/-- A `struct binding`. -/
structure Binding where
  name : List Byte
  address : Word

/-- `strcmp` finds no difference between the string in memory and the name. -/
def strcmp (mem : Memory) (a : Word) : List Byte → Bool
  | [] => mem a = 0
  | c :: name => mem a = c ∧ (c = 0 ∨ strcmp mem (a + 1) name)

/-- `name_of` -/
def nameOf (obj : Object) (shdr : Shdr) (sym : Sym) : Option Word := do
  some ((← obj[shdr.shLink]?).seg + BitVec.ofNat 64 sym.stName)

/-- The symbol, whose name is at `name`, is one that the update is for. -/
def Binding.updates (update : Binding) (mem : Memory) (name : Word) (sym : Sym) : Bool :=
  strcmp mem name update.name ∧
    (sym.stShndx = SHN_UNDEF ∨ sym.stShndx = SHN_COMMON) ∧
    (sym.bind = STB_GLOBAL ∨ sym.bind = STB_WEAK)

def mutateSym (obj : Object) (mem : Memory) (update : Binding) (shdr : Shdr) (sym : Sym) :
    Option Sym := do
  let name ← nameOf obj shdr sym
  some (if update.updates mem name sym then { sym with stValue := update.address } else sym)

/-- The loops of `mutate_bindings` for one update.  The first symbol of a table is left
out. -/
def mutateSyms (obj : Object) (mem : Memory) (update : Binding) : Option Object :=
  obj.mapM fun sec => do
    if sec.shType = SHT_SYMTAB then
      let syms ← (sec.syms.drop 1).mapM (mutateSym obj mem update sec.toShdr)
      some { sec with syms := sec.syms.take 1 ++ syms }
    else some sec

/-- `mutate_bindings` -/
def mutateBindings (updates : List Binding) (obj : Object) (mem : Memory) :
    Option (Object × Memory) := do
  let obj ← updates.foldlM (fun obj update => mutateSyms obj mem update) obj
  some (obj, ← doRelocations obj mem)

/-- Calls of `mutate_bindings` one after the other. -/
def mutateAll : List (List Binding) → Object → Memory → Option (Object × Memory)
  | [], obj, mem => some (obj, mem)
  | updates :: calls, obj, mem => do
    let (obj, mem) ← mutateBindings updates obj mem
    mutateAll calls obj mem

end L2.Bootstrap.ObjectFile
