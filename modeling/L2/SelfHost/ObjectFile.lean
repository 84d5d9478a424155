import L2.Bootstrap.ObjectFile

/-!
# Object files in the self-hosted compiler

The loader of `x86-64-object.l2` has the objects, tables and loops of the one in C.  It
checks less of the header, it takes the addends of relocations without one from elsewhere,
and its relocations check that a value fits its field.  A hash table of bindings takes the
place of a list.

A run ends in a jump to the handler that was given, or where the machine is asked for what
is not there.
-/

namespace L2.SelfHost.ObjectFile

open X86 (Word Byte Memory)
open Bootstrap.ObjectFile

inductive Fault where
  /-- A jump to the handler. -/
  | handler
  | undefined
  deriving DecidableEq

def defined {α : Type} : Option α → Except Fault α
  | none => .error .undefined
  | some a => .ok a

/-! ## Relocations -/

/-- `assert-byte`, `assert-half` and `assert-word` -/
def assertUnsigned (mask val : Word) : Except Fault Word :=
  if val = val &&& mask then .ok val else .error .handler

/-- `assert-sbyte`, `assert-shalf` and `assert-sword` -/
def assertSigned (low high val : Word) : Except Fault Word :=
  if val = val &&& low ∨ val = val ||| high then .ok val else .error .handler

def assertByte : Word → Except Fault Word := assertUnsigned 0x00000000000000FF
def assertSbyte : Word → Except Fault Word := assertSigned 0x000000000000007F 0xFFFFFFFFFFFFFF80
def assertHalf : Word → Except Fault Word := assertUnsigned 0x000000000000FFFF
def assertShalf : Word → Except Fault Word := assertSigned 0x0000000000007FFF 0xFFFFFFFFFFFF8000
def assertWord : Word → Except Fault Word := assertUnsigned 0x00000000FFFFFFFF
def assertSword : Word → Except Fault Word := assertSigned 0x000000007FFFFFFF 0xFFFFFFFF80000000

def store (obj : Object) (target val : Word) (n : Nat) (mem : Memory) : Except Fault Memory :=
  defined (memcpy obj target val n mem)

/-- `do-relocation`, for the symbol that the relocation has in the table `link`. -/
def doRelocation (obj : Object) (link : Nat) (rela : Rela) (addend : Word) (mem : Memory) :
    Except Fault Memory :=
  let sym := defined (obj.sym link rela.symbol)
  let target := rela.rOffset
  match rela.type with
  | R_X86_64_NONE => .ok mem
  | R_X86_64_64 => do store obj target ((← sym).stValue + addend) 8 mem
  | R_X86_64_PC32 => do
    store obj target (← assertSword ((← sym).stValue + addend - rela.rOffset)) 4 mem
  | R_X86_64_GLOB_DAT => do store obj target (← sym).stValue 8 mem
  | R_X86_64_JUMP_SLOT => do store obj target (← sym).stValue 8 mem
  | R_X86_64_32 => do store obj target (← assertWord ((← sym).stValue + addend)) 4 mem
  | R_X86_64_32S => do store obj target (← assertSword ((← sym).stValue + addend)) 4 mem
  | R_X86_64_16 => do store obj target (← assertHalf ((← sym).stValue + addend)) 2 mem
  | R_X86_64_PC16 => do
    store obj target (← assertShalf ((← sym).stValue + addend - rela.rOffset)) 2 mem
  | R_X86_64_8 => do store obj target (← assertByte ((← sym).stValue + addend)) 1 mem
  | R_X86_64_PC8 => do
    store obj target (← assertSbyte ((← sym).stValue + addend - rela.rOffset)) 1 mem
  | R_X86_64_SIZE32 => do store obj target ((← sym).stSize + addend) 4 mem
  | R_X86_64_SIZE64 => do store obj target ((← sym).stSize + addend) 8 mem
  | _ => .error .handler

/-- A round of the outer loop of `do-relocations`. -/
def relocateSection (obj : Object) (mem : Memory) (sec : Section) : Except Fault Memory :=
  if sec.isRelocations then
    (sec.relas.zip sec.addends).foldlM
      (fun mem e => doRelocation obj sec.shLink e.1 e.2 mem) mem
  else .ok mem

/-- `do-relocations` -/
def doRelocations (obj : Object) (mem : Memory) : Except Fault Memory :=
  obj.foldlM (relocateSection obj) mem

/-! ## Loading -/

/-- A cell of eight bytes with the low `n` bytes of `val` put in. -/
def overwrite (n : Nat) (val cell : Word) : Word :=
  X86.load (X86.store (fun a => X86.byte cell a.toNat) 0 n val) 0 8

/-- The addend that is kept for a relocation of a `sht-rel` section, in a cell that
`region-alloc` has made and whose value is `cell`.  `set1b` and its like store the value they
are given, and they are given `r-offset`. -/
def storedAddend (cell : Word) (rela : Rela) : Except Fault Word :=
  match rela.type with
  | R_X86_64_8 | R_X86_64_PC8 => .ok (overwrite 1 rela.rOffset cell)
  | R_X86_64_16 | R_X86_64_PC16 => .ok (overwrite 2 rela.rOffset cell)
  | R_X86_64_PC32 | R_X86_64_32 | R_X86_64_32S | R_X86_64_SIZE32 =>
    .ok (overwrite 4 rela.rOffset cell)
  | R_X86_64_64 | R_X86_64_SIZE64 | R_X86_64_GLOB_DAT | R_X86_64_JUMP_SLOT =>
    .ok (overwrite 8 rela.rOffset cell)
  | _ => .error .handler

/-- The addends of the relocations from number `i` on. -/
def storedAddends (cells : Nat → Word) : Nat → List Rela → Except Fault (List Word)
  | _, [] => .ok []
  | i, rela :: relas => do
    let addend ← storedAddend (cells i) rela
    let addends ← storedAddends cells (i + 1) relas
    .ok (addend :: addends)

/-- A round of the outer loop of `store-addends`. -/
def storeSection (cells : Nat → Word) (sec : Section) : Except Fault Section :=
  if sec.shType = SHT_RELA then .ok { sec with addends := sec.relas.map Rela.rAddend }
  else if sec.shType = SHT_REL then do
    let addends ← storedAddends cells 0 sec.relas
    .ok { sec with addends }
  else .ok sec

/-- `store-addends` for the sections from number `i` on, where `cells` are the values that
the cells for the addends have before. -/
def storeAddends (cells : Nat → Nat → Word) : Nat → Object → Except Fault Object
  | _, [] => .ok []
  | i, sec :: obj => do
    let sec ← storeSection (cells i) sec
    let obj ← storeAddends cells (i + 1) obj
    .ok (sec :: obj)

/-- `read-object`, whose loop is the one of `read_object`. -/
def readObject (objsrc : List Byte) (place : Nat → Word) (mem : Memory) :
    Except Fault (Object × Memory) :=
  if objsrc.length < 64 then .error .handler
  else defined do
    let shoff ← readNumber objsrc 40 8
    let shentsize ← readNumber objsrc 58 2
    let shnum ← readNumber objsrc 60 2
    readSections objsrc shoff shentsize place (List.range shnum) mem

/-- `load`, whose `offsets-to-addresses` is the one of the loader in C. -/
def load (objsrc : List Byte) (place : Nat → Word) (cells : Nat → Nat → Word) (mem : Memory) :
    Except Fault (Object × Memory) := do
  let (obj, mem) ← readObject objsrc place mem
  let obj ← defined (offsetsToAddresses obj)
  let obj ← storeAddends cells 0 obj
  let mem ← doRelocations obj mem
  .ok (obj, mem)

/-! ## Mutation -/

/-- A hash table of bindings, which has one binding for a name. -/
structure Updates where
  bindings : List Binding
  distinct : (bindings.map fun update => update.name.takeWhile (· ≠ 0)).Nodup

/-- `ht-contains`, for the name at an address. -/
def Updates.find? (updates : Updates) (mem : Memory) (name : Word) : Option Binding :=
  updates.bindings.find? fun update => strcmp mem name update.name

/-- The symbol is one that can be given an address. -/
def isMutable (sym : Sym) : Bool :=
  (sym.stShndx = SHN_UNDEF ∨ sym.stShndx = SHN_COMMON) ∧
    (sym.bind = STB_GLOBAL ∨ sym.bind = STB_WEAK)

/-- The address that a symbol is given, its name being at `name`. -/
def Updates.address? (updates : Updates) (mem : Memory) (name : Word) (sym : Sym) : Option Word :=
  if isMutable sym then (updates.find? mem name).map Binding.address else none

def mutateSym (obj : Object) (mem : Memory) (updates : Updates) (shdr : Shdr) (sym : Sym) :
    Option Sym := do
  let name ← nameOf obj shdr sym
  some { sym with stValue := (updates.address? mem name sym).getD sym.stValue }

/-- The loops of `mutate-bindings`. -/
def mutateSyms (obj : Object) (mem : Memory) (updates : Updates) : Option Object :=
  obj.mapM fun sec =>
    if sec.shType = SHT_SYMTAB then
      ((sec.syms.drop 1).mapM (mutateSym obj mem updates sec.toShdr)).map fun syms =>
        { sec with syms := sec.syms.take 1 ++ syms }
    else some sec

/-- `mutate-bindings` -/
def mutateBindings (updates : Updates) (obj : Object) (mem : Memory) :
    Except Fault (Object × Memory) := do
  let obj ← defined (mutateSyms obj mem updates)
  let mem ← doRelocations obj mem
  .ok (obj, mem)

/-- Calls of `mutate-bindings` one after the other. -/
def mutateAll : List Updates → Object → Memory → Except Fault (Object × Memory)
  | [], obj, mem => .ok (obj, mem)
  | updates :: calls, obj, mem => do
    let (obj, mem) ← mutateBindings updates obj mem
    mutateAll calls obj mem

end L2.SelfHost.ObjectFile
