import L2.Bootstrap.Assembler
import L2.Bootstrap.FrameLayout
import L2.Bootstrap.ObjectFile

/-!
# Writing object files

`write_elf` measures its arrays, fills the symbol table and the string table, assembles the
code, and writes the sections behind their headers.  `load_program` loads the file and gives
the bindings their addresses.

A write outside of an array is `none`, and so is a relocation for a binding that has no
symbol.  What the arrays hold before they are written to is a parameter.
-/

namespace L2.Bootstrap

open X86 (Word Byte Memory bytesOf)
open ObjectFile (Shdr Sym SHT_SYMTAB SHT_RELA SHT_NOBITS SHN_UNDEF STB_GLOBAL R_X86_64_64
  R_X86_64_PC32)

/-- A string of C: the bytes before the one that ends it. -/
structure CString where
  bytes : List Byte
  ends : 0 ∉ bytes
  deriving DecidableEq

/-- What `strcpy` copies. -/
def CString.stored (s : CString) : List Byte := s.bytes ++ [0]

inductive BindingAugScope where
  | localScope
  | globalScope
  deriving DecidableEq

inductive BindingAugState where
  | undefinedState
  | definedState
  deriving DecidableEq

/-- What `compile_program` gives to `write_elf`, with what this reads in the bindings. -/
structure Assembly (β : Type) where
  generatedExpressions : List (Instruction β)
  undefinedBindings : List β
  staticBindings : List β
  name : β → Option CString
  type : β → BindingAugType
  scope : β → BindingAugScope
  state : β → BindingAugState
  size : β → Nat

variable {β : Type}

/-- The bindings of the `LABEL` instructions. -/
def Assembly.labels (p : Assembly β) : List β := Bootstrap.labels p.generatedExpressions

/-! ## Sizes

The sizes are `int`s.  They are what is said here as long as `maxElfSize` is below `2 ^ 31`. -/

def maxInstrLen : Nat := 15
def maxInstrFields : Nat := 2
def elfAlignment : Nat := 8
def shCount : Nat := 7

def chars (cs : List Char) : List Byte := cs.map fun c => BitVec.ofNat 8 c.toNat

def shstrtabName : List Byte := chars ['.', 's', 'h', 's', 't', 'r', 't', 'a', 'b']
def textName : List Byte := chars ['.', 't', 'e', 'x', 't']
def strtabName : List Byte := chars ['.', 's', 't', 'r', 't', 'a', 'b']
def symtabName : List Byte := chars ['.', 's', 'y', 'm', 't', 'a', 'b']
def bssName : List Byte := chars ['.', 'b', 's', 's']
def relaTextName : List Byte := chars ['.', 'r', 'e', 'l', 'a', '.', 't', 'e', 'x', 't']

/-- `SHSTRTAB`, up to what `strvlen` counts. -/
def shstrtab : List Byte :=
  [0] ++ shstrtabName ++ [0] ++ textName ++ [0] ++ strtabName ++ [0] ++ symtabName ++ [0] ++
    bssName ++ [0] ++ relaTextName ++ [0]

/-- What a name takes in the string table. -/
def nameSize (name : Option CString) : Nat := name.elim 0 fun s => s.bytes.length + 1

section

variable (p : Assembly β)

/-- `measure_strtab` -/
def measureStrtab : Nat :=
  1 + (p.undefinedBindings.map fun bndg => nameSize (p.name bndg)).sum +
    (p.staticBindings.map fun bndg => nameSize (p.name bndg)).sum +
    (p.labels.map fun bndg => nameSize (p.name bndg)).sum

/-- `measure_symtab` -/
def measureSymtab : Nat :=
  1 + (p.undefinedBindings.length + p.staticBindings.length) + p.labels.length

def maxTextSecLen : Nat := padSize (maxInstrLen * p.generatedExpressions.length) elfAlignment

def maxRelaSecLen : Nat := maxInstrFields * p.generatedExpressions.length * 24

/-- `max_elf_size` -/
def maxElfSize : Nat :=
  64 + 64 * shCount + padSize shstrtab.length elfAlignment +
    padSize (maxInstrLen * p.generatedExpressions.length) elfAlignment +
    padSize (measureStrtab p) elfAlignment + 24 * measureSymtab p +
    24 * maxInstrFields * p.generatedExpressions.length

end

/-! ## Symbols -/

/-- What `write_elf` has put into the arrays `syms` and `strtab`, and into the bindings: their
offsets, and the indices of the symbols that they have as their contexts. -/
structure SymbolTables (β : Type) where
  syms : List Sym
  strtab : List Byte
  bssPtr : Nat
  offset : β → Word
  context : β → Option Nat

/-- `ELF64_ST_INFO` -/
def elf64StInfo (bind type : Byte) : Byte := (bind <<< 4) + (type &&& 0xf)

abbrev STB_LOCAL : Byte := 0
abbrev STT_NOTYPE : Byte := 0

section

variable [DecidableEq β] (p : Assembly β)

/-- The next symbol is one for the binding, and its name goes to the string table. -/
def addSymbol (bndg : β) (stInfo : Byte) (stShndx : Nat) (stValue stSize : Word)
    (t : SymbolTables β) : SymbolTables β :=
  { t with
    syms := t.syms ++
      [{ stName := if (p.name bndg).isSome then t.strtab.length else 0
         stInfo, stShndx, stValue, stSize }]
    strtab := t.strtab ++ (p.name bndg).elim [] CString.stored
    context := Function.update t.context bndg (some t.syms.length) }

/-- The body of the loops over the static bindings. -/
def addStatic (bind : Byte) (t : SymbolTables β) (bndg : β) : SymbolTables β :=
  addSymbol p bndg (elf64StInfo bind STT_NOTYPE) 5 (BitVec.ofNat 64 t.bssPtr)
    (BitVec.ofNat 64 (p.size bndg))
    { t with
      offset := Function.update t.offset bndg (BitVec.ofNat 64 t.bssPtr)
      bssPtr := t.bssPtr + padSize (p.size bndg) wordBytes }

/-- The body of the loops over the labels. -/
def addLabel (bind : Byte) (t : SymbolTables β) (bndg : β) : SymbolTables β :=
  addSymbol p bndg (elf64StInfo bind STT_NOTYPE) 2 0 0 t

/-- The body of the loop over the undefined bindings. -/
def addUndefined (t : SymbolTables β) (bndg : β) : SymbolTables β :=
  addSymbol p bndg (elf64StInfo STB_GLOBAL STT_NOTYPE) SHN_UNDEF 0 0 t

/-- The mandatory undefined symbol and the string without characters. -/
def SymbolTables.start (offset : β → Word) : SymbolTables β :=
  ⟨[⟨0, 0, SHN_UNDEF, 0, 0⟩], [0], 0, offset, fun _ => none⟩

def localSymbols (offset : β → Word) : SymbolTables β :=
  (p.labels.filter fun bndg => p.scope bndg = .localScope).foldl (addLabel p STB_LOCAL)
    ((p.staticBindings.filter fun bndg => p.scope bndg = .localScope).foldl
      (addStatic p STB_LOCAL) (.start offset))

def globalSymbols (t : SymbolTables β) : SymbolTables β :=
  (p.labels.filter fun bndg => p.scope bndg = .globalScope).foldl (addLabel p STB_GLOBAL)
    ((p.undefinedBindings.filter fun bndg =>
      p.scope bndg = .globalScope ∧ p.state bndg = .undefinedState).foldl (addUndefined p)
      ((p.staticBindings.filter fun bndg =>
        p.scope bndg = .globalScope ∧ p.state bndg = .definedState).foldl
        (addStatic p STB_GLOBAL) t))

/-- The five loops that fill the symbol table. -/
def symbolTables (offset : β → Word) : SymbolTables β := globalSymbols p (localSymbols p offset)

/-- The value in the symbol that a binding has as its context. -/
def SymbolTables.stValue (t : SymbolTables β) (bndg : β) : Word :=
  ((t.context bndg).bind (t.syms[·]?)).elim 0 Sym.stValue

/-- `assemble` gives the symbols of the labels their values. -/
def SymbolTables.setValues (t : SymbolTables β) (stValue : β → Word) (bndgs : List β) : List Sym :=
  bndgs.foldl (fun syms bndg => (t.context bndg).elim syms fun i =>
    syms.modify i fun sym => { sym with stValue := stValue bndg }) t.syms

end

/-! ## Relocations -/

/-- `ELF64_R_INFO` -/
def elf64RInfo (s t : Nat) : Word := (BitVec.ofNat 64 s <<< 32) + (BitVec.ofNat 64 t &&& 0xffffffff)

def RelaType.code : RelaType → Nat
  | .x64 => R_X86_64_64
  | .pc32 => R_X86_64_PC32

/-- The relocation with the index of its symbol. -/
def SymbolTables.elfRela (t : SymbolTables β) (rela : Rela β) : Option ObjectFile.Rela := do
  some ⟨BitVec.ofNat 64 rela.offset, elf64RInfo (← t.context rela.symbol) rela.type.code,
    rela.addend⟩

/-! ## The file -/

/-- The bytes of an `Elf64_Ehdr`. -/
def ehdrBytes : List Byte :=
  [0x7F, 0x45, 0x4C, 0x46, 2, 1, 1, 0, 0, 0, 0, 0, 0, 0, 0, 0] ++
    bytesOf 2 1 ++ bytesOf 2 62 ++ bytesOf 4 1 ++ bytesOf 8 0 ++ bytesOf 8 0 ++ bytesOf 8 64 ++
    bytesOf 4 0 ++ bytesOf 2 64 ++ bytesOf 2 0 ++ bytesOf 2 0 ++ bytesOf 2 64 ++
    bytesOf 2 (BitVec.ofNat 64 shCount) ++ bytesOf 2 1

/-- An `Elf64_Shdr`, with the fields that nothing reads. -/
structure SectionHeader extends Shdr where
  shName : Nat
  shFlags : Nat
  shAddr : Nat
  shAddralign : Nat

/-- The bytes of an `Elf64_Shdr`. -/
def SectionHeader.bytes (h : SectionHeader) : List Byte :=
  bytesOf 4 (BitVec.ofNat 64 h.shName) ++ (bytesOf 4 (BitVec.ofNat 64 h.shType) ++
    (bytesOf 8 (BitVec.ofNat 64 h.shFlags) ++ (bytesOf 8 (BitVec.ofNat 64 h.shAddr) ++
    (bytesOf 8 (BitVec.ofNat 64 h.shOffset) ++ (bytesOf 8 (BitVec.ofNat 64 h.shSize) ++
    (bytesOf 4 (BitVec.ofNat 64 h.shLink) ++ (bytesOf 4 (BitVec.ofNat 64 h.shInfo) ++
    (bytesOf 8 (BitVec.ofNat 64 h.shAddralign) ++ bytesOf 8 (BitVec.ofNat 64 h.shEntsize)))))))))

/-- The bytes of an `Elf64_Sym`. -/
def symBytes (sym : Sym) : List Byte :=
  bytesOf 4 (BitVec.ofNat 64 sym.stName) ++ ([sym.stInfo] ++ ([0] ++
    (bytesOf 2 (BitVec.ofNat 64 sym.stShndx) ++ (bytesOf 8 sym.stValue ++ bytesOf 8 sym.stSize))))

/-- The bytes of an `Elf64_Rela`. -/
def relaBytes (rela : ObjectFile.Rela) : List Byte :=
  bytesOf 8 rela.rOffset ++ (bytesOf 8 rela.rInfo ++ bytesOf 8 rela.rAddend)

/-- What the arrays hold before `write_elf` writes to them. -/
structure Uninitialized where
  shstrtab : Nat → Byte
  text : Nat → Byte
  strtab : Nat → Byte
  syms : Nat → Byte

/-- An array of `n` bytes with the given ones at its start. -/
def overwrite (old : Nat → Byte) (n : Nat) (bytes : List Byte) : Option (List Byte) :=
  if bytes.length ≤ n then
    some (bytes ++ (List.range' bytes.length (n - bytes.length)).map old)
  else none

/-- What `write_elf` leaves: the file, and the offsets and contexts of the bindings. -/
structure Written (β : Type) where
  bin : List Byte
  offset : β → Word
  context : β → Option Nat

/-- The headers, for arrays of some sizes. -/
def sectionHeaders (shstrtabSize textLen textSize strtabLen strtabSize symsSize localSymbolCount
    bssPtr relasSize : Nat) : List SectionHeader :=
  let undef : SectionHeader :=
    { shName := 0, shType := 0, shFlags := 0, shAddr := 0, shOffset := 0, shSize := 0,
      shLink := SHN_UNDEF, shInfo := 0, shAddralign := 0, shEntsize := 0 }
  let shstrtabHeader : SectionHeader :=
    { shName := 1, shType := 3, shFlags := 0, shAddr := 0, shOffset := 64 + shCount * 64,
      shSize := shstrtab.length, shLink := SHN_UNDEF, shInfo := 0, shAddralign := 0,
      shEntsize := 0 }
  let text : SectionHeader :=
    { shName := shstrtabHeader.shName + shstrtabName.length + 1, shType := 1,
      shFlags := 2 ||| 4, shAddr := 0, shOffset := shstrtabHeader.shOffset + shstrtabSize,
      shSize := textLen, shLink := SHN_UNDEF, shInfo := 0, shAddralign := 1, shEntsize := 0 }
  let strtab : SectionHeader :=
    { shName := text.shName + textName.length + 1, shType := 3, shFlags := 0, shAddr := 0,
      shOffset := text.shOffset + textSize, shSize := strtabLen, shLink := SHN_UNDEF,
      shInfo := 0, shAddralign := 0, shEntsize := 0 }
  let symtab : SectionHeader :=
    { shName := strtab.shName + strtabName.length + 1, shType := SHT_SYMTAB, shFlags := 0,
      shAddr := 0, shOffset := strtab.shOffset + strtabSize, shSize := symsSize, shLink := 3,
      shInfo := localSymbolCount, shAddralign := 0, shEntsize := 24 }
  let bss : SectionHeader :=
    { shName := symtab.shName + symtabName.length + 1, shType := SHT_NOBITS,
      shFlags := 1 ||| 2, shAddr := 0, shOffset := symtab.shOffset + symtab.shSize,
      shSize := bssPtr, shLink := SHN_UNDEF, shInfo := 0, shAddralign := wordBytes,
      shEntsize := 0 }
  let rela : SectionHeader :=
    { shName := bss.shName + bssName.length + 1, shType := SHT_RELA, shFlags := 0, shAddr := 0,
      shOffset := bss.shOffset + 0, shSize := relasSize, shLink := 4, shInfo := 2,
      shAddralign := 0, shEntsize := 24 }
  [undef, shstrtabHeader, text, strtab, symtab, bss, rela]

variable [DecidableEq β]

/-- `write_elf`, which leaves its memory where `max_elf_size` is too large for an `int`. -/
def writeElf (old : Uninitialized) (p : Assembly β) (offset : β → Word) : Option (Written β) := do
  let t := symbolTables p offset
  let strtab ← overwrite old.strtab (padSize (measureStrtab p) elfAlignment) t.strtab
  let out := assemble t.offset t.stValue p.generatedExpressions
  let text ← overwrite old.text (maxTextSecLen p) out.bin
  let syms ← overwrite old.syms (24 * measureSymtab p)
    ((t.setValues out.stValue p.labels).flatMap symBytes)
  let relas ← out.relas.mapM t.elfRela
  let shstrtabPadded ← overwrite old.shstrtab (padSize shstrtab.length elfAlignment) shstrtab
  let headers := sectionHeaders shstrtabPadded.length out.pos text.length (measureStrtab p)
    strtab.length syms.length (localSymbols p offset).syms.length t.bssPtr (relas.length * 24)
  let bin := ehdrBytes ++ (headers.flatMap SectionHeader.bytes ++ (shstrtabPadded ++ (text ++
    (strtab ++ (syms ++ relas.flatMap relaBytes)))))
  if maxElfSize p < 2 ^ 31 ∧ relas.length * 24 ≤ maxRelaSecLen p ∧ bin.length ≤ maxElfSize p then
    some ⟨bin, out.offset, t.context⟩
  else none

/-! ## Loading a program -/

/-- What `segment` reads besides the object: the section with the names of the sections, and
where in it these are. -/
structure SectionNames where
  shstrndx : Nat
  names : List Nat

def readSectionNames (objsrc : List Byte) : Option SectionNames := do
  let shoff ← ObjectFile.readNumber objsrc 40 8
  let shentsize ← ObjectFile.readNumber objsrc 58 2
  let shnum ← ObjectFile.readNumber objsrc 60 2
  let shstrndx ← ObjectFile.readNumber objsrc 62 2
  let names ← (List.range shnum).mapM fun i =>
    ObjectFile.readNumber objsrc (shoff + shentsize * i) 4
  some ⟨shstrndx, names⟩

/-- `segment`, which returns nothing where it finds none. -/
def segment (obj : ObjectFile.Object) (s : SectionNames) (mem : Memory) (name : List Byte) :
    Option Word := do
  if s.shstrndx = SHN_UNDEF then none
  else
    let strings ← obj[s.shstrndx]?
    let (sec, _) ← (obj.zip s.names).find? fun (_, n) =>
      ObjectFile.strcmp mem (strings.seg + BitVec.ofNat 64 n) name
    some sec.seg

/-- `binding_aug_offsets_to_addresses` -/
def bindingAugOffsetsToAddresses (p : Assembly β) (obj : ObjectFile.Object) (s : SectionNames)
    (mem : Memory) (offset : β → Word) : Option (β → Word) := do
  let offset ← p.staticBindings.foldlM (fun offset bndg => do
    if p.type bndg = .absoluteStorage ∧ p.state bndg = .definedState then
      some (Function.update offset bndg (offset bndg + (← segment obj s mem bssName)))
    else some offset) offset
  p.labels.foldlM (fun offset bndg => do
    some (Function.update offset bndg (offset bndg + (← segment obj s mem textName)))) offset

/-- `load_program` for what has been compiled, with the offsets that it leaves in the bindings.
`region_alloc` gives section `i` the address `place i`. -/
def loadProgram (old : Uninitialized) (p : Assembly β) (offset : β → Word) (place : Nat → Word)
    (mem : Memory) : Option (ObjectFile.Object × Memory × (β → Word)) := do
  let written ← writeElf old p offset
  let (obj, mem) ← ObjectFile.load written.bin place mem
  let names ← readSectionNames written.bin
  let offset ← bindingAugOffsetsToAddresses p obj names mem written.offset
  some (obj, mem, offset)

end L2.Bootstrap
