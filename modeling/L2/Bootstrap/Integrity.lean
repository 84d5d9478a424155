import Mathlib.Data.List.TakeWhile
import L2.Bootstrap.Relocations

/-!
# What loading relies on

`checkedLoad` is `load` with its two ways not to come back told apart: it throws the object
error, or it uses an offset, a size or an index from the file that leads outside of what it
is for.  The checks of `load` are those of the first bytes of the header and of the types of
relocations without addends; whether it goes wrong is otherwise up to the file
(`regionLoad_safe_iff`).
-/

namespace L2.Bootstrap.ObjectFile

open X86 (Word Byte Memory)

/-! ## Loading with faults -/

inductive LoadFault where
  /-- `throw_object` -/
  | object
  /-- A copy out of a buffer, an index out of a table, a field out of its segment, a segment
  for which there is no room or a division by zero. -/
  | outside
  deriving DecidableEq

def within {α : Type} : Option α → Except LoadFault α
  | none => .error .outside
  | some a => .ok a

/-- The checks of the header that `read_object` makes. -/
def headerChecked (objsrc : List Byte) : Bool :=
  64 ≤ objsrc.length ∧ objsrc.take 6 = [0x7F, 0x45, 0x4C, 0x46, 2, 1]

/-- The `n` bytes at the place of the relocation are of the section with the given index. -/
def fieldWithin (obj : Object) (info : Nat) (rela : Rela) (n : Nat) : Bool :=
  (obj[info]?).any fun sec => (rela.rOffset - sec.seg).toNat + n ≤ sec.segmentSize

/-- A round of the inner loop of `store_addends`, for a `SHT_REL` section. -/
def checkedAddend (obj : Object) (info : Nat) (mem : Memory) (rela : Rela) :
    Except LoadFault Word :=
  match storedAddend mem rela with
  | none => .error .object
  | some addend =>
    if fieldWithin obj info rela ((prescription rela.type).elim 0 Prod.fst) then .ok addend
    else .error .outside

/-- A round of the outer loop. -/
def checkedAddends (obj : Object) (mem : Memory) (sec : Section) : Except LoadFault Section :=
  if sec.shType = SHT_RELA then .ok { sec with addends := sec.relas.map Rela.rAddend }
  else if sec.shType = SHT_REL then do
    let addends ← sec.relas.mapM (checkedAddend obj sec.shInfo mem)
    .ok { sec with addends }
  else .ok sec

def checkedStoreAddends (mem : Memory) (obj : Object) : Except LoadFault Object :=
  obj.mapM (checkedAddends obj mem)

/-- What `do_relocations` uses for one relocation is there: the table of its symbol, and if
it has a field the symbol and the field. -/
def relocationWithin (obj : Object) (shdr : Shdr) (rela : Rela) : Bool :=
  shdr.shLink < obj.length ∧
    (prescription rela.type).all fun field =>
      (obj.sym shdr.shLink rela.symbol).isSome ∧ fieldWithin obj shdr.shInfo rela field.1

def checkedRelocation (obj : Object) (shdr : Shdr) (rela : Rela) (addend : Word)
    (mem : Memory) : Option Memory :=
  if relocationWithin obj shdr rela then doRelocation obj shdr.shLink rela addend mem else none

/-- A round of the outer loop of `do_relocations`. -/
def checkedSection (obj : Object) (mem : Memory) (sec : Section) : Option Memory :=
  if sec.isRelocations then
    (sec.relas.zip sec.addends).foldlM
      (fun mem e => checkedRelocation obj sec.toShdr e.1 e.2 mem) mem
  else some mem

def checkedRelocations (obj : Object) (mem : Memory) : Option Memory :=
  obj.foldlM (checkedSection obj) mem

/-- `load` -/
def checkedLoad (objsrc : List Byte) (place : Nat → Word) (mem : Memory) :
    Except LoadFault (Object × Memory) :=
  if headerChecked objsrc then do
    let (obj, mem) ← within (readObject objsrc place mem)
    let obj ← within (offsetsToAddresses obj)
    let obj ← checkedStoreAddends mem obj
    let mem ← within (checkedRelocations obj mem)
    .ok (obj, mem)
  else .error .object

/-! ## Files -/

/-- The section headers of a file, if they all are in it. -/
def fileShdrs (objsrc : List Byte) : Option (List Shdr) := do
  let shoff ← readNumber objsrc 40 8
  let shentsize ← readNumber objsrc 58 2
  let shnum ← readNumber objsrc 60 2
  (List.range shnum).mapM fun i => readShdr objsrc (shoff + shentsize * i)

/-- The bytes that the file has for a section, from address 0 on. -/
def contents (objsrc : List Byte) (shdr : Shdr) : Memory := fun a =>
  objsrc.getD (shdr.shOffset + a.toNat) 0

/-- The entries of the table in a section. -/
def fileTable {α : Type} (read : Word → α) (shdr : Shdr) : List α :=
  (List.range (shdr.shSize / shdr.shEntsize)).map fun i =>
    read (BitVec.ofNat 64 (shdr.shEntsize * i))

def fileSyms (objsrc : List Byte) (shdr : Shdr) : List Sym :=
  if shdr.shType = SHT_SYMTAB then fileTable (readSym (contents objsrc shdr)) shdr else []

def fileRelas (objsrc : List Byte) (shdr : Shdr) : List Rela :=
  if shdr.isRelocations then fileTable (readRela shdr.shType (contents objsrc shdr)) shdr else []

/-- The size of the entries of the table in a section of some type. -/
def entrySize (shType : Nat) : Option Nat :=
  if shType = SHT_SYMTAB ∨ shType = SHT_RELA then some 24
  else if shType = SHT_REL then some 16
  else none

/-- What the section has in the file is there, and the entries of its table are in the section. -/
structure SectionIntact (objsrc : List Byte) (shdr : Shdr) : Prop where
  contents : shdr.shType ≠ SHT_NOBITS → shdr.shSize ≠ 0 →
    shdr.shOffset + shdr.shSize ≤ objsrc.length
  entries : ∀ n, entrySize shdr.shType = some n → shdr.shEntsize ≠ 0 ∧
    ∀ i < shdr.shSize / shdr.shEntsize, shdr.shEntsize * i + n ≤ shdr.shSize

/-- The sections that relocations are for and that symbols are in are there. -/
structure LinksIntact (objsrc : List Byte) (shdrs : List Shdr) (shdr : Shdr) : Prop where
  info : fileRelas objsrc shdr ≠ [] → shdr.shInfo < shdrs.length
  shndx : ∀ sym ∈ fileSyms objsrc shdr, sym.stShndx = SHN_ABS ∨ sym.stShndx = SHN_COMMON ∨
    sym.stShndx = SHN_UNDEF ∨ sym.stShndx < shdrs.length

/-- The field of the relocation, if it has one, is in the segment of the section that it is
for. -/
def FieldIntact (shdrs : List Shdr) (info : Nat) (rela : Rela) : Prop :=
  ∀ n c, prescription rela.type = some (n, c) →
    ∃ target, shdrs[info]? = some target ∧ rela.rOffset.toNat + n ≤ target.segmentSize

/-- The symbol table of the relocation is there, and if it has a field its symbol and this
field are. -/
structure RelocationIntact (objsrc : List Byte) (shdrs : List Shdr) (shdr : Shdr)
    (rela : Rela) : Prop where
  link : shdr.shLink < shdrs.length
  symbol : ∀ n c, prescription rela.type = some (n, c) → ∃ table,
    shdrs[shdr.shLink]? = some table ∧ rela.symbol < (fileSyms objsrc table).length
  field : FieldIntact shdrs shdr.shInfo rela

/-- The relocations of a file that have no addends, with the sections they are for. -/
def implicitRelas (objsrc : List Byte) (shdrs : List Shdr) : List (Nat × Rela) :=
  shdrs.flatMap fun shdr =>
    if shdr.shType = SHT_REL then (fileRelas objsrc shdr).map fun rela => (shdr.shInfo, rela)
    else []

def Rela.isSupported (rela : Rela) : Bool := (prescription rela.type).isSome

/-- The file is one that `load` can be given: its sections, tables and links are in range,
and so are its relocations, or at least the fields of those without an addend up to one of a
type that is not supported. -/
structure FileIntact (objsrc : List Byte) (shdrs : List Shdr) : Prop where
  sections : ∀ shdr ∈ shdrs, SectionIntact objsrc shdr
  links : ∀ shdr ∈ shdrs, LinksIntact objsrc shdrs shdr
  fields : ∀ e ∈ (implicitRelas objsrc shdrs).takeWhile (·.2.isSupported),
    FieldIntact shdrs e.1 e.2
  relocations : (∃ e ∈ implicitRelas objsrc shdrs, ¬ e.2.isSupported) ∨
    ∀ shdr ∈ shdrs, ∀ rela ∈ fileRelas objsrc shdr, RelocationIntact objsrc shdrs shdr rela

/-! ## The sections of a file -/

variable {objsrc : List Byte} {mem mem' : Memory}

/-- Bytes that are the same from two addresses on are at the same offsets too. -/
theorem shifted {m m' : Memory} {a b : Word} {n : Nat}
    (h : ∀ i < n, m (a + BitVec.ofNat 64 i) = m' (b + BitVec.ofNat 64 i)) {k l : Nat}
    (hkl : k + l ≤ n) : X86.load m (a + BitVec.ofNat 64 k) l =
      X86.load m' (b + BitVec.ofNat 64 k) l := by
  apply X86.load_eq_load
  intro i hi
  rw [BitVec.add_assoc, BitVec.add_assoc, ← BitVec.ofNat_add]
  exact h (k + i) (by omega)

theorem readSym_eq {m m' : Memory} {a b : Word}
    (h : ∀ i < 24, m (a + BitVec.ofNat 64 i) = m' (b + BitVec.ofNat 64 i)) :
    readSym m a = readSym m' b := by
  have hname : X86.load m a 4 = X86.load m' b 4 :=
    X86.load_eq_load fun i hi => h i (by omega)
  have hinfo : m (a + 4) = m' (b + 4) := h 4 (by omega)
  have hshndx : X86.load m (a + 6) 2 = X86.load m' (b + 6) 2 := shifted h (k := 6) (by omega)
  have hvalue : X86.load m (a + 8) 8 = X86.load m' (b + 8) 8 := shifted h (k := 8) (by omega)
  have hsize : X86.load m (a + 16) 8 = X86.load m' (b + 16) 8 :=
    shifted h (k := 16) (by omega)
  unfold readSym
  rw [hname, hinfo, hshndx, hvalue, hsize]

theorem readRela_eq {m m' : Memory} {a b : Word} {shType n : Nat}
    (hn : n = if shType = SHT_RELA then 24 else 16)
    (h : ∀ i < n, m (a + BitVec.ofNat 64 i) = m' (b + BitVec.ofNat 64 i)) :
    readRela shType m a = readRela shType m' b := by
  have hle : 16 ≤ n := by split at hn <;> omega
  have hoffset : X86.load m a 8 = X86.load m' b 8 :=
    X86.load_eq_load fun i hi => h i (by omega)
  have hinfo : X86.load m (a + 8) 8 = X86.load m' (b + 8) 8 := shifted h (k := 8) (by omega)
  unfold readRela
  rw [hoffset, hinfo]
  by_cases hrela : shType = SHT_RELA
  · rw [if_pos hrela] at hn ⊢
    rw [if_pos hrela]
    have haddend : X86.load m (a + 16) 8 = X86.load m' (b + 16) 8 :=
      shifted h (k := 16) (by omega)
    rw [haddend]
  · rw [if_neg hrela, if_neg hrela]

theorem readTable_some {α : Type} {read : Word → α} {n : Nat} {shdr : Shdr} {seg : Word}
    {l : List α} : readTable read n shdr seg = some l ↔
      (shdr.shEntsize ≠ 0 ∧ ∀ i < shdr.shSize / shdr.shEntsize,
        shdr.shEntsize * i + n ≤ shdr.shSize) ∧
      l = (List.range (shdr.shSize / shdr.shEntsize)).map fun i =>
        read (seg + BitVec.ofNat 64 (shdr.shEntsize * i)) := by
  unfold readTable
  by_cases hzero : shdr.shEntsize = 0
  · rw [if_pos hzero]
    exact ⟨nofun, fun h => absurd hzero h.1.1⟩
  · rw [if_neg hzero]
    constructor
    · intro h
      have hentries := forall₂_of_mapM h
      have hall : ∀ i < shdr.shSize / shdr.shEntsize, shdr.shEntsize * i + n ≤ shdr.shSize := by
        intro i hi
        obtain ⟨entry, -, hentry⟩ :=
          exists_of_forall₂_right hentries.flip (List.mem_range.mpr hi)
        by_contra hout
        rw [if_neg hout] at hentry
        cases hentry
      refine ⟨⟨hzero, hall⟩, eq_map_of_forall₂ ?_ hentries⟩
      intro i entry hentry
      split at hentry
      · exact (Option.some.inj hentry).symm
      · cases hentry
    · rintro ⟨⟨-, hall⟩, rfl⟩
      apply mapM_some
      intro i hi
      rw [if_pos (hall i (List.mem_range.mp hi))]

/-- A section of a file that is given the address `seg`. -/
def fileSection (objsrc : List Byte) (shdr : Shdr) (seg : Word) : Section :=
  { shdr with syms := fileSyms objsrc shdr, relas := fileRelas objsrc shdr, addends := [], seg }

/-- Memory that has the contents of a section at `seg`. -/
def Holds (objsrc : List Byte) (shdr : Shdr) (seg : Word) (mem : Memory) : Prop :=
  ∀ i < shdr.shSize, mem (seg + BitVec.ofNat 64 i) = contents objsrc shdr (BitVec.ofNat 64 i)

/-- A table that is read from memory is the one of the file. -/
theorem readTable_eq_fileTable {α : Type} {read read' : Word → α} {n : Nat} {shdr : Shdr}
    {seg : Word} (hholds : Holds objsrc shdr seg mem) (hread : ∀ a b, (∀ i < n,
      mem (a + BitVec.ofNat 64 i) = contents objsrc shdr (b + BitVec.ofNat 64 i)) →
      read a = read' b) {l : List α} : readTable read n shdr seg = some l ↔
      (shdr.shEntsize ≠ 0 ∧ ∀ i < shdr.shSize / shdr.shEntsize,
        shdr.shEntsize * i + n ≤ shdr.shSize) ∧ l = fileTable read' shdr := by
  rw [readTable_some]
  apply and_congr_right
  rintro ⟨-, hall⟩
  have hmap : (List.range (shdr.shSize / shdr.shEntsize)).map (fun i =>
      read (seg + BitVec.ofNat 64 (shdr.shEntsize * i))) = fileTable read' shdr := by
    apply List.map_congr_left
    intro i hi
    apply hread
    intro j hj
    rw [BitVec.add_assoc, ← BitVec.ofNat_add]
    apply hholds
    have := hall i (List.mem_range.mp hi)
    omega
  rw [hmap]

theorem readNumber_lt {pos n v : Nat} (h : readNumber objsrc pos n = some v) : v < 2 ^ 64 := by
  obtain ⟨w, -, hv⟩ := Option.bind_eq_some_iff.mp h
  cases hv
  exact w.1.isLt

theorem shSize_lt {pos : Nat} {shdr : Shdr} (h : readShdr objsrc pos = some shdr) :
    shdr.shSize < 2 ^ 64 := by
  unfold readShdr at h
  obtain ⟨shType, -, h⟩ := Option.bind_eq_some_iff.mp h
  obtain ⟨shOffset, -, h⟩ := Option.bind_eq_some_iff.mp h
  obtain ⟨shSize, hsize, h⟩ := Option.bind_eq_some_iff.mp h
  obtain ⟨shLink, -, h⟩ := Option.bind_eq_some_iff.mp h
  obtain ⟨shInfo, -, h⟩ := Option.bind_eq_some_iff.mp h
  obtain ⟨shEntsize, -, h⟩ := Option.bind_eq_some_iff.mp h
  cases h
  exact readNumber_lt hsize

/-- The copy of a section to memory. -/
def copied (objsrc : List Byte) (shdr : Shdr) (seg : Word) (mem : Memory) : Memory := fun a =>
  if (a - seg).toNat < shdr.shSize then objsrc.getD (shdr.shOffset + (a - seg).toNat) 0
  else mem a

theorem holds_copied {shdr : Shdr} (hsize : shdr.shSize < 2 ^ 64) (seg : Word) (mem : Memory) :
    Holds objsrc shdr seg (copied objsrc shdr seg mem) := by
  intro i hi
  unfold copied contents
  rw [X86.toNat_add_sub seg (by omega), if_pos hi, BitVec.toNat_ofNat,
    Nat.mod_eq_of_lt (by omega)]

/-- The tables of a section whose contents are in memory. -/
theorem readSyms_some {shdr : Shdr} {seg : Word} (hholds : Holds objsrc shdr seg mem)
    (htab : shdr.shType = SHT_SYMTAB) {syms : List Sym} :
    readTable (readSym mem) 24 shdr seg = some syms ↔
      (shdr.shEntsize ≠ 0 ∧ ∀ i < shdr.shSize / shdr.shEntsize,
        shdr.shEntsize * i + 24 ≤ shdr.shSize) ∧ syms = fileSyms objsrc shdr := by
  unfold fileSyms
  rw [if_pos htab]
  exact readTable_eq_fileTable hholds fun a b h => readSym_eq h

theorem readRelas_some {shdr : Shdr} {seg : Word} (hholds : Holds objsrc shdr seg mem)
    (hrel : shdr.isRelocations) {relas : List Rela} :
    readTable (readRela shdr.shType mem) (if shdr.shType = SHT_RELA then 24 else 16) shdr seg =
        some relas ↔
      (shdr.shEntsize ≠ 0 ∧ ∀ i < shdr.shSize / shdr.shEntsize,
        shdr.shEntsize * i + (if shdr.shType = SHT_RELA then 24 else 16) ≤ shdr.shSize) ∧
      relas = fileRelas objsrc shdr := by
  unfold fileRelas
  rw [if_pos hrel]
  exact readTable_eq_fileTable hholds fun a b h => readRela_eq rfl h

theorem entrySize_relocations {shdr : Shdr} (hrel : shdr.isRelocations) :
    entrySize shdr.shType = some (if shdr.shType = SHT_RELA then 24 else 16) := by
  unfold Shdr.isRelocations at hrel
  rcases of_decide_eq_true hrel with h | h <;> rw [h] <;> rfl

/-- The tables of a section in memory are read when its entries are in it. -/
theorem readTables_some {shdr : Shdr} {seg : Word} (hholds : Holds objsrc shdr seg mem)
    {syms : List Sym} {relas : List Rela} :
    ((if shdr.shType = SHT_SYMTAB then readTable (readSym mem) 24 shdr seg else some []) =
        some syms ∧
      (if shdr.isRelocations then
        readTable (readRela shdr.shType mem) (if shdr.shType = SHT_RELA then 24 else 16) shdr seg
      else some []) = some relas) ↔
    (∀ n, entrySize shdr.shType = some n → shdr.shEntsize ≠ 0 ∧
      ∀ i < shdr.shSize / shdr.shEntsize, shdr.shEntsize * i + n ≤ shdr.shSize) ∧
    syms = fileSyms objsrc shdr ∧ relas = fileRelas objsrc shdr := by
  by_cases htab : shdr.shType = SHT_SYMTAB
  · have hrel : ¬ shdr.isRelocations := by
      unfold Shdr.isRelocations
      rw [htab]
      decide
    have hsize : entrySize shdr.shType = some 24 := by rw [htab]; rfl
    rw [if_pos htab, if_neg hrel, readSyms_some hholds htab, hsize]
    unfold fileRelas
    rw [if_neg hrel]
    simp only [Option.some.injEq, forall_eq', and_assoc, eq_comm (a := [])]
  · rw [if_neg htab]
    have hsyms : fileSyms objsrc shdr = [] := if_neg htab
    rw [hsyms]
    by_cases hrel : shdr.isRelocations
    · rw [if_pos hrel, readRelas_some hholds hrel, entrySize_relocations hrel]
      simp only [Option.some.injEq, forall_eq', eq_comm (a := []), and_left_comm]
    · rw [if_neg hrel]
      have hrelas : fileRelas objsrc shdr = [] := if_neg hrel
      have hsize : entrySize shdr.shType = none := by
        unfold Shdr.isRelocations at hrel
        unfold entrySize
        grind
      rw [hrelas, hsize]
      simp [eq_comm]

/-- The tables of a section, read from memory. -/
def readTables (shdr : Shdr) (seg : Word) (mem : Memory) : Option (List Sym × List Rela) :=
  (if shdr.shType = SHT_SYMTAB then readTable (readSym mem) 24 shdr seg else some []).bind
    fun syms =>
      (if shdr.isRelocations then
        readTable (readRela shdr.shType mem) (if shdr.shType = SHT_RELA then 24 else 16) shdr seg
      else some []).map fun relas => (syms, relas)

theorem readSection_eq (pos : Nat) (seg : Word) (mem : Memory) :
    readSection objsrc pos seg mem = (readShdr objsrc pos).bind fun shdr =>
      (if shdr.shType = SHT_NOBITS then some mem
        else if shdr.shSize = 0 ∨ shdr.shOffset + shdr.shSize ≤ objsrc.length then
          some (copied objsrc shdr seg mem)
        else none).bind fun mem =>
      (readTables shdr seg mem).map fun (syms, relas) =>
        ({ shdr with syms, relas, addends := [], seg }, mem) := by
  unfold readSection
  cases readShdr objsrc pos with
  | none => rfl
  | some shdr =>
    have htables : ∀ mem : Memory, (do
        let syms ← if shdr.shType = SHT_SYMTAB then readTable (readSym mem) 24 shdr seg
          else some []
        let relas ← if shdr.isRelocations then
            readTable (readRela shdr.shType mem) (if shdr.shType = SHT_RELA then 24 else 16)
              shdr seg
          else some []
        some (({ shdr with syms, relas, addends := [], seg } : Section), mem)) =
        (readTables shdr seg mem).map fun (syms, relas) =>
          ({ shdr with syms, relas, addends := [], seg }, mem) := by
      intro mem
      unfold readTables
      by_cases htab : shdr.shType = SHT_SYMTAB
      · rw [if_pos htab, if_pos htab]
        cases readTable (readSym mem) 24 shdr seg with
        | none => rfl
        | some syms =>
          by_cases hrel : shdr.isRelocations
          · simp only [if_pos hrel, Option.bind_eq_bind, Option.bind_some]
            cases readTable (readRela shdr.shType mem) _ shdr seg <;> rfl
          · simp only [if_neg hrel]
            rfl
      · rw [if_neg htab, if_neg htab]
        by_cases hrel : shdr.isRelocations
        · simp only [if_pos hrel, Option.bind_eq_bind, Option.bind_some]
          cases readTable (readRela shdr.shType mem) _ shdr seg <;> rfl
        · simp only [if_neg hrel]
          rfl
    show (if _ then _ else if _ then _ else _) = _
    rw [Option.bind_some]
    by_cases hnobits : shdr.shType = SHT_NOBITS
    · rw [if_pos hnobits, if_pos hnobits]
      exact htables mem
    · rw [if_neg hnobits, if_neg hnobits]
      by_cases hroom : shdr.shSize = 0 ∨ shdr.shOffset + shdr.shSize ≤ objsrc.length
      · rw [if_pos hroom, if_pos hroom]
        exact htables (copied objsrc shdr seg mem)
      · rw [if_neg hroom, if_neg hroom]
        rfl

/-- A section is read when it is intact. -/
theorem readSection_some {pos : Nat} {seg : Word} {sec : Section} :
    (∃ mem', readSection objsrc pos seg mem = some (sec, mem')) ↔
      ∃ shdr, readShdr objsrc pos = some shdr ∧ SectionIntact objsrc shdr ∧
        sec = fileSection objsrc shdr seg := by
  rw [readSection_eq]
  cases hshdr : readShdr objsrc pos with
  | none => simp
  | some shdr =>
    simp only [Option.bind_some, Option.some.injEq, exists_eq_left']
    by_cases hnobits : shdr.shType = SHT_NOBITS
    · -- a section that takes no room in the file is no table
      have htab : shdr.shType ≠ SHT_SYMTAB := by rw [hnobits]; decide
      have hrel : ¬ shdr.isRelocations := by
        unfold Shdr.isRelocations
        rw [hnobits]
        decide
      have hsec : fileSection objsrc shdr seg = { shdr with
          syms := [], relas := [], addends := [], seg } := by
        unfold fileSection fileSyms fileRelas
        rw [if_neg htab, if_neg hrel]
      have hintact : SectionIntact objsrc shdr :=
        ⟨fun h => absurd hnobits h, fun n hn => by rw [hnobits] at hn; cases hn⟩
      have htables : readTables shdr seg mem = some ([], []) := by
        unfold readTables
        rw [if_neg htab, if_neg hrel]
        rfl
      rw [if_pos hnobits, Option.bind_some, htables, hsec]
      constructor
      · rintro ⟨mem', h⟩
        cases h
        exact ⟨hintact, rfl⟩
      · rintro ⟨-, rfl⟩
        exact ⟨mem, rfl⟩
    · rw [if_neg hnobits]
      by_cases hroom : shdr.shSize = 0 ∨ shdr.shOffset + shdr.shSize ≤ objsrc.length
      · have hholds : Holds objsrc shdr seg (copied objsrc shdr seg mem) :=
          holds_copied (shSize_lt hshdr) seg mem
        have htables := fun syms relas => @readTables_some _ _ _ _ hholds syms relas
        rw [if_pos hroom, Option.bind_some]
        constructor
        · rintro ⟨mem', h⟩
          obtain ⟨⟨syms, relas⟩, hread, h⟩ := Option.map_eq_some_iff.mp h
          cases h
          obtain ⟨syms', hsyms, hread⟩ := Option.bind_eq_some_iff.mp hread
          obtain ⟨relas', hrelas, hread⟩ := Option.map_eq_some_iff.mp hread
          cases hread
          obtain ⟨hentries, rfl, rfl⟩ := (htables syms relas).mp ⟨hsyms, hrelas⟩
          exact ⟨⟨fun _ hsize => hroom.resolve_left hsize, hentries⟩, rfl⟩
        · rintro ⟨hintact, rfl⟩
          obtain ⟨hsyms, hrelas⟩ := (htables _ _).mpr ⟨hintact.entries, rfl, rfl⟩
          refine ⟨copied objsrc shdr seg mem, ?_⟩
          unfold readTables
          rw [hsyms, hrelas]
          rfl
      · rw [if_neg hroom]
        constructor
        · rintro ⟨mem', h⟩
          cases h
        · intro h
          rw [not_or] at hroom
          exact absurd (h.1.contents hnobits hroom.1) hroom.2

/-- The sections of an object are those of a file. -/
def OfFile (objsrc : List Byte) : List Shdr → Object → Prop :=
  List.Forall₂ fun shdr sec => ∃ seg, sec = fileSection objsrc shdr seg

theorem readSections_some {shoff shentsize : Nat} {place : Nat → Word} {is : List Nat}
    {obj : Object} (h : readSections objsrc shoff shentsize place is mem = some (obj, mem')) :
    ∃ shdrs, is.mapM (fun i => readShdr objsrc (shoff + shentsize * i)) = some shdrs ∧
      (∀ shdr ∈ shdrs, SectionIntact objsrc shdr) ∧ OfFile objsrc shdrs obj := by
  induction is generalizing mem obj with
  | nil =>
    cases h
    exact ⟨[], rfl, fun _ h => absurd h List.not_mem_nil, .nil⟩
  | cons i is ih =>
    unfold readSections at h
    obtain ⟨⟨sec, mem₁⟩, hsec, h⟩ := Option.bind_eq_some_iff.mp h
    obtain ⟨⟨rest, mem₂⟩, hrest, h⟩ := Option.bind_eq_some_iff.mp h
    cases h
    obtain ⟨shdr, hshdr, hintact, rfl⟩ := readSection_some.mp ⟨mem₁, hsec⟩
    obtain ⟨shdrs, hshdrs, hall, hfile⟩ := ih hrest
    refine ⟨shdr :: shdrs, ?_, List.forall_mem_cons.mpr ⟨hintact, hall⟩, .cons ⟨_, rfl⟩ hfile⟩
    rw [List.mapM_cons, hshdr, hshdrs]
    rfl

theorem readSections_of_intact {shoff shentsize : Nat} (place : Nat → Word) {is : List Nat}
    {shdrs : List Shdr}
    (h : is.mapM (fun i => readShdr objsrc (shoff + shentsize * i)) = some shdrs)
    (hall : ∀ shdr ∈ shdrs, SectionIntact objsrc shdr) (mem : Memory) :
    ∃ obj mem', readSections objsrc shoff shentsize place is mem = some (obj, mem') := by
  induction is generalizing mem shdrs with
  | nil => exact ⟨[], mem, rfl⟩
  | cons i is ih =>
    rw [List.mapM_cons] at h
    obtain ⟨shdr, hshdr, h⟩ := Option.bind_eq_some_iff.mp h
    obtain ⟨rest, hrest, h⟩ := Option.bind_eq_some_iff.mp h
    cases h
    obtain ⟨hintact, hall⟩ := List.forall_mem_cons.mp hall
    obtain ⟨mem₁, hsec⟩ := readSection_some.mpr ⟨shdr, hshdr, hintact, rfl⟩
    obtain ⟨obj, mem₂, hobj⟩ := ih hrest hall mem₁
    refine ⟨fileSection objsrc shdr (place i) :: obj, mem₂, ?_⟩
    unfold readSections
    rw [hsec, Option.bind_eq_bind, Option.bind_some]
    show Option.bind _ _ = _
    rw [hobj]
    rfl

/-! ## Addresses for offsets -/

variable {shdrs : List Shdr} {obj obj' : Object}

/-- The relocation has the address for the offset of the one of the file. -/
def PlacedRela (obj : Object) (info : Nat) (rela rela' : Rela) : Prop :=
  rela'.rInfo = rela.rInfo ∧
    ∃ target, obj[info]? = some target ∧ rela'.rOffset = target.seg + rela.rOffset

/-- The section is the one of the file with this header, with addresses for offsets. -/
structure PlacedSection (objsrc : List Byte) (obj : Object) (shdr : Shdr) (sec : Section) :
    Prop where
  header : sec.toShdr = shdr
  syms : sec.syms.length = (fileSyms objsrc shdr).length
  relas : List.Forall₂ (PlacedRela obj shdr.shInfo) (fileRelas objsrc shdr) sec.relas

/-- The object is that of the file, with addresses for offsets. -/
def Placed (objsrc : List Byte) (shdrs : List Shdr) (obj : Object) : Prop :=
  List.Forall₂ (PlacedSection objsrc obj) shdrs obj

/-- A round of the loop of `offsets_to_addresses`. -/
def addressedSection (obj : Object) (sec : Section) : Option Section :=
  if sec.isRelocations then
    (sec.relas.mapM (addressedRela obj sec.shInfo)).map fun relas => { sec with relas }
  else if sec.shType = SHT_SYMTAB then
    (sec.syms.mapM (addressedSym obj)).map fun syms => { sec with syms }
  else some sec

theorem offsetsToAddresses_eq (obj : Object) :
    offsetsToAddresses obj = obj.mapM (addressedSection obj) := by
  unfold offsetsToAddresses
  congr 1
  funext sec
  unfold addressedSection
  split
  · cases sec.relas.mapM (addressedRela obj sec.shInfo) <;> rfl
  · split
    · cases sec.syms.mapM (addressedSym obj) <;> rfl
    · rfl

theorem fileSyms_of_relocations {shdr : Shdr} (hrel : shdr.isRelocations) :
    fileSyms objsrc shdr = [] := by
  apply if_neg
  intro htab
  unfold Shdr.isRelocations at hrel
  rw [htab] at hrel
  exact absurd hrel (by decide)

theorem addressedRela_some {info : Nat} {rela rela' : Rela}
    (h : addressedRela obj info rela = some rela') : PlacedRela obj info rela rela' := by
  obtain ⟨target, htarget, h⟩ := Option.bind_eq_some_iff.mp h
  cases h
  exact ⟨rfl, target, htarget, rfl⟩

theorem addressedSym_isSome {sym : Sym} : (∃ sym', addressedSym obj sym = some sym') ↔
    sym.stShndx = SHN_ABS ∨ sym.stShndx = SHN_COMMON ∨ sym.stShndx = SHN_UNDEF ∨
      sym.stShndx < obj.length := by
  unfold addressedSym
  by_cases habs : sym.stShndx = SHN_ABS
  · rw [if_pos habs]
    exact ⟨fun _ => .inl habs, fun _ => ⟨sym, rfl⟩⟩
  · rw [if_neg habs, or_iff_right habs, ← or_assoc]
    by_cases hundef : sym.stShndx = SHN_COMMON ∨ sym.stShndx = SHN_UNDEF
    · rw [if_pos hundef]
      exact ⟨fun _ => .inl hundef, fun _ => ⟨_, rfl⟩⟩
    · rw [if_neg hundef, or_iff_right hundef]
      constructor
      · rintro ⟨sym', h⟩
        obtain ⟨target, htarget, -⟩ := Option.bind_eq_some_iff.mp h
        exact (List.getElem?_eq_some_iff.mp htarget).1
      · intro hlt
        rw [List.getElem?_eq_getElem hlt]
        exact ⟨_, rfl⟩

theorem addressedSection_header {sec sec' : Section} (h : addressedSection obj sec = some sec') :
    SameHeader sec sec' := by
  unfold addressedSection at h
  split at h
  · obtain ⟨relas, -, rfl⟩ := Option.map_eq_some_iff.mp h
    exact ⟨rfl, rfl⟩
  · split at h
    · obtain ⟨syms, -, rfl⟩ := Option.map_eq_some_iff.mp h
      exact ⟨rfl, rfl⟩
    · cases h
      exact ⟨rfl, rfl⟩

/-- Addresses can be made of the offsets of a section when what it links to is there. -/
theorem addressedSection_some {shdr : Shdr} {seg : Word} (hlength : shdrs.length = obj.length)
    {sec : Section} (h : addressedSection obj (fileSection objsrc shdr seg) = some sec) :
    LinksIntact objsrc shdrs shdr ∧ PlacedSection objsrc obj shdr sec := by
  change (if shdr.isRelocations then
      ((fileRelas objsrc shdr).mapM (addressedRela obj shdr.shInfo)).map _
    else if shdr.shType = SHT_SYMTAB then ((fileSyms objsrc shdr).mapM (addressedSym obj)).map _
    else some (fileSection objsrc shdr seg)) = some sec at h
  by_cases hrel : shdr.isRelocations
  · rw [if_pos hrel] at h
    obtain ⟨relas, hrelas, h⟩ := Option.map_eq_some_iff.mp h
    cases h
    have hplaced : List.Forall₂ (PlacedRela obj shdr.shInfo) (fileRelas objsrc shdr) relas :=
      (forall₂_of_mapM hrelas).imp fun _ _ => addressedRela_some
    refine ⟨⟨?_, ?_⟩, ⟨rfl, rfl, hplaced⟩⟩
    · intro hne
      obtain ⟨rela, hrela⟩ := List.exists_mem_of_ne_nil _ hne
      obtain ⟨rela', -, -, target, htarget, -⟩ := exists_of_forall₂_right hplaced.flip hrela
      rw [hlength]
      exact (List.getElem?_eq_some_iff.mp htarget).1
    · rw [fileSyms_of_relocations hrel]
      exact fun _ hsym => absurd hsym List.not_mem_nil
  · have hrelas : fileRelas objsrc shdr = [] := if_neg hrel
    have hinfo : fileRelas objsrc shdr ≠ [] → shdr.shInfo < shdrs.length :=
      fun h => absurd hrelas h
    have hplaced : List.Forall₂ (PlacedRela obj shdr.shInfo) (fileRelas objsrc shdr)
        (fileRelas objsrc shdr) := by
      rw [hrelas]
      exact .nil
    rw [if_neg hrel] at h
    by_cases htab : shdr.shType = SHT_SYMTAB
    · rw [if_pos htab] at h
      obtain ⟨syms, hsyms, h⟩ := Option.map_eq_some_iff.mp h
      cases h
      have hpairs := forall₂_of_mapM hsyms
      refine ⟨⟨hinfo, ?_⟩, ⟨rfl, hpairs.length_eq.symm, hplaced⟩⟩
      intro sym hsym
      obtain ⟨sym', -, hsym'⟩ := exists_of_forall₂_right hpairs.flip hsym
      rw [hlength]
      exact addressedSym_isSome.mp ⟨sym', hsym'⟩
    · rw [if_neg htab] at h
      cases h
      have hsyms : fileSyms objsrc shdr = [] := if_neg htab
      refine ⟨⟨hinfo, ?_⟩, ⟨rfl, rfl, hplaced⟩⟩
      rw [hsyms]
      exact fun _ hsym => absurd hsym List.not_mem_nil

theorem addressedSection_of_intact {shdr : Shdr} {seg : Word}
    (hlength : shdrs.length = obj.length) (h : LinksIntact objsrc shdrs shdr) :
    ∃ sec, addressedSection obj (fileSection objsrc shdr seg) = some sec := by
  show ∃ sec, (if shdr.isRelocations then
      ((fileRelas objsrc shdr).mapM (addressedRela obj shdr.shInfo)).map _
    else if shdr.shType = SHT_SYMTAB then ((fileSyms objsrc shdr).mapM (addressedSym obj)).map _
    else some (fileSection objsrc shdr seg)) = some sec
  by_cases hrel : shdr.isRelocations
  · rw [if_pos hrel]
    obtain ⟨relas, hrelas⟩ : ∃ relas, (fileRelas objsrc shdr).mapM
        (addressedRela obj shdr.shInfo) = some relas := by
      apply mapM_isSome
      intro rela hrela
      have hlt := h.info (List.ne_nil_of_mem hrela)
      rw [hlength] at hlt
      unfold addressedRela
      rw [List.getElem?_eq_getElem hlt]
      exact ⟨_, rfl⟩
    exact ⟨_, Option.map_eq_some_iff.mpr ⟨relas, hrelas, rfl⟩⟩
  · rw [if_neg hrel]
    by_cases htab : shdr.shType = SHT_SYMTAB
    · rw [if_pos htab]
      obtain ⟨syms, hsyms⟩ : ∃ syms, (fileSyms objsrc shdr).mapM (addressedSym obj) =
          some syms := by
        apply mapM_isSome
        intro sym hsym
        apply addressedSym_isSome.mpr
        rw [← hlength]
        exact h.shndx sym hsym
      exact ⟨_, Option.map_eq_some_iff.mpr ⟨syms, hsyms, rfl⟩⟩
    · rw [if_neg htab]
      exact ⟨_, rfl⟩

theorem forall₂_and {α β : Type} {R S : α → β → Prop} {l : List α} {l' : List β}
    (h : List.Forall₂ (fun a b => R a b ∧ S a b) l l') :
    List.Forall₂ R l l' ∧ List.Forall₂ S l l' :=
  ⟨h.imp fun _ _ => And.left, h.imp fun _ _ => And.right⟩

theorem PlacedSection.sameHeaders (hsame : List.Forall₂ SameHeader obj obj') {shdr : Shdr}
    {sec : Section} (h : PlacedSection objsrc obj shdr sec) :
    PlacedSection objsrc obj' shdr sec where
  header := h.header
  syms := h.syms
  relas := by
    apply h.relas.imp
    rintro rela rela' ⟨hinfo, target, htarget, hoffset⟩
    have hrel := forall₂_getElem? hsame shdr.shInfo
    rw [htarget] at hrel
    generalize hother : obj'[shdr.shInfo]? = other at hrel
    cases hrel with
    | @some _ target' hheader =>
      refine ⟨hinfo, target', hother, ?_⟩
      rw [hheader.2]
      exact hoffset

/-- Addresses can be made of the offsets of an object when all links are there. -/
theorem offsetsToAddresses_some (hfile : OfFile objsrc shdrs obj)
    (h : offsetsToAddresses obj = some obj') :
    (∀ shdr ∈ shdrs, LinksIntact objsrc shdrs shdr) ∧ Placed objsrc shdrs obj' := by
  rw [offsetsToAddresses_eq] at h
  have hlength := hfile.length_eq
  have hsections : List.Forall₂ (fun shdr sec => LinksIntact objsrc shdrs shdr ∧
      PlacedSection objsrc obj shdr sec) shdrs obj' := by
    apply forall₂_trans _ hfile (forall₂_of_mapM h)
    rintro shdr sec sec' ⟨seg, rfl⟩ hsec'
    exact addressedSection_some hlength hsec'
  have hsame : List.Forall₂ SameHeader obj obj' :=
    (forall₂_of_mapM h).imp fun _ _ => addressedSection_header
  obtain ⟨hlinks, hplaced⟩ := forall₂_and hsections
  refine ⟨fun shdr hshdr => ?_, hplaced.imp fun _ _ => PlacedSection.sameHeaders hsame⟩
  obtain ⟨_, -, hshdr⟩ := exists_of_forall₂_right hlinks.flip hshdr
  exact hshdr

theorem offsetsToAddresses_of_links (hfile : OfFile objsrc shdrs obj)
    (h : ∀ shdr ∈ shdrs, LinksIntact objsrc shdrs shdr) :
    ∃ obj', offsetsToAddresses obj = some obj' := by
  rw [offsetsToAddresses_eq]
  apply mapM_isSome
  intro sec hsec
  obtain ⟨shdr, hshdr, seg, rfl⟩ := exists_of_forall₂_right hfile hsec
  exact addressedSection_of_intact hfile.length_eq (h shdr hshdr)

/-! ## Fields -/

theorem fieldWithin_iff (hplaced : Placed objsrc shdrs obj) {info : Nat} {rela rela' : Rela}
    (hrela : PlacedRela obj info rela rela') (n : Nat) : fieldWithin obj info rela' n ↔
      ∃ target, shdrs[info]? = some target ∧ rela.rOffset.toNat + n ≤ target.segmentSize := by
  obtain ⟨-, sec, hsec, hoffset⟩ := hrela
  have hrel := forall₂_getElem? hplaced info
  rw [hsec] at hrel
  generalize hshdr : shdrs[info]? = shdr at hrel
  cases hrel with
  | @some shdr _ hsection =>
    have hplace : rela'.rOffset - sec.seg = rela.rOffset := by
      rw [hoffset, BitVec.add_comm, BitVec.add_sub_cancel]
    unfold fieldWithin
    rw [hsec, Option.any_some, decide_eq_true_eq, hplace, ← hsection.header]
    simp only [Option.some.injEq, exists_eq_left']

theorem PlacedRela.type_eq {info : Nat} {rela rela' : Rela}
    (h : PlacedRela obj info rela rela') : rela'.type = rela.type := by
  unfold Rela.type
  rw [h.1]

theorem PlacedRela.symbol_eq {info : Nat} {rela rela' : Rela}
    (h : PlacedRela obj info rela rela') : rela'.symbol = rela.symbol := by
  unfold Rela.symbol
  rw [h.1]

theorem sym_isSome_iff (hplaced : Placed objsrc shdrs obj) (link index : Nat) :
    (obj.sym link index).isSome ↔
      ∃ table, shdrs[link]? = some table ∧ index < (fileSyms objsrc table).length := by
  have hrel := forall₂_getElem? hplaced link
  unfold Object.sym
  generalize hshdr : shdrs[link]? = shdr at hrel
  generalize hsec : obj[link]? = sec at hrel
  cases hrel with
  | none => simp
  | @some shdr sec hsection =>
    show (sec.syms[index]?).isSome ↔ _
    simp only [Option.some.injEq, exists_eq_left', ← hsection.syms]
    simp

theorem relocationWithin_iff (hplaced : Placed objsrc shdrs obj) {shdr : Shdr}
    {rela rela' : Rela} (hrela : PlacedRela obj shdr.shInfo rela rela') :
    relocationWithin obj shdr rela' ↔ RelocationIntact objsrc shdrs shdr rela := by
  unfold relocationWithin
  rw [decide_eq_true_eq, hrela.type_eq, hrela.symbol_eq, ← hplaced.length_eq]
  cases hpre : prescription rela.type with
  | none =>
    have hnone : ∀ n c, prescription rela.type ≠ some (n, c) := by
      rw [hpre]
      exact nofun
    constructor
    · exact fun h => ⟨h.1, fun n c h => absurd h (hnone n c), fun n c h => absurd h (hnone n c)⟩
    · exact fun h => ⟨h.link, rfl⟩
  | some field =>
    obtain ⟨n, c⟩ := field
    rw [Option.all_some, decide_eq_true_eq, sym_isSome_iff hplaced, fieldWithin_iff hplaced hrela]
    constructor
    · rintro ⟨hlink, hsym, hfield⟩
      refine ⟨hlink, fun n' c' h => hsym, fun n' c' h => ?_⟩
      rw [hpre] at h
      cases h
      exact hfield
    · exact fun h => ⟨h.link, h.symbol n c hpre, h.field n c hpre⟩

/-! ## Addends -/

def fault? {ε α : Type} : Except ε α → Option ε
  | .error e => some e
  | .ok _ => none

theorem fault?_mapM {ε α β : Type} (f : α → Except ε β) (l : List α) :
    fault? (l.mapM f) = l.findSome? fun a => fault? (f a) := by
  induction l with
  | nil => rfl
  | cons a l ih =>
    rw [List.mapM_cons, List.findSome?_cons, ← ih]
    cases f a with
    | error e => rfl
    | ok b => cases l.mapM f <;> rfl

theorem findSome?_flatMap {α β γ : Type} (f : α → List β) (g : β → Option γ) (l : List α) :
    (l.flatMap f).findSome? g = l.findSome? fun a => (f a).findSome? g := by
  induction l with
  | nil => rfl
  | cons a l ih =>
    rw [List.flatMap_cons, List.findSome?_append, ih, List.findSome?_cons]
    cases (f a).findSome? g <;> rfl

/-- The relocations that `store_addends` reads from memory, with the sections they are
for. -/
def implicitEntries (obj : Object) : List (Nat × Rela) :=
  obj.flatMap fun sec =>
    if sec.shType = SHT_REL then sec.relas.map fun rela => (sec.shInfo, rela) else []

theorem fault?_checkedStoreAddends (mem : Memory) (obj : Object) :
    fault? (checkedStoreAddends mem obj) =
      (implicitEntries obj).findSome? fun e => fault? (checkedAddend obj e.1 mem e.2) := by
  unfold checkedStoreAddends implicitEntries
  rw [fault?_mapM, findSome?_flatMap]
  congr 1
  funext sec
  unfold checkedAddends
  by_cases hrela : sec.shType = SHT_RELA
  · have hrel : sec.shType ≠ SHT_REL := by rw [hrela]; decide
    rw [if_pos hrela, if_neg hrel]
    rfl
  · rw [if_neg hrela]
    by_cases hrel : sec.shType = SHT_REL
    · rw [if_pos hrel, if_pos hrel, List.findSome?_map]
      show _ = sec.relas.findSome? fun rela => fault? (checkedAddend obj sec.shInfo mem rela)
      rw [← fault?_mapM]
      cases sec.relas.mapM (checkedAddend obj sec.shInfo mem) <;> rfl
    · rw [if_neg hrel, if_neg hrel]
      rfl

theorem implicitEntries_placed {secs : List Section}
    (h : List.Forall₂ (PlacedSection objsrc obj) shdrs secs) :
    List.Forall₂ (fun e e' => e'.1 = e.1 ∧ PlacedRela obj e.1 e.2 e'.2)
      (implicitRelas objsrc shdrs) (implicitEntries secs) := by
  unfold implicitRelas implicitEntries
  induction h with
  | nil => exact .nil
  | @cons shdr sec _ _ hsec _ ih =>
    rw [List.flatMap_cons, List.flatMap_cons]
    apply List.rel_append _ ih
    obtain rfl := hsec.header
    split
    · rw [List.forall₂_map_left_iff, List.forall₂_map_right_iff]
      exact hsec.relas.imp fun _ _ h => ⟨rfl, h⟩
    · exact .nil

/-- When each entry faults as it is or is not supported and intact, the first fault is no
access outside if the entries up to the first unsupported one are intact. -/
theorem findSome?_fault {α β : Type} {R : α → β → Prop} {supported : α → Bool}
    {Intact : α → Prop} {fault : β → Option LoadFault}
    (hobject : ∀ a b, R a b → supported a = false → fault b = some .object)
    (hnone : ∀ a b, R a b → supported a → Intact a → fault b = none)
    (houtside : ∀ a b, R a b → supported a → ¬ Intact a → fault b = some .outside)
    {l : List α} {l' : List β} (h : List.Forall₂ R l l') :
    (l'.findSome? fault = some .outside ↔ ¬ ∀ a ∈ l.takeWhile supported, Intact a) ∧
      (l'.findSome? fault = none ↔ ∀ a ∈ l, supported a ∧ Intact a) := by
  induction h with
  | nil => simp
  | @cons a b l l' hab _ ih =>
    rw [List.findSome?_cons, List.takeWhile_cons]
    by_cases hsupported : supported a
    · rw [if_pos hsupported, List.forall_mem_cons, List.forall_mem_cons]
      by_cases hintact : Intact a
      · simp only [hnone a b hab hsupported hintact, hsupported, hintact, true_and]
        exact ih
      · rw [houtside a b hab hsupported hintact]
        constructor
        · exact iff_of_true rfl fun h => hintact h.1
        · exact iff_of_false nofun fun h => hintact h.1.2
    · rw [if_neg hsupported, hobject a b hab (Bool.eq_false_iff.mpr hsupported),
        List.forall_mem_cons]
      constructor
      · exact iff_of_false nofun fun h => h fun _ h => absurd h List.not_mem_nil
      · exact iff_of_false nofun fun h => hsupported h.1.1

theorem storedAddend_isSome (mem : Memory) (rela : Rela) :
    (storedAddend mem rela).isSome = rela.isSupported := by
  unfold storedAddend Rela.isSupported prescription
  split <;> simp_all

/-- How `store_addends` ends is up to the fields that it reads and the first type that is
not supported. -/
theorem checkedStoreAddends_fault (hplaced : Placed objsrc shdrs obj) (mem : Memory) :
    (fault? (checkedStoreAddends mem obj) = some .outside ↔
      ¬ ∀ e ∈ (implicitRelas objsrc shdrs).takeWhile (·.2.isSupported),
        FieldIntact shdrs e.1 e.2) ∧
    (fault? (checkedStoreAddends mem obj) = none ↔
      ∀ e ∈ implicitRelas objsrc shdrs, e.2.isSupported ∧ FieldIntact shdrs e.1 e.2) := by
  rw [fault?_checkedStoreAddends]
  have hcases : ∀ e e' : Nat × Rela, e'.1 = e.1 ∧ PlacedRela obj e.1 e.2 e'.2 →
      (storedAddend mem e'.2).isSome = e.2.isSupported ∧
      (e.2.isSupported → (fieldWithin obj e'.1 e'.2
        ((prescription e'.2.type).elim 0 Prod.fst) ↔ FieldIntact shdrs e.1 e.2)) := by
    rintro e e' ⟨hinfo, hrela⟩
    have hsupported : e'.2.isSupported = e.2.isSupported := by
      unfold Rela.isSupported
      rw [hrela.type_eq]
    refine ⟨by rw [storedAddend_isSome, hsupported], fun h => ?_⟩
    rw [hinfo, fieldWithin_iff hplaced hrela, hrela.type_eq]
    obtain ⟨⟨n, c⟩, hpre⟩ := Option.isSome_iff_exists.mp h
    unfold FieldIntact
    rw [hpre]
    constructor
    · rintro h n' c' ⟨⟩
      exact h
    · exact fun h => h n c rfl
  apply findSome?_fault _ _ _ (implicitEntries_placed hplaced)
  · intro e e' h hsupported
    obtain ⟨hstored, -⟩ := hcases e e' h
    rw [hsupported, Option.isSome_eq_false_iff, Option.isNone_iff_eq_none] at hstored
    unfold checkedAddend
    rw [hstored]
    rfl
  · intro e e' h hsupported hintact
    obtain ⟨hstored, hfield⟩ := hcases e e' h
    rw [hsupported] at hstored
    obtain ⟨addend, hstored⟩ := Option.isSome_iff_exists.mp hstored
    unfold checkedAddend
    rw [hstored]
    show fault? (if _ then _ else _) = _
    rw [if_pos ((hfield hsupported).mpr hintact)]
    rfl
  · intro e e' h hsupported hintact
    obtain ⟨hstored, hfield⟩ := hcases e e' h
    rw [hsupported] at hstored
    obtain ⟨addend, hstored⟩ := Option.isSome_iff_exists.mp hstored
    unfold checkedAddend
    rw [hstored]
    show fault? (if _ then _ else _) = _
    rw [if_neg fun h => hintact ((hfield hsupported).mp h)]
    rfl

theorem forall₂_of_mapM_ok {ε α β : Type} {f : α → Except ε β} {l : List α} {l' : List β}
    (h : l.mapM f = .ok l') : List.Forall₂ (fun a b => f a = .ok b) l l' := by
  induction l generalizing l' with
  | nil =>
    cases h
    exact .nil
  | cons a l ih =>
    rw [List.mapM_cons] at h
    cases hb : f a with
    | error e =>
      rw [hb] at h
      cases h
    | ok b =>
      cases hbs : l.mapM f with
      | error e =>
        rw [hb, hbs] at h
        cases h
      | ok bs =>
        rw [hb, hbs] at h
        cases h
        exact .cons hb (ih hbs)

theorem checkedAddends_ok {sec sec' : Section} (h : checkedAddends obj mem sec = .ok sec') :
    ∃ addends, sec' = { sec with addends := addends } ∧
      (sec.isRelocations → addends.length = sec.relas.length) := by
  unfold checkedAddends at h
  by_cases hrela : sec.shType = SHT_RELA
  · rw [if_pos hrela] at h
    cases h
    exact ⟨_, rfl, fun _ => List.length_map _⟩
  · rw [if_neg hrela] at h
    by_cases hrel : sec.shType = SHT_REL
    · rw [if_pos hrel] at h
      cases haddends : sec.relas.mapM (checkedAddend obj sec.shInfo mem) with
      | error e =>
        rw [haddends] at h
        cases h
      | ok addends =>
        rw [haddends] at h
        cases h
        exact ⟨addends, rfl, fun _ => (forall₂_of_mapM_ok haddends).length_eq.symm⟩
    · rw [if_neg hrel] at h
      cases h
      refine ⟨sec.addends, rfl, fun hboth => ?_⟩
      unfold Shdr.isRelocations at hboth
      simp [hrel, hrela] at hboth

/-- Storing the addends leaves the rest of the object as it was. -/
theorem checkedStoreAddends_ok (hplaced : Placed objsrc shdrs obj)
    (h : checkedStoreAddends mem obj = .ok obj') :
    Placed objsrc shdrs obj' ∧
      ∀ sec ∈ obj', sec.isRelocations → sec.addends.length = sec.relas.length := by
  have hsections := (forall₂_of_mapM_ok h).imp fun _ _ => checkedAddends_ok
  have hsame : List.Forall₂ SameHeader obj obj' := by
    apply hsections.imp
    rintro sec sec' ⟨addends, rfl, -⟩
    exact ⟨rfl, rfl⟩
  constructor
  · apply forall₂_trans _ hplaced hsections
    rintro shdr sec sec' hsec ⟨addends, rfl, -⟩
    exact PlacedSection.sameHeaders hsame ⟨hsec.header, hsec.syms, hsec.relas⟩
  · intro sec' hsec' hrel
    obtain ⟨sec, -, addends, rfl, hlength⟩ := exists_of_forall₂_right hsections hsec'
    exact hlength hrel

/-! ## Relocations -/

/-- A loop comes to its end when each of its rounds does, if that is up to what the round
is for only. -/
theorem foldlM_isSome {α β : Type} {f : β → α → Option β} {P : α → Prop}
    (hf : ∀ m a, (∃ m', f m a = some m') ↔ P a) (l : List α) (m : β) :
    (∃ m', l.foldlM f m = some m') ↔ ∀ a ∈ l, P a := by
  induction l generalizing m with
  | nil => exact iff_of_true ⟨m, rfl⟩ fun _ h => absurd h List.not_mem_nil
  | cons a l ih =>
    rw [List.foldlM_cons, List.forall_mem_cons, ← hf m a]
    constructor
    · rintro ⟨m', h⟩
      obtain ⟨m₁, h₁, h⟩ := Option.bind_eq_some_iff.mp h
      exact ⟨⟨m₁, h₁⟩, (ih m₁).mp ⟨m', h⟩⟩
    · rintro ⟨⟨m₁, h₁⟩, hall⟩
      rw [h₁]
      exact (ih m₁).mpr hall

/-- A field in the section that it is for is owned by the object. -/
theorem owns_of_fieldWithin {info n : Nat} {rela : Rela} (h : fieldWithin obj info rela n) :
    ∀ i < n, obj.owns (rela.rOffset + BitVec.ofNat 64 i) := by
  intro i hi
  unfold fieldWithin at h
  obtain ⟨sec, hsec⟩ : ∃ sec, obj[info]? = some sec := by
    cases hsec : obj[info]? with
    | none =>
      rw [hsec] at h
      cases h
    | some sec => exact ⟨sec, rfl⟩
  rw [hsec, Option.any_some, decide_eq_true_eq] at h
  apply List.any_eq_true.mpr
  refine ⟨sec, List.mem_of_getElem? hsec, ?_⟩
  rw [decide_eq_true_eq]
  have hle : (rela.rOffset + BitVec.ofNat 64 i - sec.seg).toNat ≤
      (rela.rOffset - sec.seg).toNat + i := by
    have hplace : rela.rOffset + BitVec.ofNat 64 i - sec.seg =
        rela.rOffset - sec.seg + BitVec.ofNat 64 i := by
      rw [BitVec.sub_eq_add_neg, BitVec.sub_eq_add_neg, BitVec.add_assoc, BitVec.add_assoc,
        BitVec.add_comm (BitVec.ofNat 64 i)]
    rw [hplace, BitVec.toNat_add, BitVec.toNat_ofNat]
    have h₁ := Nat.mod_le ((rela.rOffset - sec.seg).toNat + i % 2 ^ 64) (2 ^ 64)
    have h₂ := Nat.mod_le i (2 ^ 64)
    omega
  omega

/-- A relocation is done when what it uses is there. -/
theorem checkedRelocation_isSome (shdr : Shdr) (rela : Rela) (addend : Word) (mem : Memory) :
    (∃ mem', checkedRelocation obj shdr rela addend mem = some mem') ↔
      relocationWithin obj shdr rela := by
  unfold checkedRelocation
  by_cases h : relocationWithin obj shdr rela
  · rw [if_pos h]
    refine iff_of_true ?_ h
    rw [doRelocation_eq]
    unfold relocationWithin at h
    rw [decide_eq_true_eq] at h
    cases hpre : prescription rela.type with
    | none => exact ⟨mem, rfl⟩
    | some field =>
      obtain ⟨n, c⟩ := field
      rw [hpre, Option.all_some, decide_eq_true_eq] at h
      obtain ⟨-, hsym, hfield⟩ := h
      obtain ⟨sym, hsym⟩ := Option.isSome_iff_exists.mp hsym
      rw [hsym]
      show ∃ mem', memcpy obj rela.rOffset (c.value sym addend rela.rOffset) n mem = some mem'
      unfold memcpy
      rw [if_pos (owns_of_fieldWithin hfield)]
      exact ⟨_, rfl⟩
  · rw [if_neg h]
    exact iff_of_false nofun h

theorem mem_zip_left {α β : Type} {l : List α} {l' : List β} (h : l'.length = l.length) {a : α}
    (ha : a ∈ l) : ∃ b, (a, b) ∈ l.zip l' := by
  have hfst : (l.zip l').map Prod.fst = l := List.map_fst_zip (by omega)
  rw [← hfst] at ha
  obtain ⟨⟨a', b⟩, hmem, rfl⟩ := List.mem_map.mp ha
  exact ⟨b, hmem⟩

theorem checkedSection_isSome (mem : Memory) (sec : Section) :
    (∃ mem', checkedSection obj mem sec = some mem') ↔
    (sec.isRelocations → ∀ e ∈ sec.relas.zip sec.addends,
      relocationWithin obj sec.toShdr e.1) := by
  unfold checkedSection
  by_cases hrel : sec.isRelocations
  · rw [if_pos hrel, forall_prop_of_true hrel]
    apply foldlM_isSome
    intro mem e
    exact checkedRelocation_isSome sec.toShdr e.1 e.2 mem
  · rw [if_neg hrel]
    exact iff_of_true ⟨mem, rfl⟩ fun h => absurd h hrel

theorem checkedRelocations_isSome
    (hlength : ∀ sec ∈ obj, sec.isRelocations → sec.addends.length = sec.relas.length)
    (mem : Memory) : (∃ mem', checkedRelocations obj mem = some mem') ↔
      ∀ sec ∈ obj, sec.isRelocations → ∀ rela ∈ sec.relas,
        relocationWithin obj sec.toShdr rela := by
  unfold checkedRelocations
  rw [foldlM_isSome checkedSection_isSome]
  apply forall_congr'
  intro sec
  apply imp_congr_right
  intro hsec
  apply imp_congr_right
  intro hrel
  constructor
  · intro h rela hrela
    obtain ⟨addend, hmem⟩ := mem_zip_left (hlength sec hsec hrel) hrela
    exact h (rela, addend) hmem
  · intro h e he
    exact h e.1 (List.of_mem_zip he).1

theorem relocationsWithin_iff (hplaced : Placed objsrc shdrs obj) :
    (∀ sec ∈ obj, sec.isRelocations → ∀ rela ∈ sec.relas,
      relocationWithin obj sec.toShdr rela) ↔
    ∀ shdr ∈ shdrs, ∀ rela ∈ fileRelas objsrc shdr, RelocationIntact objsrc shdrs shdr rela := by
  constructor
  · intro h shdr hshdr rela hrela
    obtain ⟨sec, hsec, hsection⟩ := exists_of_forall₂_right hplaced.flip hshdr
    obtain ⟨rela', hrela', hplacedRela⟩ := exists_of_forall₂_right hsection.relas.flip hrela
    have hrel : sec.isRelocations := by
      by_contra hrel
      rw [hsection.header] at hrel
      have hnil : fileRelas objsrc shdr = [] := if_neg hrel
      rw [hnil] at hrela
      exact List.not_mem_nil hrela
    have hwithin := h sec hsec hrel rela' hrela'
    rw [hsection.header] at hwithin
    exact (relocationWithin_iff hplaced hplacedRela).mp hwithin
  · intro h sec hsec _ rela' hrela'
    obtain ⟨shdr, hshdr, hsection⟩ := exists_of_forall₂_right hplaced hsec
    obtain ⟨rela, hrela, hplacedRela⟩ := exists_of_forall₂_right hsection.relas hrela'
    rw [hsection.header]
    exact (relocationWithin_iff hplaced hplacedRela).mpr (h shdr hshdr rela hrela)

/-! ## Loading -/

theorem readObject_some {place : Nat → Word} (h : readObject objsrc place mem = some (obj, mem')) :
    ∃ shdrs, fileShdrs objsrc = some shdrs ∧ (∀ shdr ∈ shdrs, SectionIntact objsrc shdr) ∧
      OfFile objsrc shdrs obj := by
  unfold readObject at h
  split at h
  · cases h
  · obtain ⟨shoff, hshoff, h⟩ := Option.bind_eq_some_iff.mp h
    obtain ⟨shentsize, hshentsize, h⟩ := Option.bind_eq_some_iff.mp h
    obtain ⟨shnum, hshnum, h⟩ := Option.bind_eq_some_iff.mp h
    obtain ⟨shdrs, hshdrs, hall, hfile⟩ := readSections_some h
    refine ⟨shdrs, ?_, hall, hfile⟩
    unfold fileShdrs
    rw [hshoff, hshentsize, hshnum]
    exact hshdrs

theorem readObject_of_intact (hheader : headerChecked objsrc)
    (hshdrs : fileShdrs objsrc = some shdrs)
    (hall : ∀ shdr ∈ shdrs, SectionIntact objsrc shdr) (place : Nat → Word) (mem : Memory) :
    ∃ obj mem', readObject objsrc place mem = some (obj, mem') := by
  unfold headerChecked at hheader
  rw [decide_eq_true_eq] at hheader
  unfold fileShdrs at hshdrs
  obtain ⟨shoff, hshoff, hshdrs⟩ := Option.bind_eq_some_iff.mp hshdrs
  obtain ⟨shentsize, hshentsize, hshdrs⟩ := Option.bind_eq_some_iff.mp hshdrs
  obtain ⟨shnum, hshnum, hshdrs⟩ := Option.bind_eq_some_iff.mp hshdrs
  unfold readObject
  rw [if_neg fun h => h.elim (by omega) fun h => h hheader.2, hshoff, hshentsize, hshnum]
  exact readSections_of_intact place hshdrs hall mem

theorem within_bind {α β : Type} (o : Option α) (f : α → Except LoadFault β) :
    (within o >>= f) ≠ .error .outside ↔ ∃ a, o = some a ∧ f a ≠ .error .outside := by
  cases o with
  | none => exact iff_of_false (fun h => h rfl) nofun
  | some a => exact ⟨fun h => ⟨a, rfl, h⟩, fun ⟨b, hb, h⟩ => by cases hb; exact h⟩

theorem fault?_eq_some {ε α : Type} {x : Except ε α} {e : ε} :
    fault? x = some e ↔ x = .error e := by
  cases x with
  | error e' => exact ⟨fun h => congrArg _ (Option.some.inj h), fun h => by cases h; rfl⟩
  | ok a => exact iff_of_false nofun nofun

theorem fault?_eq_none {ε α : Type} {x : Except ε α} : fault? x = none ↔ ∃ a, x = .ok a := by
  cases x with
  | error e => exact iff_of_false nofun nofun
  | ok a => exact iff_of_true rfl ⟨a, rfl⟩

/-- The addends and the relocations of an object whose links are all there. -/
theorem addends_safe_iff (hplaced : Placed objsrc shdrs obj) (mem : Memory) :
    (do
      let obj ← checkedStoreAddends mem obj
      let mem ← within (checkedRelocations obj mem)
      .ok (obj, mem) : Except LoadFault (Object × Memory)) ≠ .error .outside ↔
    (∀ e ∈ (implicitRelas objsrc shdrs).takeWhile (·.2.isSupported), FieldIntact shdrs e.1 e.2) ∧
    ((∃ e ∈ implicitRelas objsrc shdrs, ¬ e.2.isSupported) ∨
      ∀ shdr ∈ shdrs, ∀ rela ∈ fileRelas objsrc shdr,
        RelocationIntact objsrc shdrs shdr rela) := by
  obtain ⟨houtside, hnone⟩ := checkedStoreAddends_fault hplaced mem
  rw [fault?_eq_some] at houtside
  rw [fault?_eq_none] at hnone
  cases hstored : checkedStoreAddends mem obj with
  | error fault =>
    rw [hstored] at houtside hnone
    have hfields : fault ≠ .outside ↔
        ∀ e ∈ (implicitRelas objsrc shdrs).takeWhile (·.2.isSupported),
          FieldIntact shdrs e.1 e.2 := by
      rw [← not_iff_not, not_not, ← houtside, Except.error.injEq]
    show Except.error fault ≠ .error .outside ↔ _
    rw [Ne, Except.error.injEq, ← Ne, hfields]
    constructor
    · intro h
      refine ⟨h, Or.inl ?_⟩
      by_contra hall
      -- otherwise no type is unsupported, all fields are read, and no fault is left
      have hsupported : ∀ e ∈ implicitRelas objsrc shdrs, e.2.isSupported :=
        fun e he => by_contra fun hne => hall ⟨e, he, hne⟩
      have hwhole : (implicitRelas objsrc shdrs).takeWhile (·.2.isSupported) =
          implicitRelas objsrc shdrs := List.takeWhile_eq_self_iff.mpr hsupported
      rw [hwhole] at h
      obtain ⟨obj', hobj'⟩ := hnone.mpr fun e he => ⟨hsupported e he, h e he⟩
      cases hobj'
    · exact And.left
  | ok obj' =>
    obtain ⟨hplaced', hlength⟩ := checkedStoreAddends_ok hplaced hstored
    have hall := hnone.mp ⟨obj', hstored⟩
    show (within (checkedRelocations obj' mem) >>= fun mem => Except.ok (obj', mem)) ≠ _ ↔ _
    rw [within_bind]
    have hdone : (∃ mem', checkedRelocations obj' mem = some mem' ∧
        (Except.ok (obj', mem') : Except LoadFault _) ≠ .error .outside) ↔
        ∃ mem', checkedRelocations obj' mem = some mem' :=
      exists_congr fun _ => and_iff_left nofun
    rw [hdone, checkedRelocations_isSome hlength, relocationsWithin_iff hplaced']
    constructor
    · intro h
      exact ⟨fun e he => (hall e ((List.takeWhile_sublist _).subset he)).2, .inr h⟩
    · rintro ⟨-, ⟨e, he, hne⟩ | h⟩
      · exact absurd (hall e he).1 hne
      · exact h

theorem mapM_of_forall₂ {α β : Type} {f : α → Option β} {l : List α} {l' : List β}
    (h : List.Forall₂ (fun a b => f a = some b) l l') : l.mapM f = some l' := by
  induction h with
  | nil => rfl
  | cons hab _ ih =>
    rw [List.mapM_cons, hab, ih]
    rfl

theorem storedAddend_of_checked {info : Nat} {rela : Rela} {addend : Word}
    (h : checkedAddend obj info mem rela = .ok addend) : storedAddend mem rela = some addend := by
  unfold checkedAddend at h
  split at h
  · cases h
  · rename_i hstored
    split at h
    · cases h
      exact hstored
    · cases h

theorem storeAddends_of_checked (h : checkedStoreAddends mem obj = .ok obj') :
    storeAddends mem obj = some obj' := by
  apply mapM_of_forall₂
  apply (forall₂_of_mapM_ok h).imp
  intro sec sec' hsec
  unfold checkedAddends at hsec
  by_cases hrela : sec.shType = SHT_RELA
  · rw [if_pos hrela] at hsec ⊢
    cases hsec
    rfl
  · rw [if_neg hrela] at hsec ⊢
    by_cases hrel : sec.shType = SHT_REL
    · rw [if_pos hrel] at hsec ⊢
      cases haddends : sec.relas.mapM (checkedAddend obj sec.shInfo mem) with
      | error e =>
        rw [haddends] at hsec
        cases hsec
      | ok addends =>
        rw [haddends] at hsec
        cases hsec
        have hstored : sec.relas.mapM (storedAddend mem) = some addends :=
          mapM_of_forall₂ ((forall₂_of_mapM_ok haddends).imp fun _ _ => storedAddend_of_checked)
        rw [hstored]
        rfl
    · rw [if_neg hrel] at hsec ⊢
      cases hsec
      rfl

/-- A loop whose rounds do what those of another one do comes to the same end. -/
theorem foldlM_of_imp {α β : Type} {f g : β → α → Option β}
    (hfg : ∀ {m a m'}, f m a = some m' → g m a = some m') {l : List α} {m m' : β}
    (h : l.foldlM f m = some m') : l.foldlM g m = some m' := by
  induction l generalizing m with
  | nil => exact h
  | cons a l ih =>
    rw [List.foldlM_cons] at h ⊢
    obtain ⟨m₁, h₁, h⟩ := Option.bind_eq_some_iff.mp h
    rw [hfg h₁]
    exact ih h

theorem doRelocations_of_checked (h : checkedRelocations obj mem = some mem') :
    doRelocations obj mem = some mem' := by
  apply foldlM_of_imp _ h
  intro m sec m' hsec
  unfold checkedSection at hsec
  split at hsec
  · rename_i hrel
    rw [if_pos hrel]
    apply foldlM_of_imp _ hsec
    intro m e m' he
    unfold checkedRelocation at he
    split at he
    · exact he
    · cases he
  · rename_i hrel
    rw [if_neg hrel]
    exact hsec

/-- Where no fault is found, `load` does what it does without them. -/
theorem checkedLoad_ok {place : Nat → Word} {loaded : Object × Memory}
    (h : checkedLoad objsrc place mem = .ok loaded) : load objsrc place mem = some loaded := by
  unfold checkedLoad at h
  split at h
  · cases hread : readObject objsrc place mem with
    | none =>
      rw [hread] at h
      cases h
    | some read =>
      obtain ⟨obj, mem₁⟩ := read
      rw [hread] at h
      change (within (offsetsToAddresses obj) >>= _) = Except.ok loaded at h
      cases hobj : offsetsToAddresses obj with
      | none =>
        rw [hobj] at h
        cases h
      | some obj₁ =>
        rw [hobj] at h
        change (checkedStoreAddends mem₁ obj₁ >>= _) = Except.ok loaded at h
        cases hstored : checkedStoreAddends mem₁ obj₁ with
        | error e =>
          rw [hstored] at h
          cases h
        | ok obj₂ =>
          rw [hstored] at h
          change (within (checkedRelocations obj₂ mem₁) >>= _) = Except.ok loaded at h
          cases hmem : checkedRelocations obj₂ mem₁ with
          | none =>
            rw [hmem] at h
            cases h
          | some mem₂ =>
            rw [hmem] at h
            cases h
            unfold load
            rw [hread, Option.bind_eq_bind, Option.bind_some]
            show Option.bind (offsetsToAddresses obj) _ = _
            rw [hobj, Option.bind_some]
            show Option.bind (storeAddends mem₁ obj₁) _ = _
            rw [storeAddends_of_checked hstored, Option.bind_some]
            show Option.bind (doRelocations obj₂ mem₁) _ = _
            rw [doRelocations_of_checked hmem]
            rfl
  · cases h

/-- A file in which nothing is missing is loaded without a fault. -/
theorem checkedLoad_of_intact (hheader : headerChecked objsrc)
    (hshdrs : fileShdrs objsrc = some shdrs) (hintact : FileIntact objsrc shdrs)
    (hsupported : ∀ e ∈ implicitRelas objsrc shdrs, e.2.isSupported) (place : Nat → Word)
    (mem : Memory) : ∃ loaded, checkedLoad objsrc place mem = .ok loaded := by
  obtain ⟨obj, mem₁, hread⟩ := readObject_of_intact hheader hshdrs hintact.sections place mem
  obtain ⟨shdrs', hshdrs', -, hfile⟩ := readObject_some hread
  obtain rfl := Option.some.inj (hshdrs.symm.trans hshdrs')
  obtain ⟨obj₁, hobj₁⟩ := offsetsToAddresses_of_links hfile hintact.links
  obtain ⟨-, hplaced⟩ := offsetsToAddresses_some hfile hobj₁
  have hfields := hintact.fields
  rw [List.takeWhile_eq_self_iff.mpr hsupported] at hfields
  obtain ⟨obj₂, hobj₂⟩ := fault?_eq_none.mp ((checkedStoreAddends_fault hplaced mem₁).2.mpr
    fun e he => ⟨hsupported e he, hfields e he⟩)
  obtain ⟨hplaced₂, hlength⟩ := checkedStoreAddends_ok hplaced hobj₂
  have hrelocations : ∀ shdr ∈ shdrs, ∀ rela ∈ fileRelas objsrc shdr,
      RelocationIntact objsrc shdrs shdr rela := by
    rcases hintact.relocations with ⟨e, he, hne⟩ | h
    · exact absurd (hsupported e he) hne
    · exact h
  obtain ⟨mem₂, hmem₂⟩ := (checkedRelocations_isSome hlength mem₁).mpr
    ((relocationsWithin_iff hplaced₂).mpr hrelocations)
  refine ⟨(obj₂, mem₂), ?_⟩
  unfold checkedLoad
  rw [if_pos hheader, hread]
  show (within (offsetsToAddresses obj) >>= _) = _
  rw [hobj₁]
  show (checkedStoreAddends mem₁ obj₁ >>= _) = _
  rw [hobj₂]
  show (within (checkedRelocations obj₂ mem₁) >>= _) = _
  rw [hmem₂]
  rfl

theorem checkedLoad_safe_iff (objsrc : List Byte) (place : Nat → Word) (mem : Memory) :
    checkedLoad objsrc place mem ≠ .error .outside ↔
      (headerChecked objsrc = false ∨
        ∃ shdrs, fileShdrs objsrc = some shdrs ∧ FileIntact objsrc shdrs) := by
  unfold checkedLoad
  cases hheader : headerChecked objsrc with
  | false => exact iff_of_true nofun (.inl rfl)
  | true =>
    rw [if_pos rfl, within_bind, or_iff_right Bool.true_eq_false_eq_False]
    constructor
    · rintro ⟨⟨obj, mem₁⟩, hread, h⟩
      obtain ⟨shdrs, hshdrs, hsections, hfile⟩ := readObject_some hread
      obtain ⟨obj', hobj', h⟩ := (within_bind _ _).mp h
      obtain ⟨hlinks, hplaced⟩ := offsetsToAddresses_some hfile hobj'
      obtain ⟨hfields, hrelocations⟩ := (addends_safe_iff hplaced mem₁).mp h
      exact ⟨shdrs, hshdrs, hsections, hlinks, hfields, hrelocations⟩
    · rintro ⟨shdrs, hshdrs, hintact⟩
      obtain ⟨obj, mem₁, hread⟩ := readObject_of_intact hheader hshdrs hintact.sections place mem
      obtain ⟨shdrs', hshdrs', -, hfile⟩ := readObject_some hread
      obtain rfl := Option.some.inj (hshdrs.symm.trans hshdrs')
      obtain ⟨obj', hobj'⟩ := offsetsToAddresses_of_links hfile hintact.links
      obtain ⟨-, hplaced⟩ := offsetsToAddresses_some hfile hobj'
      refine ⟨(obj, mem₁), hread, (within_bind _ _).mpr ⟨obj', hobj', ?_⟩⟩
      exact (addends_safe_iff hplaced mem₁).mpr ⟨hintact.fields, hintact.relocations⟩

/-- Where `region_alloc` has room for the segments, its pointer does not wrap around behind any. -/
def roomFor (shdrs : List Shdr) (place : Nat → Word) : Bool :=
  shdrs.zipIdx.all fun e => (place e.2).toNat + e.1.allocated < 2 ^ 64

/-- `load`, where `region_alloc` may have no room for a segment: `read_object` then goes on with
a region whose pointer has moved back to what is in use. -/
def regionLoad (objsrc : List Byte) (place : Nat → Word) (mem : Memory) :
    Except LoadFault (Object × Memory) :=
  if headerChecked objsrc ∧ (fileShdrs objsrc).any fun shdrs => ! roomFor shdrs place then
    .error .outside
  else checkedLoad objsrc place mem

end L2.Bootstrap.ObjectFile
