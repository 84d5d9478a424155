import L2.Bootstrap.Generator
import L2.Bootstrap.LoadWritten

/-!
# The round trip of a program

A program that goes through `write_elf` and `load` comes back: its code linked, its static
bindings in words of their own, its symbols listed.  This is so exactly as long as the number
that `max_elf_size` adds up is one that its `int` holds.
-/

namespace L2.Bootstrap

open X86 (Word Memory BytesAt)
open ObjectFile (fileShdrs fileSyms)

variable {β : Type} [DecidableEq β] {p : Assembly β} {old : Uninitialized} {offset : β → Word}
  {place : Nat → Word}

/-! ## What comes back -/

/-- A size as an `int`. -/
def toInt (n : Nat) : Int := (n : Int).bmod (2 ^ 32)

theorem toInt_of_lt {n : Nat} (h : n < 2 ^ 31) : toInt n = n := by
  unfold toInt
  rw [Int.bmod_def]
  omega

/-- The value of the symbol of a binding when the program has just been loaded. -/
def loadedSymbol (p : Assembly β) (address : β → Word) (b : β) : Word :=
  if b ∈ p.undefinedBindings then 0 else address b

/-- What the program is after it has been written to a file and loaded. -/
structure CameBack (p : Assembly β) (offset : β → Word) (place : Nat → Word)
    (written : Written β) (obj : ObjectFile.Object) (mem : Memory) (address : β → Word) :
    Prop where
  /-- The file is not longer than what the region has been asked for. -/
  size : (written.bin.length : Int) ≤ toInt (maxElfSize p)
  /-- Every field holds `S + A` or `S + A - P`, and the rest of the code is as assembled. -/
  text : BytesAt mem (place 2) ((assembled p offset).relas.foldl
    (relocate (loadedSymbol p address) (place 2)) (assembled p offset).bin)
  labels : ∀ before after b, p.generatedExpressions = before ++ .label b :: after →
    address b = place 2 + BitVec.ofNat 64 (codeBytes before).length
  statics : ∃ bss, ∃ start : β → Nat, (placedSections written.bin place)[5]? = some (place 5, bss) ∧
    (∀ b ∈ p.staticBindings, address b = place 5 + BitVec.ofNat 64 (start b) ∧
      wordBytes ∣ start b ∧ start b + p.size b ≤ bss.shSize) ∧
    ∀ b ∈ p.staticBindings, ∀ b' ∈ p.staticBindings, b ≠ b' →
      start b + p.size b ≤ start b' ∨ start b' + p.size b' ≤ start b
  immutable : ObjectFile.immutableBindings obj mem = some ((p.globalStatics ++ p.globalLabels).map
    fun b => ⟨p.symbolName b, address b⟩).reverse
  mutable : ObjectFile.mutableBindings obj mem =
    some (p.undefinedBindings.map fun b => ⟨p.symbolName b, 0⟩).reverse
  /-- Local symbols come before the others, and `sh_info` is their number. -/
  locals : ∃ shdrs symtab, fileShdrs written.bin = some shdrs ∧ shdrs[4]? = some symtab ∧
    symtab.shInfo ≤ (fileSyms written.bin symtab).length ∧
    ∀ i sym, (fileSyms written.bin symtab)[i]? = some sym →
      (sym.bind = STB_LOCAL ↔ i < symtab.shInfo)

/-- The program is written without a write outside of an array, and what is loaded from its file
is the program. -/
def RoundTrip (old : Uninitialized) (p : Assembly β) (offset : β → Word) (place : Nat → Word)
    (mem : Memory) : Prop :=
  ∃ written obj mem₁ address, writeElf old p offset = some written ∧
    loadProgram old p offset place mem = some (obj, mem₁, address) ∧
    CameBack p offset place written obj mem₁ address

/-! ## The pieces -/

theorem loadedSymbol_loadedAddress (hp : p.WellFormed) (offset : β → Word) (place : Nat → Word) :
    ∀ b ∈ p.symbolBndgs, loadedSymbol p (loadedAddress p offset place) b =
      linkAddress p offset place [] b := by
  intro b hb
  rw [← linkAddress_eq hp offset place [] b hb]
  rfl

theorem relocate_assembled (hp : p.WellFormed) (symbol : β → Word) (base : Word) :
    (assembled p offset).relas.foldl (relocate symbol base) (assembled p offset).bin =
      linkedCode symbol base 0 p.generatedExpressions := by
  have hcode := relocate_code symbol base hp.encodable []
  rw [List.length_nil, List.nil_append, List.nil_append] at hcode
  unfold assembled
  rw [assemble_relas, assemble_bin]
  exact hcode

theorem length_localSymbols_le_finalSyms (p : Assembly β) (offset : β → Word) :
    (localSymbols p offset).syms.length ≤ (finalSyms p offset).length := by
  rw [length_finalSyms, (entered_localSymbols p offset).length]
  unfold Assembly.entries
  simp only [List.length_append]
  omega

/-- `write_elf` does not come back where the size is none that an `int` holds. -/
theorem maxElfSize_lt_of_writeElf {written : Written β}
    (h : writeElf old p offset = some written) : maxElfSize p < 2 ^ 31 := by
  unfold writeElf at h
  simp only [Option.bind_eq_bind, Option.bind_eq_some_iff] at h
  obtain ⟨_, -, _, -, _, -, _, -, _, -, h⟩ := h
  split at h
  · next hroom => exact hroom.1
  · cases h

theorem exists_written (old : Uninitialized) (hsize : maxElfSize p < 2 ^ 31)
    (hnamed : ∀ rela ∈ (assembled p offset).relas, rela.symbol ∈ p.symbolBndgs) :
    ∃ written, writeElf old p offset = some written ∧ written.bin.length ≤ maxElfSize p := by
  have hrelas : (assembled p offset).relas = codeRelas 0 p.generatedExpressions :=
    assemble_relas _ _ _
  rw [hrelas] at hnamed
  obtain ⟨relas, hmap⟩ := exists_elfRelas offset hnamed
  rw [writeElf_eq old hsize, hmap]
  exact ⟨_, rfl, length_writtenFile_le old p offset hmap⟩

/-- A program of literals. -/
def literalsProgram (n : Nat) : Assembly Bndg where
  generatedExpressions :=
    generateProgram absoluteAnalysis ((List.range n).map fun id => .literal id 0)
  undefinedBindings := []
  staticBindings := []
  name _ := none
  type _ := .absoluteStorage
  scope _ := .localScope
  state _ := .definedState
  size _ := 0

theorem generateProgram_literals (a : Analysis) (ids : List ExprId) :
    generateProgram a (ids.map fun id => .literal id 0) =
      List.replicate ids.length (.movqImmToReg (.literal 0) rax) := by
  unfold generateProgram
  suffices ∀ fresh, (generateExprs a fresh (ids.map fun id => .literal id 0)).1 =
      List.replicate ids.length (.movqImmToReg (.literal 0) rax) from this 0
  induction ids with
  | nil => exact fun _ => rfl
  | cons id ids ih => exact fun fresh => congrArg (_ :: ·) (ih fresh)

theorem maxElfSize_literalsProgram (n : Nat) :
    maxElfSize (literalsProgram n) = 600 + padSize (15 * n) 8 + 48 * n := by
  have hcode : (literalsProgram n).generatedExpressions =
      List.replicate n (.movqImmToReg (.literal 0) rax) := by
    have h := generateProgram_literals absoluteAnalysis (List.range n)
    rw [List.length_range] at h
    exact h
  have hlabels : (literalsProgram n).labels = [] := by
    unfold Assembly.labels
    rw [hcode]
    exact List.filterMap_replicate_of_none rfl
  unfold maxElfSize measureStrtab measureSymtab
  rw [hcode, hlabels, List.length_replicate]
  show 64 + 64 * 7 + 56 + padSize (15 * n) 8 + 8 + 24 * 1 + 24 * 2 * n = _
  omega

end L2.Bootstrap
