import L2.Bootstrap.ReadElf
import L2.Bootstrap.SymbolValues

/-!
# Loading a written file

A file that `write_elf` has written is loaded: its sections come to the addresses that they are
given, its symbols get the addresses of what they name, and its relocations link the code.
-/

namespace L2.Bootstrap

open X86 (Word Byte Memory bytesOf BytesAt)
open ObjectFile (Shdr Sym Section SHT_SYMTAB SHT_RELA SHT_NOBITS SHN_UNDEF readNumber
  readObject fileShdrs fileSyms fileRelas fileSection SectionIntact)
open Ranges (extent)

variable {β : Type}

variable [DecidableEq β] {p : Assembly β}

/-! ## The parts of the file -/

theorem array_eq (old : Nat → Byte) (n : Nat) (bytes : List Byte) :
    ∃ rest, array old n bytes = bytes ++ rest := ⟨_, rfl⟩

section

variable (old : Uninitialized) (p : Assembly β) (offset : β → Word)
  (relas : List ObjectFile.Rela)

/-- The parts that come before the contents of the sections. -/
def writtenFront : List Byte :=
  ehdrBytes ++ (writtenHeaders p offset relas).flatMap SectionHeader.bytes

theorem length_writtenFront : (writtenFront p offset relas).length = 512 := by
  unfold writtenFront
  have hehdr : ehdrBytes.length = 64 := rfl
  have hcount : (writtenHeaders p offset relas).length = 7 := rfl
  rw [List.length_append, length_flatMap_of length_sectionHeader, hehdr, hcount]

theorem file_shstrtab : ∃ front after,
    writtenFile old p offset relas = front ++ (shstrtab ++ after) ∧ front.length = 512 := by
  obtain ⟨rest, hrest⟩ := array_eq old.shstrtab (padSize shstrtab.length elfAlignment) shstrtab
  refine ⟨writtenFront p offset relas, rest ++
    (array old.text (maxTextSecLen p) (codeBytes p.generatedExpressions) ++
      (array old.strtab (padSize (measureStrtab p) elfAlignment) (symbolTables p offset).strtab ++
        (array old.syms (24 * measureSymtab p) ((finalSyms p offset).flatMap symBytes) ++
          relas.flatMap relaBytes))), ?_, length_writtenFront p offset relas⟩
  unfold writtenFile writtenArrays writtenFront
  rw [hrest]
  simp only [List.append_assoc]

theorem file_text : ∃ front after,
    writtenFile old p offset relas = front ++ (codeBytes p.generatedExpressions ++ after) ∧
      front.length = 512 + padSize shstrtab.length elfAlignment := by
  obtain ⟨rest, hrest⟩ := array_eq old.text (maxTextSecLen p) (codeBytes p.generatedExpressions)
  refine ⟨writtenFront p offset relas ++
    array old.shstrtab (padSize shstrtab.length elfAlignment) shstrtab, rest ++
      (array old.strtab (padSize (measureStrtab p) elfAlignment) (symbolTables p offset).strtab ++
        (array old.syms (24 * measureSymtab p) ((finalSyms p offset).flatMap symBytes) ++
          relas.flatMap relaBytes)), ?_, ?_⟩
  · unfold writtenFile writtenArrays writtenFront
    rw [hrest]
    simp only [List.append_assoc]
  · rw [List.length_append, length_writtenFront, length_array _ (le_padSize _ _)]

theorem file_strtab : ∃ front after,
    writtenFile old p offset relas = front ++ ((symbolTables p offset).strtab ++ after) ∧
      front.length = 512 + padSize shstrtab.length elfAlignment + maxTextSecLen p := by
  obtain ⟨rest, hrest⟩ := array_eq old.strtab (padSize (measureStrtab p) elfAlignment)
    (symbolTables p offset).strtab
  refine ⟨writtenFront p offset relas ++
    (array old.shstrtab (padSize shstrtab.length elfAlignment) shstrtab ++
      array old.text (maxTextSecLen p) (codeBytes p.generatedExpressions)), rest ++
        (array old.syms (24 * measureSymtab p) ((finalSyms p offset).flatMap symBytes) ++
          relas.flatMap relaBytes), ?_, ?_⟩
  · unfold writtenFile writtenArrays writtenFront
    rw [hrest]
    simp only [List.append_assoc]
  · rw [List.length_append, List.length_append, length_writtenFront,
      length_array _ (le_padSize _ _), length_array _ (length_code_le p), Nat.add_assoc]

theorem file_syms : ∃ front after,
    writtenFile old p offset relas = front ++ ((finalSyms p offset).flatMap symBytes ++ after) ∧
      front.length = 512 + padSize shstrtab.length elfAlignment + maxTextSecLen p +
        padSize (measureStrtab p) elfAlignment := by
  obtain ⟨rest, hrest⟩ := array_eq old.syms (24 * measureSymtab p)
    ((finalSyms p offset).flatMap symBytes)
  refine ⟨writtenFront p offset relas ++
    (array old.shstrtab (padSize shstrtab.length elfAlignment) shstrtab ++
      (array old.text (maxTextSecLen p) (codeBytes p.generatedExpressions) ++
        array old.strtab (padSize (measureStrtab p) elfAlignment) (symbolTables p offset).strtab)),
    rest ++ relas.flatMap relaBytes, ?_, ?_⟩
  · unfold writtenFile writtenArrays writtenFront
    rw [hrest]
    simp only [List.append_assoc]
  · rw [List.length_append, List.length_append, List.length_append, length_writtenFront,
      length_array _ (le_padSize _ _), length_array _ (length_code_le p),
      length_array _ (Nat.le_trans (length_strtab_le p offset) (le_padSize _ _))]
    omega

theorem file_relas : ∃ front,
    writtenFile old p offset relas = front ++ (relas.flatMap relaBytes ++ []) ∧
      front.length = 512 + padSize shstrtab.length elfAlignment + maxTextSecLen p +
        padSize (measureStrtab p) elfAlignment + 24 * measureSymtab p := by
  refine ⟨writtenFront p offset relas ++
    (array old.shstrtab (padSize shstrtab.length elfAlignment) shstrtab ++
      (array old.text (maxTextSecLen p) (codeBytes p.generatedExpressions) ++
        (array old.strtab (padSize (measureStrtab p) elfAlignment) (symbolTables p offset).strtab ++
          array old.syms (24 * measureSymtab p) ((finalSyms p offset).flatMap symBytes)))), ?_, ?_⟩
  · unfold writtenFile writtenArrays writtenFront
    simp only [List.append_assoc, List.append_nil]
  · rw [List.length_append, List.length_append, List.length_append, List.length_append,
      length_writtenFront, length_array _ (le_padSize _ _), length_array _ (length_code_le p),
      length_array _ (Nat.le_trans (length_strtab_le p offset) (le_padSize _ _)),
      length_array _ (length_finalSyms_le p offset)]
    omega

end

/-! ## Headers -/

def undefShdr : Shdr := ⟨0, 0, 0, SHN_UNDEF, 0, 0⟩

def shstrtabShdr : Shdr := ⟨3, 512, shstrtab.length, SHN_UNDEF, 0, 0⟩

section

variable (p : Assembly β) (offset : β → Word) (relas : List ObjectFile.Rela)

def textShdr : Shdr :=
  ⟨1, 512 + padSize shstrtab.length elfAlignment, (codeBytes p.generatedExpressions).length,
    SHN_UNDEF, 0, 0⟩

def strtabShdr : Shdr :=
  ⟨3, 512 + padSize shstrtab.length elfAlignment + maxTextSecLen p, measureStrtab p, SHN_UNDEF,
    0, 0⟩

def symtabShdr : Shdr :=
  ⟨SHT_SYMTAB, 512 + padSize shstrtab.length elfAlignment + maxTextSecLen p +
    padSize (measureStrtab p) elfAlignment, 24 * measureSymtab p, 3,
    (localSymbols p offset).syms.length, 24⟩

def bssShdr : Shdr :=
  ⟨SHT_NOBITS, 512 + padSize shstrtab.length elfAlignment + maxTextSecLen p +
    padSize (measureStrtab p) elfAlignment + 24 * measureSymtab p,
    (symbolTables p offset).bssPtr, SHN_UNDEF, 0, 0⟩

def relaShdr : Shdr :=
  ⟨SHT_RELA, 512 + padSize shstrtab.length elfAlignment + maxTextSecLen p +
    padSize (measureStrtab p) elfAlignment + 24 * measureSymtab p, relas.length * 24, 4, 2, 24⟩

def writtenShdrs : List Shdr :=
  [undefShdr, shstrtabShdr, textShdr p, strtabShdr p, symtabShdr p offset, bssShdr p offset,
    relaShdr p relas]

theorem toShdr_writtenHeaders :
    (writtenHeaders p offset relas).map SectionHeader.toShdr = writtenShdrs p offset relas := rfl

theorem shName_writtenHeaders :
    (writtenHeaders p offset relas).map SectionHeader.shName = [0, 1, 11, 17, 25, 33, 38] := rfl

end

variable {old : Uninitialized} {offset : β → Word} {relas : List ObjectFile.Rela}

/-- The sizes are those of an `int`, and what is in the `.bss` section of the address space. -/
structure Sized (old : Uninitialized) (p : Assembly β) (offset : β → Word)
    (relas : List ObjectFile.Rela) : Prop where
  file : (writtenFile old p offset relas).length < 2 ^ 31
  bss : (symbolTables p offset).bssPtr < 2 ^ 64

theorem length_localSymbols_le (p : Assembly β) (offset : β → Word) :
    (localSymbols p offset).syms.length ≤ measureSymtab p := by
  apply Nat.le_trans _ (length_syms_le p offset)
  rw [(entered_localSymbols p offset).length, (entered_symbolTables p offset).length]
  unfold Assembly.entries
  simp only [List.length_append]
  omega

theorem fits_writtenHeaders (hsized : Sized old p offset relas) :
    ∀ h ∈ writtenHeaders p offset relas, h.Fits := by
  have hfile := hsized.file
  have hbss := hsized.bss
  rw [length_writtenFile] at hfile
  have hcode := length_code_le p
  have hlocal := length_localSymbols_le p offset
  have hstrtab := le_padSize (measureStrtab p) elfAlignment
  have hpad : padSize shstrtab.length elfAlignment = 56 := rfl
  have hlength : shstrtab.length = 49 := rfl
  intro h hh
  have hname : h.shName ∈ [0, 1, 11, 17, 25, 33, 38] := by
    rw [← shName_writtenHeaders p offset relas]
    exact List.mem_map_of_mem hh
  have hshdr : h.toShdr ∈ writtenShdrs p offset relas := by
    rw [← toShdr_writtenHeaders]
    exact List.mem_map_of_mem hh
  have hshdrs : ∀ shdr ∈ writtenShdrs p offset relas, shdr.shType < 2 ^ 32 ∧
      shdr.shOffset < 2 ^ 64 ∧ shdr.shSize < 2 ^ 64 ∧ shdr.shLink < 2 ^ 32 ∧
      shdr.shInfo < 2 ^ 32 ∧ shdr.shEntsize < 2 ^ 64 := by
    intro shdr hshdr
    simp only [writtenShdrs, List.mem_cons, List.not_mem_nil, or_false] at hshdr
    rcases hshdr with rfl | rfl | rfl | rfl | rfl | rfl | rfl
    · decide
    · decide
    · simp only [textShdr, SHN_UNDEF]
      omega
    · simp only [strtabShdr, SHN_UNDEF]
      omega
    · simp only [symtabShdr, SHT_SYMTAB]
      omega
    · simp only [bssShdr, SHT_NOBITS, SHN_UNDEF]
      omega
    · simp only [relaShdr, SHT_RELA]
      omega
  obtain ⟨htype, hoffset, hsize, hlink, hinfo, hentsize⟩ := hshdrs _ hshdr
  refine ⟨?_, htype, hoffset, hsize, hlink, hinfo, hentsize⟩
  simp only [List.mem_cons, List.not_mem_nil, or_false] at hname
  omega

theorem readNumber_ehdr (rest : List Byte) : readNumber (ehdrBytes ++ rest) 40 8 = some 64 ∧
    readNumber (ehdrBytes ++ rest) 58 2 = some 64 ∧ readNumber (ehdrBytes ++ rest) 60 2 = some 7 ∧
    readNumber (ehdrBytes ++ rest) 62 2 = some 1 := ⟨rfl, rfl, rfl, rfl⟩

/-- The header of the file leads to those of the sections. -/
theorem readNumber_writtenFile (old : Uninitialized) (p : Assembly β) (offset : β → Word)
    (relas : List ObjectFile.Rela) :
    readNumber (writtenFile old p offset relas) 40 8 = some 64 ∧
      readNumber (writtenFile old p offset relas) 58 2 = some 64 ∧
      readNumber (writtenFile old p offset relas) 60 2 = some 7 ∧
      readNumber (writtenFile old p offset relas) 62 2 = some 1 := by
  unfold writtenFile
  exact readNumber_ehdr _

theorem mapM_readShdr_writtenFile (hsized : Sized old p offset relas) :
    (List.range 7).mapM (fun i => ObjectFile.readShdr (writtenFile old p offset relas)
      (64 + 64 * i)) = some (writtenShdrs p offset relas) := by
  have hread := mapM_readShdr ehdrBytes (writtenArrays old p offset relas)
    (fits_writtenHeaders hsized)
  have hcount : (writtenHeaders p offset relas).length = 7 := rfl
  have hehdr : ehdrBytes.length = 64 := rfl
  rw [hcount, hehdr, toShdr_writtenHeaders] at hread
  unfold writtenFile
  exact hread

theorem mapM_readName_writtenFile (hsized : Sized old p offset relas) :
    (List.range 7).mapM (fun i => readNumber (writtenFile old p offset relas) (64 + 64 * i) 4) =
      some [0, 1, 11, 17, 25, 33, 38] := by
  have hread := mapM_readName ehdrBytes (writtenArrays old p offset relas)
    (fits_writtenHeaders hsized)
  have hcount : (writtenHeaders p offset relas).length = 7 := rfl
  have hehdr : ehdrBytes.length = 64 := rfl
  rw [hcount, hehdr, shName_writtenHeaders] at hread
  unfold writtenFile
  exact hread

theorem sectionIntact_writtenFile :
    ∀ shdr ∈ writtenShdrs p offset relas, SectionIntact (writtenFile old p offset relas) shdr := by
  have hfile := length_writtenFile old p offset relas
  have hcode := length_code_le p
  have hstrtab := le_padSize (measureStrtab p) elfAlignment
  have hpad : padSize shstrtab.length elfAlignment = 56 := rfl
  have hlength : shstrtab.length = 49 := rfl
  have hcount : shCount = 7 := rfl
  intro shdr hshdr
  simp only [writtenShdrs, List.mem_cons, List.not_mem_nil, or_false] at hshdr
  have hnone : ∀ shdr : Shdr, ObjectFile.entrySize shdr.shType = none →
      ∀ n, ObjectFile.entrySize shdr.shType = some n → shdr.shEntsize ≠ 0 ∧
        ∀ i < shdr.shSize / shdr.shEntsize, shdr.shEntsize * i + n ≤ shdr.shSize := by
    intro shdr hnone n hn
    rw [hnone] at hn
    cases hn
  rcases hshdr with rfl | rfl | rfl | rfl | rfl | rfl | rfl
  · refine ⟨fun _ _ => ?_, hnone _ rfl⟩
    show 0 + 0 ≤ _
    omega
  · refine ⟨fun _ _ => ?_, hnone _ rfl⟩
    show 512 + shstrtab.length ≤ _
    omega
  · refine ⟨fun _ _ => ?_, hnone _ rfl⟩
    simp only [textShdr]
    omega
  · refine ⟨fun _ _ => ?_, hnone _ rfl⟩
    simp only [strtabShdr]
    omega
  · refine ⟨fun _ _ => ?_, fun n hn => ⟨Nat.succ_ne_zero _, fun i hi => ?_⟩⟩
    · simp only [symtabShdr]
      omega
    · cases hn
      simp only [symtabShdr] at hi ⊢
      omega
  · exact ⟨fun h => absurd rfl h, hnone _ rfl⟩
  · refine ⟨fun _ _ => ?_, fun n hn => ⟨Nat.succ_ne_zero _, fun i hi => ?_⟩⟩
    · simp only [relaShdr]
      omega
    · cases hn
      simp only [relaShdr] at hi ⊢
      omega

/-! ## The object -/

/-- A section that has no tables. -/
def plainSection (shdr : Shdr) (seg : Word) : Section :=
  { shdr with syms := [], relas := [], addends := [], seg }

section

variable (p : Assembly β) (offset : β → Word) (relas : List ObjectFile.Rela) (place : Nat → Word)

/-- The sections with the addresses that they are given. -/
def segments : List (Word × Shdr) := ((List.range 7).map place).zip (writtenShdrs p offset relas)

/-- What `read_object` leaves. -/
def objectRead : ObjectFile.Object :=
  [plainSection undefShdr (place 0), plainSection shstrtabShdr (place 1),
    plainSection (textShdr p) (place 2), plainSection (strtabShdr p) (place 3),
    { plainSection (symtabShdr p offset) (place 4) with syms := finalSyms p offset },
    plainSection (bssShdr p offset) (place 5),
    { plainSection (relaShdr p relas) (place 6) with relas }]

end

theorem readObject_writtenFile (hsized : Sized old p offset relas) (place : Nat → Word)
    (mem : Memory) : readObject (writtenFile old p offset relas) place mem =
      some ((segments p offset relas place).map fun x =>
          fileSection (writtenFile old p offset relas) x.2 x.1,
        (segments p offset relas place).foldl (copyOf (writtenFile old p offset relas)) mem) := by
  obtain ⟨hoff, hsize, hnum, -⟩ := readNumber_writtenFile old p offset relas
  have hlength : ¬ ((writtenFile old p offset relas).length < 64 ∨
      (writtenFile old p offset relas).take 6 ≠ [0x7F, 0x45, 0x4C, 0x46, 2, 1]) := by
    rw [not_or]
    refine ⟨?_, not_not_intro rfl⟩
    rw [length_writtenFile]
    omega
  unfold readObject segments
  rw [if_neg hlength, hoff, hsize, hnum, Option.bind_eq_bind, Option.bind_some,
    Option.bind_some, Option.bind_some]
  exact readSections_copyOf place (mapM_readShdr_writtenFile hsized) sectionIntact_writtenFile mem

/-! ## Its tables -/

theorem lt_of_fits (hp : p.WellFormed) (hsized : Sized old p offset relas) :
    measureStrtab p < 2 ^ 31 ∧ 24 * measureSymtab p < 2 ^ 31 ∧ 24 * relas.length < 2 ^ 31 ∧
      (codeBytes p.generatedExpressions).length < 2 ^ 31 ∧
      24 * (finalSyms p offset).length = 24 * measureSymtab p := by
  have hfile := hsized.file
  rw [length_writtenFile] at hfile
  have hcode := length_code_le p
  have hstrtab := le_padSize (measureStrtab p) elfAlignment
  have hsyms := length_syms hp offset
  omega

theorem symFits_finalSyms (hp : p.WellFormed) (hsized : Sized old p offset relas) :
    ∀ sym ∈ finalSyms p offset, SymFits sym := by
  have hsizes := lt_of_fits hp hsized
  have hstrtab := length_strtab hp offset
  apply forall_finalSyms hp offset SymFits
  · exact ⟨by decide, by decide⟩
  · intro k e hk
    obtain ⟨front, after, htable, hname⟩ := strtab_eq p offset hk
    rw [htable, List.length_append] at hstrtab
    refine ⟨?_, ?_⟩
    · omega
    · show e.stShndx < 2 ^ 16
      cases entryOf_of_mem hp offset (List.mem_of_getElem? hk) with
      | label b _ => exact show 2 < 2 ^ 16 by omega
      | static b _ => exact show 5 < 2 ^ 16 by omega
      | undefined b _ => exact show 0 < 2 ^ 16 by omega

theorem fileSyms_writtenFile (hp : p.WellFormed) (hsized : Sized old p offset relas) :
    fileSyms (writtenFile old p offset relas) (symtabShdr p offset) = finalSyms p offset := by
  have hsizes := lt_of_fits hp hsized
  obtain ⟨front, after, hfile, hfront⟩ := file_syms old p offset relas
  rw [hfile]
  apply fileSyms_eq hfront.symm _ (symFits_finalSyms hp hsized) rfl rfl
  · show 24 * measureSymtab p = _
    omega
  · rw [length_flatMap_of length_symBytes]
    omega

theorem fileRelas_writtenFile (hp : p.WellFormed) (hsized : Sized old p offset relas) :
    fileRelas (writtenFile old p offset relas) (relaShdr p relas) = relas := by
  have hsizes := lt_of_fits hp hsized
  obtain ⟨front, hfile, hfront⟩ := file_relas old p offset relas
  rw [hfile]
  apply fileRelas_eq hfront.symm _ rfl rfl
  · exact Nat.mul_comm _ _
  · rw [length_flatMap_of length_relaBytes]
    omega

/-- What is read is what has been written. -/
theorem fileSections_writtenFile (hp : p.WellFormed) (hsized : Sized old p offset relas)
    (place : Nat → Word) : ((segments p offset relas place).map fun x =>
      fileSection (writtenFile old p offset relas) x.2 x.1) = objectRead p offset relas place := by
  have hsymtab : fileSection (writtenFile old p offset relas) (symtabShdr p offset) (place 4) =
      { plainSection (symtabShdr p offset) (place 4) with syms := finalSyms p offset } := by
    unfold fileSection
    rw [fileSyms_writtenFile hp hsized]
    rfl
  have hrela : fileSection (writtenFile old p offset relas) (relaShdr p relas) (place 6) =
      { plainSection (relaShdr p relas) (place 6) with relas } := by
    unfold fileSection
    rw [fileRelas_writtenFile hp hsized]
    rfl
  unfold objectRead
  rw [← hsymtab, ← hrela]
  rfl

/-! ## Addresses -/

/-- A symbol with the address in place of the offset. -/
def symAddressed (place : Nat → Word) (sym : Sym) : Sym :=
  { sym with stValue := if sym.stShndx = SHN_UNDEF then 0 else place sym.stShndx + sym.stValue }

section

variable (p : Assembly β) (offset : β → Word) (relas : List ObjectFile.Rela) (place : Nat → Word)

/-- What `offsets_to_addresses` leaves. -/
def objectAddressed : ObjectFile.Object :=
  [plainSection undefShdr (place 0), plainSection shstrtabShdr (place 1),
    plainSection (textShdr p) (place 2), plainSection (strtabShdr p) (place 3),
    { plainSection (symtabShdr p offset) (place 4) with
      syms := (finalSyms p offset).map (symAddressed place) },
    plainSection (bssShdr p offset) (place 5),
    { plainSection (relaShdr p relas) (place 6) with
      relas := relas.map fun rela => { rela with rOffset := place 2 + rela.rOffset } }]

/-- What `load` leaves. -/
def objectLoaded : ObjectFile.Object :=
  [plainSection undefShdr (place 0), plainSection shstrtabShdr (place 1),
    plainSection (textShdr p) (place 2), plainSection (strtabShdr p) (place 3),
    { plainSection (symtabShdr p offset) (place 4) with
      syms := (finalSyms p offset).map (symAddressed place) },
    plainSection (bssShdr p offset) (place 5),
    { plainSection (relaShdr p relas) (place 6) with
      relas := relas.map fun rela => { rela with rOffset := place 2 + rela.rOffset }
      addends := relas.map ObjectFile.Rela.rAddend }]

end

theorem offsetsToAddresses_objectRead (hp : p.WellFormed) (offset : β → Word)
    (relas : List ObjectFile.Rela) (place : Nat → Word) :
    ObjectFile.offsetsToAddresses (objectRead p offset relas place) =
      some (objectAddressed p offset relas place) := by
  have hsyms : (finalSyms p offset).mapM
      (ObjectFile.addressedSym (objectRead p offset relas place)) =
      some ((finalSyms p offset).map (symAddressed place)) := by
    apply ObjectFile.mapM_some
    apply forall_finalSyms hp offset fun sym =>
      ObjectFile.addressedSym (objectRead p offset relas place) sym = some (symAddressed place sym)
    · rfl
    · intro k e hk
      cases entryOf_of_mem hp offset (List.mem_of_getElem? hk) <;> rfl
  have hrelas : relas.mapM (ObjectFile.addressedRela (objectRead p offset relas place) 2) =
      some (relas.map fun rela => { rela with rOffset := place 2 + rela.rOffset }) :=
    ObjectFile.mapM_some fun rela _ => rfl
  rw [ObjectFile.offsetsToAddresses_eq]
  apply ObjectFile.mapM_of_forall₂
  have hsymtab : ObjectFile.addressedSection (objectRead p offset relas place)
      { plainSection (symtabShdr p offset) (place 4) with syms := finalSyms p offset } =
      some { plainSection (symtabShdr p offset) (place 4) with
        syms := (finalSyms p offset).map (symAddressed place) } :=
    congrArg (Option.map _) hsyms
  have hrela : ObjectFile.addressedSection (objectRead p offset relas place)
      { plainSection (relaShdr p relas) (place 6) with relas } =
      some { plainSection (relaShdr p relas) (place 6) with
        relas := relas.map fun rela => { rela with rOffset := place 2 + rela.rOffset } } :=
    congrArg (Option.map _) hrelas
  exact .cons rfl (.cons rfl (.cons rfl (.cons rfl (.cons hsymtab (.cons rfl (.cons hrela .nil))))))

theorem storeAddends_objectAddressed (p : Assembly β) (offset : β → Word)
    (relas : List ObjectFile.Rela) (place : Nat → Word) (mem : Memory) :
    ObjectFile.storeAddends mem (objectAddressed p offset relas place) =
      some (objectLoaded p offset relas place) := by
  have haddends : (relas.map fun rela : ObjectFile.Rela =>
      { rela with rOffset := place 2 + rela.rOffset }).map ObjectFile.Rela.rAddend =
      relas.map ObjectFile.Rela.rAddend := List.map_map
  unfold objectLoaded
  rw [← haddends]
  apply ObjectFile.mapM_of_forall₂
  exact .cons rfl (.cons rfl (.cons rfl (.cons rfl (.cons rfl (.cons rfl (.cons rfl .nil))))))

end L2.Bootstrap
