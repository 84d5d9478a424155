import L2.Bootstrap.LoadedSymbols

/-!
# Loading what has been written

What `load` relies on without a check holds of every file that `write_elf` makes: the sections
are in the file, symbols are in sections that are there, and relocations have symbols of the
table and fields in the code.  So loading such a file finds no fault, whatever addresses its
sections are given.  Local symbols come first in the table, as `sh_info` says.
-/

namespace L2.Bootstrap

open X86 (Word Byte Memory)
open ObjectFile (Shdr Sym SHN_UNDEF fileShdrs fileSyms fileRelas implicitRelas LinksIntact
  RelocationIntact FileIntact)

variable {β : Type} [DecidableEq β] {p : Assembly β} {old : Uninitialized} {offset : β → Word}
  {relas : List ObjectFile.Rela}

/-! ## The tables of the file -/

theorem eq_symtabShdr {shdr : Shdr} (hshdr : shdr ∈ writtenShdrs p offset relas) {sym : Sym}
    (hsym : sym ∈ fileSyms (writtenFile old p offset relas) shdr) :
    shdr = symtabShdr p offset := by
  simp only [writtenShdrs, List.mem_cons, List.not_mem_nil, or_false] at hshdr
  rcases hshdr with rfl | rfl | rfl | rfl | rfl | rfl | rfl
  · exact absurd hsym List.not_mem_nil
  · exact absurd hsym List.not_mem_nil
  · exact absurd hsym List.not_mem_nil
  · exact absurd hsym List.not_mem_nil
  · rfl
  · exact absurd hsym List.not_mem_nil
  · exact absurd hsym List.not_mem_nil

theorem eq_relaShdr {shdr : Shdr} (hshdr : shdr ∈ writtenShdrs p offset relas)
    {rela : ObjectFile.Rela} (hrela : rela ∈ fileRelas (writtenFile old p offset relas) shdr) :
    shdr = relaShdr p relas := by
  simp only [writtenShdrs, List.mem_cons, List.not_mem_nil, or_false] at hshdr
  rcases hshdr with rfl | rfl | rfl | rfl | rfl | rfl | rfl
  · exact absurd hrela List.not_mem_nil
  · exact absurd hrela List.not_mem_nil
  · exact absurd hrela List.not_mem_nil
  · exact absurd hrela List.not_mem_nil
  · exact absurd hrela List.not_mem_nil
  · exact absurd hrela List.not_mem_nil
  · rfl

/-- All relocations have addends. -/
theorem implicitRelas_writtenFile :
    implicitRelas (writtenFile old p offset relas) (writtenShdrs p offset relas) = [] := by
  apply List.flatMap_eq_nil_iff.mpr
  intro shdr hshdr
  apply if_neg
  simp only [writtenShdrs, List.mem_cons, List.not_mem_nil, or_false] at hshdr
  rcases hshdr with rfl | rfl | rfl | rfl | rfl | rfl | rfl
  · exact show (0 : Nat) ≠ 9 by omega
  · exact show (3 : Nat) ≠ 9 by omega
  · exact show (1 : Nat) ≠ 9 by omega
  · exact show (3 : Nat) ≠ 9 by omega
  · exact show (2 : Nat) ≠ 9 by omega
  · exact show (8 : Nat) ≠ 9 by omega
  · exact show (4 : Nat) ≠ 9 by omega

/-! ## No faults -/

theorem linksIntact_writtenFile (hp : p.WellFormed) (hsized : Sized old p offset relas) :
    ∀ shdr ∈ writtenShdrs p offset relas, LinksIntact (writtenFile old p offset relas)
      (writtenShdrs p offset relas) shdr := by
  intro shdr hshdr
  refine ⟨fun hrelas => ?_, fun sym hsym => ?_⟩
  · obtain ⟨rela, hrela⟩ := List.exists_mem_of_ne_nil _ hrelas
    obtain rfl := eq_relaShdr hshdr hrela
    show 2 < 7
    omega
  · obtain rfl := eq_symtabShdr hshdr hsym
    rw [fileSyms_writtenFile hp hsized] at hsym
    revert sym
    apply forall_finalSyms hp offset
    · exact .inr (.inr (.inl rfl))
    · intro k e hk
      show e.stShndx = _ ∨ e.stShndx = _ ∨ e.stShndx = _ ∨ e.stShndx < 7
      cases entryOf_of_mem hp offset (List.mem_of_getElem? hk) with
      | label b _ => exact .inr (.inr (.inr (show 2 < 7 by omega)))
      | static b _ => exact .inr (.inr (.inr (show 5 < 7 by omega)))
      | undefined b _ => exact .inr (.inr (.inl rfl))

theorem relocationIntact_writtenFile (hp : p.WellFormed) (hsized : Sized old p offset relas)
    (hrelas : (codeRelas 0 p.generatedExpressions).mapM (symbolTables p offset).elfRela =
      some relas) :
    ∀ shdr ∈ writtenShdrs p offset relas, ∀ rela ∈ fileRelas (writtenFile old p offset relas) shdr,
      RelocationIntact (writtenFile old p offset relas) (writtenShdrs p offset relas) shdr
        rela := by
  intro shdr hshdr elfRela helf
  obtain rfl := eq_relaShdr hshdr helf
  rw [fileRelas_writtenFile hp hsized] at helf
  obtain ⟨rela, hrela, hsome⟩ :=
    ObjectFile.exists_of_forall₂_right (ObjectFile.forall₂_of_mapM hrelas) helf
  obtain ⟨i, hi, hoffset, hsymbol, htype, -⟩ := elfRela_some hsome (context_lt hp hsized _)
  refine ⟨show 4 < 7 by omega, fun n c _ => ?_, fun n c hfield => ?_⟩
  · obtain ⟨k, e, rfl, hk, -⟩ := (entered_symbolTables p offset).context _ i hi
    obtain ⟨hlt, -⟩ := List.getElem?_eq_some_iff.mp hk
    refine ⟨symtabShdr p offset, rfl, ?_⟩
    rw [fileSyms_writtenFile hp hsized, length_finalSyms, hsymbol]
    omega
  · have hwidth : n = rela.type.width := by
      rw [htype] at hfield
      cases hkind : rela.type with
      | _ =>
        rw [hkind] at hfield
        cases hfield
        rfl
    have hbound := le_of_mem_codeRelas hrela
    have hsizes := lt_of_fits hp hsized
    refine ⟨textShdr p, rfl, ?_⟩
    rw [hoffset, BitVec.toNat_ofNat, hwidth, segmentSize_textShdr hp hsized]
    omega

theorem headerChecked_writtenFile (old : Uninitialized) (p : Assembly β) (offset : β → Word)
    (relas : List ObjectFile.Rela) :
    ObjectFile.headerChecked (writtenFile old p offset relas) := by
  unfold ObjectFile.headerChecked
  rw [decide_eq_true_eq, length_writtenFile]
  refine ⟨?_, rfl⟩
  omega

theorem fileShdrs_writtenFile (hsized : Sized old p offset relas) :
    fileShdrs (writtenFile old p offset relas) = some (writtenShdrs p offset relas) := by
  obtain ⟨hoff, hsize, hnum, -⟩ := readNumber_writtenFile old p offset relas
  unfold fileShdrs
  rw [hoff, hsize, hnum, Option.bind_eq_bind, Option.bind_some, Option.bind_some,
    Option.bind_some]
  exact mapM_readShdr_writtenFile hsized

theorem fileIntact_writtenFile (hp : p.WellFormed) (hsized : Sized old p offset relas)
    (hrelas : (codeRelas 0 p.generatedExpressions).mapM (symbolTables p offset).elfRela =
      some relas) :
    FileIntact (writtenFile old p offset relas) (writtenShdrs p offset relas) where
  sections := sectionIntact_writtenFile
  links := linksIntact_writtenFile hp hsized
  fields := by
    rw [implicitRelas_writtenFile]
    exact fun e he => absurd he List.not_mem_nil
  relocations := .inr (relocationIntact_writtenFile hp hsized hrelas)

/-- A file that `write_elf` has made is loaded without a fault, whatever addresses its sections
are given: no check of `load` fails, and it uses no offset, size or index that leads outside of
what it is for. -/
theorem checkedLoad_writeElf (hp : p.WellFormed) {written : Written β}
    (hwritten : writeElf old p offset = some written) (hsize : maxElfSize p < 2 ^ 31)
    (hbss : staticExtent p p.staticBindings < 2 ^ 64) (place : Nat → Word) (mem : Memory) :
    ∃ loaded, ObjectFile.checkedLoad written.bin place mem = .ok loaded ∧
      ObjectFile.load written.bin place mem = some loaded := by
  obtain ⟨relas, hrelas, hfile, -, hsized⟩ := written_sized hp hwritten hsize hbss
  rw [hfile]
  obtain ⟨loaded, hloaded⟩ := ObjectFile.checkedLoad_of_intact
    (headerChecked_writtenFile old p offset relas) (fileShdrs_writtenFile hsized)
    (fileIntact_writtenFile hp hsized hrelas)
    (by
      rw [implicitRelas_writtenFile]
      exact fun e he => absurd he List.not_mem_nil) place mem
  exact ⟨loaded, hloaded, ObjectFile.checkedLoad_ok hloaded⟩

/-- All sections at one address. -/
theorem checkedLoad_writeElf_calling : ∃ written loaded,
    writeElf ⟨fun _ => 0, fun _ => 0, fun _ => 0, fun _ => 0⟩ callingProgram (fun _ => 0) =
      some written ∧
    ObjectFile.checkedLoad written.bin (fun _ => 0x1000) (fun _ => 0) = .ok loaded := by
  obtain ⟨written, hwritten, -⟩ := writeElf_callingProgram
  obtain ⟨loaded, hloaded, -⟩ := checkedLoad_writeElf wellFormed_callingProgram hwritten
    maxElfSize_callingProgram (by decide) (fun _ => 0x1000) (fun _ => 0)
  exact ⟨written, loaded, hwritten, hloaded⟩

/-! ## Local symbols -/

omit [DecidableEq β] in
theorem stInfo_staticEntries (p : Assembly β) (bind : Byte) {bssPtr : Nat} {bndgs : List β} :
    ∀ e ∈ staticEntries p bind bssPtr bndgs, e.stInfo = elf64StInfo bind STT_NOTYPE := by
  induction bndgs generalizing bssPtr with
  | nil => exact fun e he => absurd he List.not_mem_nil
  | cons b bndgs ih => exact List.forall_mem_cons.mpr ⟨rfl, ih⟩

omit [DecidableEq β] in
theorem stInfo_labelEntries (bind : Byte) (bndgs : List β) :
    ∀ e ∈ labelEntries bind bndgs, e.stInfo = elf64StInfo bind STT_NOTYPE := by
  intro e he
  obtain ⟨b, -, rfl⟩ := List.mem_map.mp he
  rfl

omit [DecidableEq β] in
/-- The entries of the local bindings come first. -/
theorem entries_local_first (p : Assembly β) : ∃ globals, p.entries = p.localEntries ++ globals ∧
    (∀ e ∈ p.localEntries, e.stInfo = elf64StInfo STB_LOCAL STT_NOTYPE) ∧
    ∀ e ∈ globals, e.stInfo = elf64StInfo ObjectFile.STB_GLOBAL STT_NOTYPE := by
  refine ⟨_, by unfold Assembly.entries; rw [List.append_assoc, List.append_assoc], ?_, ?_⟩
  · intro e he
    rcases List.mem_append.mp he with he | he
    · exact stInfo_staticEntries p _ e he
    · exact stInfo_labelEntries _ _ e he
  · intro e he
    rcases List.mem_append.mp he with he | he
    · exact stInfo_staticEntries p _ e he
    · rcases List.mem_append.mp he with he | he
      · obtain ⟨b, -, rfl⟩ := List.mem_map.mp he
        rfl
      · exact stInfo_labelEntries _ _ e he

theorem bind_finalSyms (hp : p.WellFormed) (offset : β → Word) {i : Nat} {sym : Sym}
    (h : (finalSyms p offset)[i]? = some sym) :
    sym.bind = STB_LOCAL ↔ i < (localSymbols p offset).syms.length := by
  have hlength := (entered_localSymbols p offset).length
  rw [hlength]
  cases i with
  | zero =>
    rw [getElem?_finalSyms_zero] at h
    cases h
    exact iff_of_true rfl (Nat.succ_pos _)
  | succ k =>
    obtain ⟨hlt, -⟩ := List.getElem?_eq_some_iff.mp h
    rw [length_finalSyms] at hlt
    have hk : p.entries[k]? = some p.entries[k] := List.getElem?_eq_getElem (by omega)
    rw [getElem?_finalSyms hp offset hk] at h
    cases h
    obtain ⟨globals, hentries, hlocal, hglobal⟩ := entries_local_first p
    show (p.entries[k]).stInfo >>> 4 = STB_LOCAL ↔ _
    generalize p.entries[k] = e at hk
    rw [hentries] at hk
    rcases Nat.lt_or_ge k p.localEntries.length with hlt | hge
    · rw [List.getElem?_append_left hlt] at hk
      rw [hlocal e (List.mem_of_getElem? hk)]
      exact iff_of_true (by decide) (by omega)
    · rw [List.getElem?_append_right hge] at hk
      rw [hglobal e (List.mem_of_getElem? hk)]
      exact iff_of_false (by decide) (by omega)

/-! ## The contents of the file -/

/-- A symbol of the file is that of a binding. -/
structure SymbolOf (p : Assembly β) (bin : List Byte) (strtab : Shdr) (offset : β → Word) (b : β)
    (sym : Sym) : Prop where
  bind : sym.bind = (p.scope b).stBind
  shndx : sym.stShndx = if b ∈ p.labels then 2 else if b ∈ p.staticBindings then 5 else SHN_UNDEF
  value : sym.stValue = if b ∈ p.undefinedBindings then 0 else offset b
  name : ∃ after, bin.drop (strtab.shOffset + sym.stName) = p.symbolName b ++ 0 :: after

theorem symbolOf_finalSym (hp : p.WellFormed) (old : Uninitialized)
    (relas : List ObjectFile.Rela) {e : SymbolEntry β} {k : Nat} (hk : p.entries[k]? = some e) :
    SymbolOf p (writtenFile old p offset relas) (strtabShdr p) (assembled p offset).offset e.bndg
      (finalSym p offset k e) := by
  have hentry := entryOf_of_mem hp offset (List.mem_of_getElem? hk)
  refine ⟨?_, ?_, rfl, ?_⟩
  · have hinfo : e.stInfo = elf64StInfo (p.scope e.bndg).stBind STT_NOTYPE := by
      cases hentry <;> rfl
    show e.stInfo >>> 4 = _
    rw [hinfo, stBind_elf64StInfo]
  · show e.stShndx = _
    cases hentry with
    | label b h => exact (if_pos h).symm
    | static b h => rw [if_neg ((notMem_of_wellFormed hp).2 h), if_pos h]
    | undefined b h =>
      obtain ⟨hstatic, hlabel⟩ := (notMem_of_wellFormed hp).1 h
      rw [if_neg hlabel, if_neg hstatic]
  · obtain ⟨front, after, hfile, hfront⟩ := file_strtab old p offset relas
    obtain ⟨front', after', htable, hname⟩ := strtab_eq p offset hk
    have hsplit : writtenFile old p offset relas =
        (front ++ front') ++ (p.symbolName e.bndg ++ 0 :: (after' ++ after)) := by
      rw [hfile, htable]
      simp only [List.append_assoc, List.cons_append, List.nil_append]
    have hoffset : (strtabShdr p).shOffset + (finalSym p offset k e).stName =
        (front ++ front').length := by
      rw [List.length_append, hname, hfront]
      rfl
    refine ⟨after' ++ after, ?_⟩
    rw [hoffset, hsplit, List.drop_left]

/-- A relocation of the file is one of the code: it has its offset, its type and its addend, and
the symbol that has been entered for its binding. -/
structure RelaOf (p : Assembly β) (rela : Rela β) (elfRela : ObjectFile.Rela) : Prop where
  offset : elfRela.rOffset = BitVec.ofNat 64 rela.offset
  type : elfRela.type = rela.type.code
  addend : elfRela.rAddend = rela.addend
  symbol : ∃ k, elfRela.symbol = k + 1 ∧ p.symbolBndgs[k]? = some rela.symbol

/-- What is in a written file: the code, a symbol for each binding, the local ones before the
others as `sh_info` says, and a relocation for each of the code's. -/
theorem writeElf_contents (hp : p.WellFormed) {written : Written β}
    (hwritten : writeElf old p offset = some written) (hsize : maxElfSize p < 2 ^ 31)
    (hbss : staticExtent p p.staticBindings < 2 ^ 64) :
    ∃ undef shstrtab text strtab symtab bss rela, fileShdrs written.bin =
        some [undef, shstrtab, text, strtab, symtab, bss, rela] ∧
      (∃ after, written.bin.drop text.shOffset = codeBytes p.generatedExpressions ++ after) ∧
      p.symbolBndgs.Perm (p.undefinedBindings ++ p.staticBindings ++ p.labels) ∧
      List.Forall₂ (SymbolOf p written.bin strtab written.offset) p.symbolBndgs
        ((fileSyms written.bin symtab).drop 1) ∧
      (∀ i sym, (fileSyms written.bin symtab)[i]? = some sym →
        (sym.bind = STB_LOCAL ↔ i < symtab.shInfo)) ∧
      List.Forall₂ (RelaOf p) (codeRelas 0 p.generatedExpressions)
        (fileRelas written.bin rela) := by
  obtain ⟨relas, hrelas, hfile, hoffset, hsized⟩ := written_sized hp hwritten hsize hbss
  rw [hfile, hoffset]
  refine ⟨undefShdr, shstrtabShdr, textShdr p, strtabShdr p, symtabShdr p offset,
    bssShdr p offset, relaShdr p relas, fileShdrs_writtenFile hsized, ?_, symbolBndgs_perm hp,
    ?_, ?_, ?_⟩
  · obtain ⟨front, after, hfile, hfront⟩ := file_text old p offset relas
    refine ⟨after, ?_⟩
    rw [hfile, show (textShdr p).shOffset = front.length from hfront.symm, List.drop_left]
  · rw [fileSyms_writtenFile hp hsized]
    exact forall₂_finalSyms hp offset fun k e hk => symbolOf_finalSym hp old relas hk
  · rw [fileSyms_writtenFile hp hsized]
    exact fun i sym h => bind_finalSyms hp offset h
  · rw [fileRelas_writtenFile hp hsized]
    apply (ObjectFile.forall₂_of_mapM hrelas).imp
    intro rela elfRela hsome
    obtain ⟨i, hi, hoffset, hsymbol, htype, haddend⟩ :=
      elfRela_some hsome (context_lt hp hsized _)
    obtain ⟨k, e, rfl, hk, hbndg⟩ := (entered_symbolTables p offset).context _ i hi
    refine ⟨hoffset, htype, haddend, k, hsymbol, ?_⟩
    rw [← bndg_entries, List.getElem?_map, hk, ← hbndg]
    rfl

/-- Four symbols after the undefined one, and a relocation for each of the three fields. -/
theorem writeElf_contents_calling : ∃ written shdrs symtab rela,
    writeElf ⟨fun _ => 0, fun _ => 0, fun _ => 0, fun _ => 0⟩ callingProgram (fun _ => 0) =
      some written ∧
    fileShdrs written.bin = some shdrs ∧ shdrs[4]? = some symtab ∧ shdrs[6]? = some rela ∧
    (fileSyms written.bin symtab).length = 5 ∧ (fileRelas written.bin rela).length = 3 := by
  obtain ⟨written, hwritten, -⟩ := writeElf_callingProgram
  obtain ⟨_, _, _, _, symtab, _, rela, hshdrs, -, -, hsyms, -, hrelas⟩ := writeElf_contents
    wellFormed_callingProgram hwritten maxElfSize_callingProgram (by decide)
  have hlength := hsyms.length_eq
  rw [List.length_drop, show callingProgram.symbolBndgs.length = 4 by decide] at hlength
  refine ⟨written, _, symtab, rela, hwritten, hshdrs, rfl, rfl, by omega, ?_⟩
  exact hrelas.length_eq.symm

end L2.Bootstrap
