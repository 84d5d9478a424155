import L2.Bootstrap.LinkElf

/-!
# Loading a program

`load_program` writes a compiled program to a file, loads the file and gives the bindings the
addresses of what they name.  Whatever `mutate_bindings` is called with afterwards, the code in
memory is that of the program, with the address of every binding where it is named.
-/

namespace L2.Bootstrap

open X86 (Word Byte Memory BytesAt)
open ObjectFile (Shdr Binding fileShdrs mutateAll)
open Ranges (extent Consecutive)

variable {β : Type} [DecidableEq β] {p : Assembly β} {old : Uninitialized} {offset : β → Word}
  {relas : List ObjectFile.Rela} {place : Nat → Word} {mem : Memory}

/-! ## What is given -/

/-- The sections of a file at their addresses. -/
def placedSections (bin : List Byte) (place : Nat → Word) : List (Word × Shdr) :=
  (fileShdrs bin).elim [] fun shdrs => ((List.range shdrs.length).map place).zip shdrs

theorem placedSections_writtenFile (hsized : Sized old p offset relas) :
    placedSections (writtenFile old p offset relas) place = segments p offset relas place := by
  obtain ⟨hoff, hsize, hnum, -⟩ := readNumber_writtenFile old p offset relas
  have hshdrs : fileShdrs (writtenFile old p offset relas) =
      some (writtenShdrs p offset relas) := by
    unfold fileShdrs
    rw [hoff, hsize, hnum, Option.bind_eq_bind, Option.bind_some, Option.bind_some,
      Option.bind_some]
    exact mapM_readShdr_writtenFile hsized
  unfold placedSections
  rw [hshdrs]
  rfl

theorem bssPtr_le (hp : p.WellFormed) (offset : β → Word) :
    (symbolTables p offset).bssPtr = staticExtent p p.staticBindings := by
  rw [bssPtr_symbolTables]
  unfold staticExtent
  rw [globalStatics_eq hp]
  exact extent_scopes p _ p.staticBindings

/-- A written program has a file that can be read. -/
theorem written_sized (hp : p.WellFormed) {written : Written β}
    (hwritten : writeElf old p offset = some written) (hsize : maxElfSize p < 2 ^ 31)
    (hbss : staticExtent p p.staticBindings < 2 ^ 64) : ∃ relas,
      (codeRelas 0 p.generatedExpressions).mapM (symbolTables p offset).elfRela = some relas ∧
      written.bin = writtenFile old p offset relas ∧
      written.offset = (assembled p offset).offset ∧ Sized old p offset relas := by
  rw [writeElf_eq old hsize] at hwritten
  obtain ⟨relas, hrelas, rfl⟩ := Option.map_eq_some_iff.mp hwritten
  have hlength := length_writtenFile_le old p offset hrelas
  refine ⟨relas, hrelas, rfl, rfl, by omega, ?_⟩
  rw [bssPtr_le hp]
  exact hbss

/-! ## The addresses of sections -/

omit [DecidableEq β] in
/-- The names that are where the headers say. -/
theorem strcmp_shstrtab {m : Memory} {a : Word} (h : BytesAt m a shstrtab) (name : List Byte) :
    (ObjectFile.strcmp m (a + BitVec.ofNat 64 0) name ↔ ObjectFile.text name = []) ∧
    (ObjectFile.strcmp m (a + BitVec.ofNat 64 1) name ↔ ObjectFile.text name = shstrtabName) ∧
    (ObjectFile.strcmp m (a + BitVec.ofNat 64 11) name ↔ ObjectFile.text name = textName) ∧
    (ObjectFile.strcmp m (a + BitVec.ofNat 64 17) name ↔ ObjectFile.text name = strtabName) ∧
    (ObjectFile.strcmp m (a + BitVec.ofNat 64 25) name ↔ ObjectFile.text name = symtabName) ∧
    (ObjectFile.strcmp m (a + BitVec.ofNat 64 33) name ↔ ObjectFile.text name = bssName) := by
  have hname : ∀ (n : Nat) (name' : List Byte), ObjectFile.text name' = name' →
      shstrtab = shstrtab.take n ++ ((name' ++ [0]) ++ shstrtab.drop (n + name'.length + 1)) →
      (shstrtab.take n).length = n →
      (ObjectFile.strcmp m (a + BitVec.ofNat 64 n) name ↔ ObjectFile.text name = name') := by
    intro n name' htext hsplit hlength
    rw [hsplit] at h
    have hat := (X86.bytesAt_append.mp h).2
    rw [hlength] at hat
    rw [ObjectFile.strcmp_iff_text (strcmp_bytesAt hat), htext]
  exact ⟨hname 0 [] rfl rfl rfl, hname 1 shstrtabName rfl rfl rfl, hname 11 textName rfl rfl rfl,
    hname 17 strtabName rfl rfl rfl, hname 25 symtabName rfl rfl rfl, hname 33 bssName rfl rfl rfl⟩

/-- The names of the sections of a written file. -/
def writtenNames : SectionNames := ⟨1, [0, 1, 11, 17, 25, 33, 38]⟩

theorem readSectionNames_writtenFile (hsized : Sized old p offset relas) :
    readSectionNames (writtenFile old p offset relas) = some writtenNames := by
  obtain ⟨hoff, hsize, hnum, hndx⟩ := readNumber_writtenFile old p offset relas
  unfold readSectionNames
  rw [hoff, hsize, hnum, hndx, Option.bind_eq_bind, Option.bind_some, Option.bind_some,
    Option.bind_some, Option.bind_some]
  show Option.bind _ _ = _
  rw [mapM_readName_writtenFile hsized]
  rfl

theorem segment_text (h : BytesAt mem (place 1) shstrtab) :
    segment (objectLoaded p offset relas place) writtenNames mem textName = some (place 2) := by
  obtain ⟨h0, h1, h2, -⟩ := strcmp_shstrtab h textName
  have h0' := Bool.eq_false_iff.mpr (mt h0.mp (by decide))
  have h1' := Bool.eq_false_iff.mpr (mt h1.mp (by decide))
  have h2' := h2.mpr (by decide)
  have hfind : ((objectLoaded p offset relas place).zip writtenNames.names).find?
      (fun x => ObjectFile.strcmp mem (place 1 + BitVec.ofNat 64 x.2) textName) =
      some (plainSection (textShdr p) (place 2), 11) := by
    unfold objectLoaded writtenNames
    simp only [List.zip_cons_cons, List.find?_cons, h0', h1', h2']
  unfold segment
  rw [if_neg (by decide)]
  show Option.bind (List.find? (fun x : ObjectFile.Section × Nat =>
    ObjectFile.strcmp mem (place 1 + BitVec.ofNat 64 x.2) textName) _) _ = _
  rw [hfind]
  rfl

theorem segment_bss (h : BytesAt mem (place 1) shstrtab) :
    segment (objectLoaded p offset relas place) writtenNames mem bssName = some (place 5) := by
  obtain ⟨h0, h1, h2, h3, h4, h5⟩ := strcmp_shstrtab h bssName
  have h0' := Bool.eq_false_iff.mpr (mt h0.mp (by decide))
  have h1' := Bool.eq_false_iff.mpr (mt h1.mp (by decide))
  have h2' := Bool.eq_false_iff.mpr (mt h2.mp (by decide))
  have h3' := Bool.eq_false_iff.mpr (mt h3.mp (by decide))
  have h4' := Bool.eq_false_iff.mpr (mt h4.mp (by decide))
  have h5' := h5.mpr (by decide)
  have hfind : ((objectLoaded p offset relas place).zip writtenNames.names).find?
      (fun x => ObjectFile.strcmp mem (place 1 + BitVec.ofNat 64 x.2) bssName) =
      some (plainSection (bssShdr p offset) (place 5), 33) := by
    unfold objectLoaded writtenNames
    simp only [List.zip_cons_cons, List.find?_cons, h0', h1', h2', h3', h4', h5']
  unfold segment
  rw [if_neg (by decide)]
  show Option.bind (List.find? (fun x : ObjectFile.Section × Nat =>
    ObjectFile.strcmp mem (place 1 + BitVec.ofNat 64 x.2) bssName) _) _ = _
  rw [hfind]
  rfl

/-! ## The addresses of bindings -/

omit [DecidableEq β] in
theorem foldlM_congr_of_mem {σ : Type} {f g : σ → β → Option σ} {l : List β}
    (h : ∀ b ∈ l, ∀ s, f s b = g s b) (s : σ) : l.foldlM f s = l.foldlM g s := by
  induction l generalizing s with
  | nil => rfl
  | cons b l ih =>
    obtain ⟨hb, hl⟩ := List.forall_mem_cons.mp h
    rw [List.foldlM_cons, List.foldlM_cons, hb]
    congr 1
    funext s'
    exact ih hl s'

/-- The start of a section is added to the offsets of some bindings. -/
theorem foldlM_update {seg : Option Word} {start : Word} {l : List β} (hl : l.Nodup)
    (hseg : seg = some start) (f : β → Word) :
    l.foldlM (fun f b => do some (Function.update f b (f b + (← seg)))) f =
      some fun b => if b ∈ l then f b + start else f b := by
  subst hseg
  induction l generalizing f with
  | nil => rfl
  | cons b l ih =>
    obtain ⟨hb, hl⟩ := List.nodup_cons.mp hl
    rw [List.foldlM_cons]
    show Option.bind (some (Function.update f b (f b + start))) _ = _
    rw [Option.bind_some, ih hl]
    congr 1
    funext x
    by_cases hx : x = b
    · rw [hx, if_neg hb, if_pos List.mem_cons_self, Function.update_self]
    · rw [Function.update_of_ne hx]
      simp only [List.mem_cons, hx, false_or]

/-- A binding of the program has the start of its section added. -/
def loadedAddress (p : Assembly β) (offset : β → Word) (place : Nat → Word) (b : β) : Word :=
  if b ∈ p.labels then (assembled p offset).offset b + place 2
  else if b ∈ p.staticBindings then (assembled p offset).offset b + place 5
  else (assembled p offset).offset b

theorem bindingAugOffsetsToAddresses_eq (hp : p.WellFormed)
    (h : BytesAt mem (place 1) shstrtab) :
    bindingAugOffsetsToAddresses p (objectLoaded p offset relas place) writtenNames mem
      (assembled p offset).offset = some (loadedAddress p offset place) := by
  obtain ⟨hdata, hlabels, -⟩ := List.nodup_append.mp hp.nodup
  have hstatics := (List.nodup_append.mp hdata).2.1
  have hguard : p.staticBindings.foldlM (fun offset' bndg => do
      if p.type bndg = .absoluteStorage ∧ p.state bndg = .definedState then
        some (Function.update offset' bndg (offset' bndg +
          (← segment (objectLoaded p offset relas place) writtenNames mem bssName)))
      else some offset') (assembled p offset).offset =
      p.staticBindings.foldlM (fun offset' bndg => do
        some (Function.update offset' bndg (offset' bndg +
          (← segment (objectLoaded p offset relas place) writtenNames mem bssName))))
        (assembled p offset).offset := by
    apply foldlM_congr_of_mem
    intro b hb f
    exact if_pos (hp.statics b hb)
  unfold bindingAugOffsetsToAddresses
  rw [hguard, foldlM_update hstatics (segment_bss h)]
  show p.labels.foldlM _ _ = _
  rw [foldlM_update hlabels (segment_text h)]
  congr 1
  funext b
  unfold loadedAddress
  by_cases hlabel : b ∈ p.labels
  · have hstatic : b ∉ p.staticBindings := fun hs => (notMem_of_wellFormed hp).2 hs hlabel
    rw [if_pos hlabel, if_pos hlabel, if_neg hstatic]
  · rw [if_neg hlabel, if_neg hlabel]

/-! ## The program in memory -/

/-- Relocations write to the code only. -/
theorem doRelocations_outside_text (hp : p.WellFormed) (hsized : Sized old p offset relas)
    (hrelas : (codeRelas 0 p.generatedExpressions).mapM (symbolTables p offset).elfRela =
      some relas) {updates : List Binding} {mem₀ mem' : Memory}
    (h : ObjectFile.doRelocations ((objectLoaded p offset relas place).assign mem updates) mem₀ =
      some mem') {a : Word}
    (ha : ¬ (a - place 2).toNat < (codeBytes p.generatedExpressions).length) :
    mem' a = mem₀ a := by
  have hsame := ObjectFile.sameTables_assign (objectLoaded p offset relas place) mem updates
  apply ObjectFile.doRelocations_outside h
  rw [hsame.fields_eq]
  intro f hf hfa
  exact ha (fields_objectLoaded hp hsized hrelas hf hfa)

theorem linkAddress_eq (hp : p.WellFormed) (offset : β → Word) (place : Nat → Word)
    (updates : List Binding) : ∀ b ∈ p.symbolBndgs,
    (if b ∈ p.undefinedBindings then imported p updates b else loadedAddress p offset place b) =
      linkAddress p offset place updates b := by
  intro b hb
  unfold linkAddress loadedAddress
  by_cases hundefined : b ∈ p.undefinedBindings
  · rw [if_pos hundefined, if_pos hundefined]
  · rw [if_neg hundefined, if_neg hundefined]
    rcases (mem_symbolBndgs hp).mp hb with h | hstatic | hlabel
    · exact absurd h hundefined
    · rw [if_neg ((notMem_of_wellFormed hp).2 hstatic), if_pos hstatic, if_pos hstatic, add_comm]
    · have hstatic : b ∉ p.staticBindings := fun hs => (notMem_of_wellFormed hp).2 hs hlabel
      rw [if_pos hlabel, if_neg hstatic, add_comm]

/-- What is in the other sections is there after the relocations. -/
theorem bytesAt_outside_text (hapart : SegmentsApart (segments p offset relas place))
    {i : Nat} (hi : i = 1 ∨ i = 3) (shdr : Shdr)
    (hshdr : (segments p offset relas place)[i]? = some (place i, shdr)) {bytes : List Byte}
    (hbytes : bytes.length ≤ shdr.shSize) (hlt : bytes.length < 2 ^ 64) {mem₀ mem' : Memory}
    (houtside : ∀ a : Word, ¬ (a - place 2).toNat < (codeBytes p.generatedExpressions).length →
      mem' a = mem₀ a) (h : BytesAt mem₀ (place i) bytes) : BytesAt mem' (place i) bytes := by
  apply h.congr
  intro k hk
  apply houtside
  intro htext
  obtain ⟨hlength, hsegment⟩ := List.getElem?_eq_some_iff.mp hshdr
  have htwo : (segments p offset relas place)[2]? = some (place 2, textShdr p) := rfl
  obtain ⟨hlength', hsegment'⟩ := List.getElem?_eq_some_iff.mp htwo
  have hin : (place i + BitVec.ofNat 64 k - place i).toNat < shdr.shSize := by
    rw [X86.toNat_add_sub _ (by omega)]
    omega
  unfold SegmentsApart at hapart
  rw [List.pairwise_iff_getElem] at hapart
  rcases hi with rfl | rfl
  · have hpair := hapart 1 2 hlength hlength' (by omega) (place 1 + BitVec.ofNat 64 k)
    rw [hsegment, hsegment'] at hpair
    exact hpair ⟨hin, htext⟩
  · have hpair := hapart 2 3 hlength' hlength (by omega) (place 3 + BitVec.ofNat 64 k)
    rw [hsegment, hsegment'] at hpair
    exact hpair ⟨htext, hin⟩

theorem loadProgram_eq (hp : p.WellFormed) (hsize : maxElfSize p < 2 ^ 31)
    (hsized : Sized old p offset relas)
    (hapart : SegmentsApart (segments p offset relas place))
    (hrelas : (codeRelas 0 p.generatedExpressions).mapM (symbolTables p offset).elfRela =
      some relas) (mem : Memory) : ∃ mem₁,
      ObjectFile.doRelocations (objectLoaded p offset relas place)
        (memoryRead old p offset relas place mem) = some mem₁ ∧
      BytesAt mem₁ (place 3) (symbolTables p offset).strtab ∧
      loadProgram old p offset place mem =
        some (objectLoaded p offset relas place, mem₁, loadedAddress p offset place) := by
  have hsizes := lt_of_fits hp hsized
  have hlength := length_strtab hp offset
  obtain ⟨mem₁, hmem₁, -⟩ := doRelocations_objectLoaded hp hsized hapart hrelas [] mem
    (linkAddress_eq hp offset place [])
  have houtside := fun a => doRelocations_outside_text (a := a) hp hsized hrelas hmem₁
  rw [ObjectFile.Object.assign_nil] at hmem₁
  have hnames : BytesAt mem₁ (place 1) shstrtab :=
    bytesAt_outside_text hapart (.inl rfl) shstrtabShdr rfl (Nat.le_refl _)
      (by show 49 < 2 ^ 64; omega) houtside (shstrtab_memoryRead hapart mem)
  have hstrtab : BytesAt mem₁ (place 3) (symbolTables p offset).strtab :=
    bytesAt_outside_text hapart (.inr rfl) (strtabShdr p) rfl (Nat.le_of_eq hlength)
      (by omega) houtside (strtab_memoryRead hp hsized hapart mem)
  refine ⟨mem₁, hmem₁, hstrtab, ?_⟩
  unfold loadProgram
  rw [writeElf_eq old hsize, hrelas, Option.map_some, Option.bind_eq_bind, Option.bind_some]
  dsimp only
  rw [load_writtenFile hp hsized, hmem₁, Option.map_some, Option.bind_eq_bind, Option.bind_some]
  dsimp only
  rw [readSectionNames_writtenFile hsized, Option.bind_eq_bind, Option.bind_some,
    bindingAugOffsetsToAddresses_eq hp hnames]
  rfl

/-- A program that has been written is loaded, if its file is not too large and its sections are
given addresses that are apart.  After any calls of `mutate_bindings` the code in memory is the
program's: the instructions name labels and static bindings by the addresses that the bindings
have been given, and undefined bindings by those of the last update for their names.  Memory
outside of the sections is left as it was. -/
theorem loadProgram_links (hp : p.WellFormed) {written : Written β}
    (hwritten : writeElf old p offset = some written) (hsize : maxElfSize p < 2 ^ 31)
    (hbss : staticExtent p p.staticBindings < 2 ^ 64)
    (hapart : SegmentsApart (placedSections written.bin place)) (mem : Memory) :
    ∃ obj mem₁ address, loadProgram old p offset place mem = some (obj, mem₁, address) ∧
      ∀ calls : List (List Binding), ∃ obj' mem', mutateAll calls obj mem₁ = some (obj', mem') ∧
        ∃ symbol : β → Word, (∀ b ∈ p.undefinedBindings, symbol b = imported p calls.flatten b) ∧
          (∀ b, b ∈ p.staticBindings ∨ b ∈ p.labels → symbol b = address b) ∧
          BytesAt mem' (place 2) (linkedCode symbol (place 2) 0 p.generatedExpressions) ∧
          X86.Decodes (linkedCode symbol (place 2) 0 p.generatedExpressions)
            (operations symbol (place 2) 0 p.generatedExpressions) ∧
          ∀ a, (∀ x ∈ placedSections written.bin place, ¬ (a - x.1).toNat < x.2.shSize) →
            mem' a = mem a := by
  obtain ⟨relas, hrelas, hfile, -, hsized⟩ := written_sized hp hwritten hsize hbss
  rw [hfile, placedSections_writtenFile hsized] at hapart ⊢
  obtain ⟨mem₁, hmem₁, -, hload⟩ := loadProgram_eq hp hsize hsized hapart hrelas mem
  refine ⟨_, mem₁, _, hload, fun calls => ?_⟩
  rw [← ObjectFile.Object.assign_nil (objectLoaded p offset relas place)
    (memoryRead old p offset relas place mem)] at hmem₁
  obtain ⟨mem', hmem', hcalls⟩ := ObjectFile.mutateAll_eq
    (namesApart_objectLoaded hp hsized hapart hrelas) hmem₁ calls
  rw [ObjectFile.Object.assign_nil, List.nil_append] at hcalls
  rw [List.nil_append] at hmem'
  obtain ⟨mem'', hmem'', hcode⟩ := doRelocations_objectLoaded hp hsized hapart hrelas
    calls.flatten mem (linkAddress_eq hp offset place calls.flatten)
  obtain rfl := Option.some.inj (hmem'.symm.trans hmem'')
  refine ⟨_, mem', hcalls, _, fun b hb => if_pos hb, fun b hb => ?_, hcode,
    decodes_linkedCode _ (place 2) hp.encodable 0, fun a ha => ?_⟩
  · have hundefined : b ∉ p.undefinedBindings := by
      intro hu
      obtain ⟨hstatic, hlabel⟩ := (notMem_of_wellFormed hp).1 hu
      exact hb.elim hstatic hlabel
    exact if_neg hundefined
  · have htext : (segments p offset relas place)[2]? = some (place 2, textShdr p) := rfl
    rw [doRelocations_outside_text hp hsized hrelas hmem' (ha _ (List.mem_of_getElem? htext))]
    exact copies_outside ha mem

/-! ## A program of four bindings -/

theorem zero_notMem_names : (0 : Byte) ∉ [0x66#8] ∧ (0 : Byte) ∉ [0x67#8] := by decide

def callingName (bndg : Nat) : Option CString :=
  if bndg = 0 then some ⟨[0x66], zero_notMem_names.1⟩
  else if bndg = 2 then some ⟨[0x67], zero_notMem_names.2⟩
  else none

/-- Code that has a label, uses a static binding and calls what is not defined. -/
def callingProgram : Assembly Nat where
  generatedExpressions := [.label 0, .movqMdbToReg (.literal (-8)) 12 9,
    .jeRel (.lnkrSubRipToRef 0), .movqImmToReg (.lnkrAddOffToRef 1 16) 8,
    .movqImmToReg (.symbol 2) 10, .callReg 10, .ret]
  undefinedBindings := [2]
  staticBindings := [3, 1]
  name := callingName
  type _ := .absoluteStorage
  scope bndg := if bndg = 1 then .localScope else .globalScope
  state bndg := if bndg = 2 then .undefinedState else .definedState
  size bndg := 12 * bndg

def spacedPlace (i : Nat) : Word := BitVec.ofNat 64 (2 ^ 16 * (i + 1))

theorem wellFormed_callingProgram : callingProgram.WellFormed where
  nodup := by decide
  undefined := by decide
  statics := by decide
  encodable := by
    intro i hi
    simp only [callingProgram, List.mem_cons, List.not_mem_nil, or_false] at hi
    rcases hi with rfl | rfl | rfl | rfl | rfl | rfl | rfl
    · exact ⟨trivial, trivial⟩
    · exact ⟨trivial, show X86.signed 4 (-8) = -8 by decide⟩
    · exact ⟨trivial, trivial⟩
    · exact ⟨trivial, trivial⟩
    · exact ⟨trivial, trivial⟩
    · exact ⟨trivial, trivial⟩
    · exact ⟨trivial, trivial⟩

/-- Sections of at most 64 KiB are apart at addresses with this distance. -/
theorem segmentsApart_spacedPlace (shdrs : List Shdr) (hlength : shdrs.length < 2 ^ 16)
    (hsize : ∀ shdr ∈ shdrs, shdr.shSize ≤ 2 ^ 16) :
    SegmentsApart (((List.range shdrs.length).map spacedPlace).zip shdrs) := by
  unfold SegmentsApart
  rw [List.pairwise_iff_getElem]
  intro i j hi hj hij a h
  obtain ⟨hin, hin'⟩ := h
  rw [List.getElem_zip, List.getElem_map, List.getElem_range] at hin hin'
  have hsi := hsize _ (List.getElem_mem (l := shdrs) (n := i) (by
    rw [List.length_zip] at hi
    omega))
  have hsj := hsize _ (List.getElem_mem (l := shdrs) (n := j) (by
    rw [List.length_zip] at hj
    omega))
  rw [List.length_zip, List.length_map, List.length_range] at hj
  replace hin : (a - spacedPlace i).toNat < 2 ^ 16 := Nat.lt_of_lt_of_le hin hsi
  replace hin' : (a - spacedPlace j).toNat < 2 ^ 16 := Nat.lt_of_lt_of_le hin' hsj
  unfold spacedPlace at hin hin'
  rw [BitVec.toNat_sub, BitVec.toNat_ofNat] at hin hin'
  omega

theorem maxElfSize_callingProgram : maxElfSize callingProgram < 2 ^ 31 := by decide

theorem writeElf_callingProgram : ∃ written,
    writeElf ⟨fun _ => 0, fun _ => 0, fun _ => 0, fun _ => 0⟩ callingProgram (fun _ => 0) =
      some written ∧
      SegmentsApart (placedSections written.bin spacedPlace) := by
  have hsome : ((codeRelas 0 callingProgram.generatedExpressions).mapM
      (symbolTables callingProgram fun _ => 0).elfRela).isSome := by decide +kernel
  obtain ⟨relas, hrelas⟩ := Option.isSome_iff_exists.mp hsome
  have hcount : relas.length = 3 :=
    (ObjectFile.forall₂_of_mapM hrelas).length_eq.symm
  have hlength := length_writtenFile ⟨fun _ => 0, fun _ => 0, fun _ => 0, fun _ => 0⟩
    callingProgram (fun _ => 0) relas
  have hfile : (writtenFile ⟨fun _ => 0, fun _ => 0, fun _ => 0, fun _ => 0⟩ callingProgram
      (fun _ => 0) relas).length = 880 := by
    rw [hlength, hcount]
    decide +kernel
  have hbss : (symbolTables callingProgram fun _ => 0).bssPtr = 56 := by decide +kernel
  have hsized : Sized ⟨fun _ => 0, fun _ => 0, fun _ => 0, fun _ => 0⟩ callingProgram
      (fun _ => 0) relas := by
    refine ⟨?_, ?_⟩
    · rw [hfile]
      omega
    · rw [hbss]
      omega
  rw [writeElf_eq _ maxElfSize_callingProgram, hrelas]
  refine ⟨_, rfl, ?_⟩
  rw [show (⟨writtenFile ⟨fun _ => 0, fun _ => 0, fun _ => 0, fun _ => 0⟩ callingProgram
    (fun _ => 0) relas, _, _⟩ : Written Nat).bin = writtenFile _ _ _ relas from rfl,
    placedSections_writtenFile hsized]
  apply segmentsApart_spacedPlace (writtenShdrs callingProgram (fun _ => 0) relas)
  · show 7 < 2 ^ 16
    omega
  · intro shdr hshdr
    have hrela : (relaShdr callingProgram relas).shSize = 72 := by
      unfold relaShdr
      rw [hcount]
    have hcode : (codeBytes callingProgram.generatedExpressions).length ≤ 2 ^ 16 := by decide
    have hstrtab : measureStrtab callingProgram ≤ 2 ^ 16 := by decide
    have hsymtab : 24 * measureSymtab callingProgram ≤ 2 ^ 16 := by decide
    simp only [writtenShdrs, List.mem_cons, List.not_mem_nil, or_false] at hshdr
    rcases hshdr with rfl | rfl | rfl | rfl | rfl | rfl | rfl
    · exact Nat.zero_le _
    · show 49 ≤ 2 ^ 16
      omega
    · exact hcode
    · exact hstrtab
    · exact hsymtab
    · show (symbolTables callingProgram fun _ => 0).bssPtr ≤ 2 ^ 16
      omega
    · omega

/-- The code of the program when `g` has been given an address, which a later call changes. -/
theorem loadProgram_links_calling : ∃ obj mem₁ address obj' mem',
    loadProgram ⟨fun _ => 0, fun _ => 0, fun _ => 0, fun _ => 0⟩ callingProgram (fun _ => 0)
      spacedPlace (fun _ => 0) = some (obj, mem₁, address) ∧
    mutateAll [[⟨[0x67], 0x7000⟩], [⟨[0x68], 0x9000⟩, ⟨[0x67], 0x8000⟩]] obj mem₁ =
      some (obj', mem') ∧
    ∃ symbol : Nat → Word, symbol 2 = 0x8000 ∧
      BytesAt mem' (spacedPlace 2) (linkedCode symbol (spacedPlace 2) 0
        callingProgram.generatedExpressions) := by
  obtain ⟨written, hwritten, hapart⟩ := writeElf_callingProgram
  obtain ⟨obj, mem₁, address, hload, hcalls⟩ := loadProgram_links wellFormed_callingProgram
    hwritten maxElfSize_callingProgram (by decide) hapart (fun _ => 0)
  obtain ⟨obj', mem', hmutate, symbol, hundefined, -, hcode, -⟩ :=
    hcalls [[⟨[0x67], 0x7000⟩], [⟨[0x68], 0x9000⟩, ⟨[0x67], 0x8000⟩]]
  refine ⟨obj, mem₁, address, obj', mem', hload, hmutate, symbol, ?_, hcode⟩
  rw [hundefined 2 (by decide)]
  decide

end L2.Bootstrap
