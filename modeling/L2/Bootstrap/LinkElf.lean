import L2.Bootstrap.LoadElf
import L2.Bootstrap.NameResolution

/-!
# The relocations of a written file

The relocations that `write_elf` has collected are done one after the other on the loaded
code.  Each of them patches the cell that its field is, so together they link the code, with
the addresses that the symbols then have.
-/

namespace L2.Bootstrap

open X86 (Word Byte Memory bytesOf store BytesAt)
open ObjectFile (Sym Shdr Section Binding Entry doRelocation doRelocations prescription
  Calculation R_X86_64_64 R_X86_64_PC32)

variable {β : Type}

/-! ## Patches -/

/-- Patched bytes are in memory where a number has been stored among them. -/
theorem bytesAt_patch {mem : Memory} {a : Word} {bin : List Byte} {offset n : Nat} (v : Word)
    (h : BytesAt mem a bin) (hlt : offset + n ≤ bin.length) (hsize : bin.length ≤ 2 ^ 64) :
    BytesAt (store mem (a + BitVec.ofNat 64 offset) n v) a (patch offset (bytesOf n v) bin) := by
  have hsplit : bin.take offset ++ ((bin.drop offset).take n ++ bin.drop (offset + n)) = bin := by
    rw [← List.drop_drop, List.take_append_drop, List.take_append_drop]
  have hbefore : (bin.take offset).length = offset := by
    rw [List.length_take]
    omega
  have hold : ((bin.drop offset).take n).length = n := by
    rw [List.length_take, List.length_drop]
    omega
  rw [← hsplit] at h hsize
  have hstore := h.store v hold hsize
  rw [hbefore] at hstore
  unfold patch
  rw [X86.length_bytesOf, List.append_assoc]
  exact hstore

theorem length_patch {bin bytes : List Byte} {offset : Nat}
    (hlt : offset + bytes.length ≤ bin.length) : (patch offset bytes bin).length = bin.length := by
  unfold patch
  rw [List.length_append, List.length_append, List.length_take, List.length_drop]
  omega

/-- What a relocation writes. -/
def RelaType.width : RelaType → Nat
  | .x64 => 8
  | .pc32 => 4

theorem length_relocate (symbol : β → Word) (base : Word) {bin : List Byte} {rela : Rela β}
    (hlt : rela.offset + rela.type.width ≤ bin.length) :
    (relocate symbol base bin rela).length = bin.length := by
  unfold relocate
  cases htype : rela.type with
  | _ =>
    rw [htype] at hlt
    exact length_patch (by rw [X86.length_bytesOf]; exact hlt)

/-- A field is in its instruction. -/
theorem le_of_mem_codeRelas {instrs : List (Instruction β)} : ∀ {pos : Nat} {rela : Rela β},
    rela ∈ codeRelas pos instrs →
      rela.offset + rela.type.width ≤ pos + (codeBytes instrs).length := by
  induction instrs with
  | nil => exact fun h => absurd h List.not_mem_nil
  | cons i instrs ih =>
    intro pos rela h
    have hlength : (codeBytes (i :: instrs)).length = i.bytes.length + (codeBytes instrs).length :=
      List.length_append
    rcases List.mem_append.mp h with hi | hrest
    · unfold Instruction.relas at hi
      rw [Option.mem_toList] at hi
      obtain ⟨f, hf, hrela⟩ := Option.bind_eq_some_iff.mp hi
      have hbytes := length_bytes i
      rw [hf, Option.elim_some] at hbytes
      have hwidth : rela.offset + rela.type.width = pos + i.head.length + f.2 := by
        unfold StaticValue.rela at hrela
        split at hrela
        · cases hrela
        · split at hrela
          · next hsize => cases hrela; rw [hsize]; rfl
          · cases hrela
        · split at hrela
          · next hsize => cases hrela; rw [hsize]; rfl
          · cases hrela
        · split at hrela
          · next hsize => cases hrela; rw [hsize]; rfl
          · cases hrela
      omega
    · have := ih hrest
      omega

/-! ## One relocation -/

theorem toNat_elf64RInfo {i t : Nat} (hi : i < 2 ^ 32) (ht : t < 2 ^ 32) :
    (elf64RInfo i t >>> 32).toNat = i ∧ (elf64RInfo i t &&& 0xffffffff).toNat = t := by
  have hlow : BitVec.ofNat 64 t &&& 0xffffffff = BitVec.ofNat 64 t := by
    apply BitVec.eq_of_toNat_eq
    rw [BitVec.toNat_and, BitVec.toNat_ofNat, Nat.mod_eq_of_lt (by omega)]
    exact Nat.and_two_pow_sub_one_of_lt_two_pow (n := 32) ht
  have hvalue : (elf64RInfo i t).toNat = i * 2 ^ 32 + t := by
    unfold elf64RInfo
    rw [hlow, BitVec.toNat_add, BitVec.toNat_shiftLeft, BitVec.toNat_ofNat, BitVec.toNat_ofNat,
      Nat.shiftLeft_eq]
    omega
  constructor
  · rw [BitVec.toNat_ushiftRight, hvalue, Nat.shiftRight_eq_div_pow]
    omega
  · rw [BitVec.toNat_and, hvalue]
    show (i * 2 ^ 32 + t) &&& (2 ^ 32 - 1) = t
    rw [Nat.and_two_pow_sub_one_eq_mod]
    omega

/-- A relocation at its address. -/
def placedRela (base : Word) (rela : ObjectFile.Rela) : ObjectFile.Rela :=
  { rela with rOffset := base + rela.rOffset }

section

variable {t : SymbolTables β} {obj : ObjectFile.Object} {rela : Rela β} {elfRela : ObjectFile.Rela}
  {symbol : β → Word} {base : Word}

/-- What is written for a relocation is the relocation. -/
theorem elfRela_some (h : t.elfRela rela = some elfRela)
    (hlt : ∀ i, t.context rela.symbol = some i → i < 2 ^ 32) :
    ∃ i, t.context rela.symbol = some i ∧ elfRela.rOffset = BitVec.ofNat 64 rela.offset ∧
      elfRela.symbol = i ∧ elfRela.type = rela.type.code ∧ elfRela.rAddend = rela.addend := by
  obtain ⟨i, hi, h⟩ := Option.bind_eq_some_iff.mp h
  cases h
  have hcode : rela.type.code < 2 ^ 32 := by
    cases rela.type with
    | _ => exact Nat.lt_of_sub_ne_zero (by decide)
  obtain ⟨hsymbol, htype⟩ := toNat_elf64RInfo (hlt i hi) hcode
  exact ⟨i, hi, rfl, hsymbol, htype, rfl⟩

/-- A round of the inner loop of `do_relocations` does what the relocation prescribes to the
code. -/
theorem doRelocation_code (h : t.elfRela rela = some elfRela)
    (hlt : ∀ i, t.context rela.symbol = some i → i < 2 ^ 32)
    (hsym : ∀ i, t.context rela.symbol = some i →
      ∃ sym, obj.sym 4 i = some sym ∧ sym.stValue = symbol rela.symbol)
    {bin : List Byte} (hfield : rela.offset + rela.type.width ≤ bin.length)
    (howns : ∀ i < bin.length, obj.owns (base + BitVec.ofNat 64 i)) (hsize : bin.length ≤ 2 ^ 64)
    {mem : Memory} (hbin : BytesAt mem base bin) :
    ∃ mem', doRelocation obj 4 (placedRela base elfRela) elfRela.rAddend mem = some mem' ∧
      BytesAt mem' base (relocate symbol base bin rela) := by
  obtain ⟨i, hi, hoffset, hsymbol, htype, haddend⟩ := elfRela_some h hlt
  obtain ⟨sym, hsym, hvalue⟩ := hsym i hi
  have hcell : ∀ n, rela.offset + n ≤ bin.length → ∀ j < n,
      obj.owns (base + BitVec.ofNat 64 rela.offset + BitVec.ofNat 64 j) := by
    intro n hn j hj
    rw [BitVec.add_assoc, ← BitVec.ofNat_add]
    exact howns _ (by omega)
  have hplaced : (placedRela base elfRela).type = elfRela.type := rfl
  have hindex : (placedRela base elfRela).symbol = elfRela.symbol := rfl
  have hplace : (placedRela base elfRela).rOffset = base + BitVec.ofNat 64 rela.offset := by
    rw [← hoffset]
    rfl
  rw [ObjectFile.doRelocation_eq, hplaced, hindex, hplace, htype, hsymbol, hsym, haddend]
  unfold relocate
  cases hkind : rela.type with
  | x64 =>
    rw [hkind] at hfield
    refine ⟨_, if_pos (hcell 8 hfield), ?_⟩
    show BytesAt (store mem _ 8 (sym.stValue + rela.addend)) base _
    rw [hvalue]
    exact bytesAt_patch _ hbin hfield hsize
  | pc32 =>
    rw [hkind] at hfield
    refine ⟨_, if_pos (hcell 4 hfield), ?_⟩
    show BytesAt (store mem _ 4 (sym.stValue + rela.addend - _)) base _
    rw [hvalue]
    exact bytesAt_patch _ hbin hfield hsize

/-- All rounds of the loop for the relocations of some code. -/
theorem doRelocations_code {relas : List (Rela β)} {elfRelas : List ObjectFile.Rela}
    (h : List.Forall₂ (fun rela elfRela => t.elfRela rela = some elfRela) relas elfRelas)
    (hlt : ∀ b i, t.context b = some i → i < 2 ^ 32)
    (hsym : ∀ rela ∈ relas, ∀ i, t.context rela.symbol = some i →
      ∃ sym, obj.sym 4 i = some sym ∧ sym.stValue = symbol rela.symbol)
    {bin : List Byte} (hfield : ∀ rela ∈ relas, rela.offset + rela.type.width ≤ bin.length)
    (howns : ∀ i < bin.length, obj.owns (base + BitVec.ofNat 64 i)) (hsize : bin.length ≤ 2 ^ 64)
    {mem : Memory} (hbin : BytesAt mem base bin) :
    ∃ mem', elfRelas.foldlM (fun mem rela =>
        doRelocation obj 4 (placedRela base rela) rela.rAddend mem) mem = some mem' ∧
      BytesAt mem' base (relas.foldl (relocate symbol base) bin) := by
  induction h generalizing mem bin with
  | nil => exact ⟨mem, rfl, hbin⟩
  | cons hrela hrest ih =>
    obtain ⟨hfirst, hsym⟩ := List.forall_mem_cons.mp hsym
    obtain ⟨hcell, hfield⟩ := List.forall_mem_cons.mp hfield
    obtain ⟨mem₁, hmem₁, hbin₁⟩ := doRelocation_code hrela (hlt _) hfirst hcell howns hsize hbin
    have hlength := length_relocate symbol base hcell
    rw [← hlength] at howns hsize
    obtain ⟨mem', hmem', hbin'⟩ := ih hsym (by rw [hlength]; exact hfield) howns hsize hbin₁
    refine ⟨mem', ?_, hbin'⟩
    rw [List.foldlM_cons, hmem₁]
    exact hmem'

end

/-! ## The loaded object -/

variable [DecidableEq β] {p : Assembly β} {old : Uninitialized} {offset : β → Word}
  {relas : List ObjectFile.Rela} {place : Nat → Word} {mem : Memory}

/-- The memory that `read_object` leaves. -/
def memoryRead (old : Uninitialized) (p : Assembly β) (offset : β → Word)
    (relas : List ObjectFile.Rela) (place : Nat → Word) (mem : Memory) : Memory :=
  (segments p offset relas place).foldl (copyOf (writtenFile old p offset relas)) mem

/-- What the file has of a section is in memory. -/
theorem section_memoryRead (hapart : SegmentsApart (segments p offset relas place)) {i : Nat}
    {shdr : Shdr} (hshdr : (segments p offset relas place)[i]? = some (place i, shdr))
    (hnobits : shdr.shType ≠ ObjectFile.SHT_NOBITS) {front bytes after : List Byte}
    (hfile : writtenFile old p offset relas = front ++ (bytes ++ after))
    (hoffset : front.length = shdr.shOffset) (hsize : bytes.length = shdr.shSize)
    (hlt : bytes.length < 2 ^ 64) (mem : Memory) :
    BytesAt (memoryRead old p offset relas place mem) (place i) bytes := by
  have hholds := holds_copies (writtenFile old p offset relas) hapart
    (List.mem_of_getElem? hshdr) hnobits (by show shdr.shSize < 2 ^ 64; omega) mem
  unfold memoryRead
  rw [hfile] at hholds ⊢
  exact bytesAt_of_holds hholds hoffset.symm hsize.symm hlt

theorem text_memoryRead (hp : p.WellFormed) (hsized : Sized old p offset relas)
    (hapart : SegmentsApart (segments p offset relas place)) (mem : Memory) :
    BytesAt (memoryRead old p offset relas place mem) (place 2)
      (codeBytes p.generatedExpressions) := by
  have hsizes := lt_of_fits hp hsized
  have hshdr : (segments p offset relas place)[2]? = some (place 2, textShdr p) := rfl
  obtain ⟨front, after, hfile, hfront⟩ := file_text old p offset relas
  exact section_memoryRead hapart hshdr (by show (1 : Nat) ≠ 8; omega) hfile hfront rfl
    (by omega) mem

theorem strtab_memoryRead (hp : p.WellFormed) (hsized : Sized old p offset relas)
    (hapart : SegmentsApart (segments p offset relas place)) (mem : Memory) :
    BytesAt (memoryRead old p offset relas place mem) (place 3)
      (symbolTables p offset).strtab := by
  have hsizes := lt_of_fits hp hsized
  have hlength := length_strtab hp offset
  have hshdr : (segments p offset relas place)[3]? = some (place 3, strtabShdr p) := rfl
  obtain ⟨front, after, hfile, hfront⟩ := file_strtab old p offset relas
  exact section_memoryRead hapart hshdr (by show (3 : Nat) ≠ 8; omega) hfile hfront hlength
    (by omega) mem

theorem shstrtab_memoryRead
    (hapart : SegmentsApart (segments p offset relas place)) (mem : Memory) :
    BytesAt (memoryRead old p offset relas place mem) (place 1) shstrtab := by
  have hshdr : (segments p offset relas place)[1]? = some (place 1, shstrtabShdr) := rfl
  obtain ⟨front, after, hfile, hfront⟩ := file_shstrtab old p offset relas
  exact section_memoryRead hapart hshdr (by show (3 : Nat) ≠ 8; omega) hfile hfront rfl
    (by show 49 < 2 ^ 64; omega) mem

theorem entries_objectLoaded (p : Assembly β) (offset : β → Word)
    (relas : List ObjectFile.Rela) (place : Nat → Word) :
    (objectLoaded p offset relas place).entries =
      relas.map fun rela => ⟨4, placedRela (place 2) rela, rela.rAddend⟩ := by
  have hentries : (objectLoaded p offset relas place).entries =
      (((relas.map (placedRela (place 2))).zip (relas.map ObjectFile.Rela.rAddend)).map
        fun e => (⟨4, e.1, e.2⟩ : Entry)) ++ [] := rfl
  rw [hentries, List.append_nil, List.zip_map', List.map_map]
  rfl

theorem segmentSize_textShdr (hp : p.WellFormed) (hsized : Sized old p offset relas) :
    (textShdr p).segmentSize = (codeBytes p.generatedExpressions).length := by
  have hsizes := lt_of_fits hp hsized
  apply Shdr.segmentSize_eq
  show (codeBytes p.generatedExpressions).length ≤ 2 ^ 64 - 8
  omega

theorem owns_objectLoaded (hp : p.WellFormed) (hsized : Sized old p offset relas) {a : Word}
    (h : (a - place 2).toNat < (codeBytes p.generatedExpressions).length) :
    (objectLoaded p offset relas place).owns a := by
  apply List.any_eq_true.mpr
  refine ⟨plainSection (textShdr p) (place 2), by simp [objectLoaded], decide_eq_true ?_⟩
  show _ < (textShdr p).segmentSize
  rw [segmentSize_textShdr hp hsized]
  exact h

theorem context_lt (hp : p.WellFormed) (hsized : Sized old p offset relas) :
    ∀ b i, (symbolTables p offset).context b = some i → i < 2 ^ 32 := by
  intro b i hi
  have hsizes := lt_of_fits hp hsized
  obtain ⟨k, e, rfl, hk, -⟩ := (entered_symbolTables p offset).context b i hi
  obtain ⟨hlt, -⟩ := List.getElem?_eq_some_iff.mp hk
  have hlength := length_finalSyms p offset
  omega

theorem load_writtenFile (hp : p.WellFormed) (hsized : Sized old p offset relas) :
    ObjectFile.load (writtenFile old p offset relas) place mem =
      (doRelocations (objectLoaded p offset relas place)
        (memoryRead old p offset relas place mem)).map
          fun mem' => (objectLoaded p offset relas place, mem') := by
  have hread := readObject_writtenFile hsized place mem
  rw [fileSections_writtenFile hp hsized] at hread
  unfold ObjectFile.load
  rw [hread, Option.bind_eq_bind, Option.bind_some]
  show Option.bind (ObjectFile.offsetsToAddresses _) _ = _
  rw [offsetsToAddresses_objectRead hp, Option.bind_some]
  show Option.bind (ObjectFile.storeAddends _ _) _ = _
  rw [storeAddends_objectAddressed, Option.bind_some]
  show Option.bind (doRelocations _ (memoryRead old p offset relas place mem)) _ = _
  cases doRelocations (objectLoaded p offset relas place)
    (memoryRead old p offset relas place mem) <;> rfl

/-! ## Names -/

omit [DecidableEq β] in
theorem bytesAt_end {a : Word} {name after : List Byte}
    (h : BytesAt mem a ((name ++ [0]) ++ after)) : mem (a + BitVec.ofNat 64 name.length) = 0 := by
  apply h
  rw [List.getElem?_append_left (by simp), List.getElem?_append_right (Nat.le_refl _),
    Nat.sub_self]
  rfl

/-- The strings that name symbols are in the string table. -/
theorem inString_memoryRead (hp : p.WellFormed) (hsized : Sized old p offset relas)
    (hapart : SegmentsApart (segments p offset relas place)) (mem : Memory) :
    ∀ sym ∈ finalSyms p offset, ∀ a,
      ObjectFile.InString (memoryRead old p offset relas place mem)
        (place 3 + BitVec.ofNat 64 sym.stName) a → (a - place 3).toNat < measureStrtab p := by
  have hsizes := lt_of_fits hp hsized
  have hstrtab := strtab_memoryRead hp hsized hapart mem
  have hlength := length_strtab hp offset
  apply forall_finalSyms hp offset fun sym => ∀ a,
    ObjectFile.InString (memoryRead old p offset relas place mem)
      (place 3 + BitVec.ofNat 64 sym.stName) a → (a - place 3).toNat < measureStrtab p
  · intro a ha
    rw [(entered_symbolTables p offset).strtab] at hstrtab hlength
    obtain ⟨i, hi, rfl⟩ := ha.exists_le (k := 0) (by
      rw [BitVec.add_zero, BitVec.add_zero]
      exact (X86.bytesAt_cons.mp hstrtab).1)
    obtain rfl := Nat.le_zero.mp hi
    rw [BitVec.add_zero, BitVec.add_zero, BitVec.sub_self, BitVec.toNat_zero, ← hlength]
    exact Nat.succ_pos _
  · intro k e hk a ha
    obtain ⟨front, after, htable, hname⟩ := strtab_eq p offset hk
    rw [htable] at hstrtab hlength
    simp only [List.length_append, List.length_singleton] at hlength
    have hend := bytesAt_end (X86.bytesAt_append.mp hstrtab).2
    rw [hname] at ha
    obtain ⟨i, hi, rfl⟩ := ha.exists_le hend
    rw [BitVec.add_assoc, ← BitVec.ofNat_add, X86.toNat_add_sub _ (by omega)]
    omega

/-- Fields of relocations are in the code. -/
theorem fields_objectLoaded (hp : p.WellFormed) (hsized : Sized old p offset relas)
    (hrelas : (codeRelas 0 p.generatedExpressions).mapM (symbolTables p offset).elfRela =
      some relas) {f : Word × Nat} (hf : f ∈ (objectLoaded p offset relas place).fields) {a : Word}
    (ha : ObjectFile.Within f a) :
    (a - place 2).toNat < (codeBytes p.generatedExpressions).length := by
  have hsizes := lt_of_fits hp hsized
  obtain ⟨entry, hentry, hfield⟩ := List.mem_filterMap.mp hf
  rw [entries_objectLoaded] at hentry
  obtain ⟨elfRela, helf, rfl⟩ := List.mem_map.mp hentry
  obtain ⟨rela, hrela, hsome⟩ :=
    ObjectFile.exists_of_forall₂_right (ObjectFile.forall₂_of_mapM hrelas) helf
  obtain ⟨i, -, hoffset, -, htype, -⟩ := elfRela_some hsome (context_lt hp hsized _)
  have hbound := le_of_mem_codeRelas hrela
  have hplace : (placedRela (place 2) elfRela).rOffset = place 2 + BitVec.ofNat 64 rela.offset := by
    rw [← hoffset]
    rfl
  have hwidth : f = (place 2 + BitVec.ofNat 64 rela.offset, rela.type.width) := by
    rw [← hplace]
    unfold Entry.field at hfield
    rw [show (placedRela (place 2) elfRela).type = rela.type.code from htype] at hfield
    cases hkind : rela.type with
    | _ =>
      rw [hkind] at hfield
      exact (Option.some.inj hfield).symm
  rw [hwidth] at ha
  replace ha : (a - (place 2 + BitVec.ofNat 64 rela.offset)).toNat < rela.type.width := ha
  have hsum : a - place 2 = (a - (place 2 + BitVec.ofNat 64 rela.offset)) +
      BitVec.ofNat 64 rela.offset := by ring
  rw [hsum, BitVec.toNat_add, BitVec.toNat_ofNat]
  omega

theorem segments_apart (hapart : SegmentsApart (segments p offset relas place)) (a : Word) :
    ¬ ((a - place 2).toNat < (codeBytes p.generatedExpressions).length ∧
      (a - place 3).toNat < measureStrtab p) := by
  have hlength : (segments p offset relas place).length = 7 := rfl
  unfold SegmentsApart at hapart
  exact List.pairwise_iff_getElem.mp hapart 2 3 (by omega) (by omega) (by omega) a

theorem namesApart_objectLoaded (hp : p.WellFormed) (hsized : Sized old p offset relas)
    (hapart : SegmentsApart (segments p offset relas place))
    (hrelas : (codeRelas 0 p.generatedExpressions).mapM (symbolTables p offset).elfRela =
      some relas) : ObjectFile.NamesApart (objectLoaded p offset relas place)
        (memoryRead old p offset relas place mem) := by
  intro sec hsec htab
  have hnames := inString_memoryRead hp hsized hapart mem
  simp only [objectLoaded, List.mem_cons, List.not_mem_nil, or_false] at hsec
  rcases hsec with rfl | rfl | rfl | rfl | rfl | rfl | rfl
  · cases htab
  · cases htab
  · cases htab
  · cases htab
  · refine ⟨plainSection (strtabShdr p) (place 3), rfl, fun sym hsym a ha f hf hfa => ?_⟩
    obtain ⟨sym', hsym', rfl⟩ := List.mem_map.mp hsym
    exact segments_apart hapart a
      ⟨fields_objectLoaded hp hsized hrelas hf hfa, hnames sym' hsym' a ha⟩
  · cases htab
  · cases htab

/-! ## The addresses of symbols -/

/-- What the calls of `mutate_bindings` give an undefined binding. -/
def imported (p : Assembly β) (updates : List Binding) (b : β) : Word :=
  (((updates.filter (·.isNamed (p.symbolName b))).getLast?).map Binding.address).getD 0

/-- The address that the code is linked to for a binding. -/
def linkAddress (p : Assembly β) (offset : β → Word) (place : Nat → Word)
    (updates : List Binding) (b : β) : Word :=
  if b ∈ p.undefinedBindings then imported p updates b
  else place (if b ∈ p.staticBindings then 5 else 2) + (assembled p offset).offset b

/-- `strcmp` finds a name that is in memory. -/
theorem strcmp_bytesAt {a : Word} {name after : List Byte}
    (h : BytesAt mem a ((name ++ [0]) ++ after)) : ObjectFile.strcmp mem a name := by
  induction name generalizing a with
  | nil => exact decide_eq_true (X86.bytesAt_cons.mp h).1
  | cons c name ih =>
    obtain ⟨hc, hrest⟩ := X86.bytesAt_cons.mp h
    exact (ObjectFile.strcmp_cons mem a c name).mpr ⟨hc, .inr (ih hrest)⟩

theorem strcmp_symbolName (hp : p.WellFormed) (hsized : Sized old p offset relas)
    (hapart : SegmentsApart (segments p offset relas place)) {e : SymbolEntry β} {k : Nat}
    (hk : p.entries[k]? = some e) (mem : Memory) :
    ObjectFile.strcmp (memoryRead old p offset relas place mem)
      (place 3 + BitVec.ofNat 64 (finalSym p offset k e).stName) (p.symbolName e.bndg) := by
  have hstrtab := strtab_memoryRead hp hsized hapart mem
  obtain ⟨front, after, htable, hname⟩ := strtab_eq p offset hk
  rw [htable] at hstrtab
  rw [hname]
  exact strcmp_bytesAt (X86.bytesAt_append.mp hstrtab).2

/-- The updates give a symbol the address that code is linked to. -/
theorem assign_finalSym (hp : p.WellFormed) (hsized : Sized old p offset relas)
    (hapart : SegmentsApart (segments p offset relas place)) {e : SymbolEntry β} {k : Nat}
    (hk : p.entries[k]? = some e) (updates : List Binding) (mem : Memory) :
    (ObjectFile.assign (memoryRead old p offset relas place mem)
      (place 3 + BitVec.ofNat 64 (finalSym p offset k e).stName) updates
      (symAddressed place (finalSym p offset k e))).stValue =
      linkAddress p offset place updates e.bndg := by
  have hstrcmp := strcmp_symbolName hp hsized hapart hk mem
  unfold linkAddress
  cases entryOf_of_mem hp offset (List.mem_of_getElem? hk) with
  | label b h =>
    have hundefined : b ∉ p.undefinedBindings := fun hu => ((notMem_of_wellFormed hp).1 hu).2 h
    have hstatic : b ∉ p.staticBindings := fun hs => (notMem_of_wellFormed hp).2 hs h
    rw [ObjectFile.assign_of_defined fun hm =>
      absurd (of_decide_eq_true hm) (by show ¬ (2 = 0 ∨ 2 = 0xFFF2); omega),
      if_neg hundefined, if_neg hstatic]
    show place 2 + symbolValue p offset b = _
    unfold symbolValue
    rw [if_neg hundefined]
  | static b h =>
    have hundefined : b ∉ p.undefinedBindings := fun hu => ((notMem_of_wellFormed hp).1 hu).1 h
    rw [ObjectFile.assign_of_defined fun hm =>
      absurd (of_decide_eq_true hm) (by show ¬ (5 = 0 ∨ 5 = 0xFFF2); omega),
      if_neg hundefined, if_pos h]
    show place 5 + symbolValue p offset b = _
    unfold symbolValue
    rw [if_neg hundefined]
  | undefined b h =>
    have hvisible : (symAddressed place (finalSym p offset k ⟨b,
        elf64StInfo (p.scope b).stBind STT_NOTYPE, 0, 0, 0⟩)).isVisible := by
      apply decide_eq_true
      left
      show elf64StInfo (p.scope b).stBind STT_NOTYPE >>> 4 = 1
      rw [(hp.undefined b h).1]
      decide
    rw [if_pos h]
    exact ObjectFile.assign_of_undefined (decide_eq_true (.inl rfl)) hvisible hstrcmp updates

theorem sym_assign_objectLoaded (hp : p.WellFormed) (place : Nat → Word) (mem : Memory)
    (updates : List Binding) {e : SymbolEntry β} {k : Nat} (hk : p.entries[k]? = some e) :
    ((objectLoaded p offset relas place).assign mem updates).sym 4 (k + 1) =
      some (ObjectFile.assign mem (place 3 + BitVec.ofNat 64 (finalSym p offset k e).stName) updates
        (symAddressed place (finalSym p offset k e))) := by
  have hsym : ((finalSyms p offset).map (symAddressed place))[k + 1]? =
      some (symAddressed place (finalSym p offset k e)) := by
    rw [List.getElem?_map, getElem?_finalSyms hp offset hk]
    rfl
  generalize hsyms : (finalSyms p offset).map (symAddressed place) = syms at hsym
  have hlength : (syms.take 1).length = 1 := by
    obtain ⟨hlt, -⟩ := List.getElem?_eq_some_iff.mp hsym
    rw [List.length_take]
    omega
  have htable : ((objectLoaded p offset relas place).assign mem updates).sym 4 (k + 1) =
      (syms.take 1 ++ (syms.drop 1).map fun sym => ObjectFile.assign mem
        (place 3 + BitVec.ofNat 64 sym.stName) updates sym)[k + 1]? := by
    rw [← hsyms]
    rfl
  rw [htable, List.getElem?_append_right (by omega), hlength, List.getElem?_map,
    List.getElem?_drop, Nat.add_sub_cancel, Nat.add_comm, hsym]
  rfl

/-! ## The code -/

/-- With the updates for its symbols, the relocations of the loaded object link its code. -/
theorem doRelocations_objectLoaded (hp : p.WellFormed) (hsized : Sized old p offset relas)
    (hapart : SegmentsApart (segments p offset relas place))
    (hrelas : (codeRelas 0 p.generatedExpressions).mapM (symbolTables p offset).elfRela =
      some relas) (updates : List Binding) (mem : Memory) {symbol : β → Word}
    (hsymbol : ∀ b ∈ p.symbolBndgs, symbol b = linkAddress p offset place updates b) :
    ∃ mem', doRelocations ((objectLoaded p offset relas place).assign
        (memoryRead old p offset relas place mem) updates)
        (memoryRead old p offset relas place mem) = some mem' ∧
      BytesAt mem' (place 2) (linkedCode symbol (place 2) 0 p.generatedExpressions) := by
  have hsizes := lt_of_fits hp hsized
  have hsame := ObjectFile.sameTables_assign (objectLoaded p offset relas place)
    (memoryRead old p offset relas place mem) updates
  have hcode := relocate_code symbol (place 2) hp.encodable []
  rw [List.length_nil, List.nil_append, List.nil_append] at hcode
  rw [ObjectFile.doRelocations_entries, hsame.entries_eq, entries_objectLoaded, List.foldlM_map,
    ← hcode]
  apply doRelocations_code (ObjectFile.forall₂_of_mapM hrelas) (context_lt hp hsized)
  · intro rela _ i hi
    obtain ⟨k, e, rfl, hk, hbndg⟩ := (entered_symbolTables p offset).context _ i hi
    refine ⟨_, sym_assign_objectLoaded hp place _ updates hk, ?_⟩
    have hmem : e.bndg ∈ p.symbolBndgs := by
      rw [← bndg_entries]
      exact List.mem_map_of_mem (List.mem_of_getElem? hk)
    rw [assign_finalSym hp hsized hapart hk, ← hbndg, hsymbol _ hmem]
  · intro rela hrela
    have hbound := le_of_mem_codeRelas hrela
    omega
  · intro i hi
    rw [hsame.owns_eq]
    apply owns_objectLoaded hp hsized
    rw [X86.toNat_add_sub _ (by omega)]
    exact hi
  · omega
  · exact text_memoryRead hp hsized hapart mem

end L2.Bootstrap
