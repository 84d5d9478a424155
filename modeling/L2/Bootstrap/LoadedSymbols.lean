import L2.Bootstrap.FrameLayoutCorrect
import L2.Bootstrap.LoadProgram

/-!
# The symbols of a loaded program

What `immutable_bindings` and `mutable_bindings` list of a program that has been loaded: the
global bindings that it defines, with the addresses that they have been given, and the names
that it has left undefined.
-/

namespace L2.Bootstrap

open X86 (Word Byte Memory BytesAt)
open ObjectFile (Sym Binding cString nameOf SHN_UNDEF)

variable {β : Type}

/-! ## Names in memory -/

/-- A string in memory is read up to its end. -/
theorem cString_bytesAt {mem : Memory} {a : Word} {name after : List Byte} {n : Nat}
    (h : BytesAt mem a ((name ++ [0]) ++ after)) (hname : 0 ∉ name) (hn : name.length < n) :
    cString mem n a = name := by
  induction name generalizing a n with
  | nil =>
    cases n with
    | zero => omega
    | succ n => exact if_pos (X86.bytesAt_cons.mp h).1
  | cons c name ih =>
    cases n with
    | zero => omega
    | succ n =>
      obtain ⟨hc, hrest⟩ := X86.bytesAt_cons.mp h
      rw [List.mem_cons, not_or] at hname
      rw [List.length_cons] at hn
      have htail := ih (n := n) hrest hname.2 (by omega)
      unfold cString
      rw [hc, if_neg (Ne.symm hname.1), htail]

/-! ## The listed bindings -/

section

variable {obj : ObjectFile.Object} {mem : Memory} {shdr : ObjectFile.Shdr}

/-- The symbol that has been made for an entry, as `bindings` looks at it. -/
structure Listed (obj : ObjectFile.Object) (mem : Memory) (shdr : ObjectFile.Shdr)
    (isUndefined : β → Prop)
    (isGlobal : β → Prop) (binding : β → Binding) (b : β) (sym : Sym) : Prop where
  mutable : sym.isMutable ↔ isUndefined b
  visible : sym.isVisible ↔ isGlobal b
  name : ∃ a, nameOf obj shdr sym = some a ∧ cString mem (2 ^ 64) a = (binding b).name
  value : sym.stValue = (binding b).address

/-- The inner loop of `bindings` lists the bindings whose symbols have the flag and are
visible. -/
theorem foldlM_bindings {isUndefined isGlobal : β → Prop} [DecidablePred isUndefined]
    [DecidablePred isGlobal] {binding : β → Binding} {bndgs : List β} {syms : List Sym}
    (h : List.Forall₂ (Listed obj mem shdr isUndefined isGlobal binding) bndgs syms)
    (flag : Bool) (found : List Binding) :
    syms.foldlM (fun found sym =>
        if sym.isMutable = flag ∧ sym.isVisible then do
          let name ← nameOf obj shdr sym
          some (⟨cString mem (2 ^ 64) name, sym.stValue⟩ :: found)
        else some found) found =
      some (((bndgs.filter fun b => decide (isUndefined b) = flag ∧ isGlobal b).map
        binding).reverse ++ found) := by
  induction h generalizing found with
  | nil => rfl
  | @cons b sym bndgs syms hsym _ ih =>
    obtain ⟨a, ha, hname⟩ := hsym.name
    have hcondition : (sym.isMutable = flag ∧ sym.isVisible = true) ↔
        (decide (isUndefined b) = flag ∧ isGlobal b) := by
      have hmutable : sym.isMutable = decide (isUndefined b) := by
        rw [Bool.eq_iff_iff, hsym.mutable, decide_eq_true_eq]
      rw [hmutable, hsym.visible]
    rw [List.foldlM_cons]
    by_cases hlisted : decide (isUndefined b) = flag ∧ isGlobal b
    · rw [if_pos (hcondition.mpr hlisted), ha,
        List.filter_cons_of_pos (by rw [decide_eq_true_eq]; exact hlisted)]
      show Option.bind (some (⟨cString mem (2 ^ 64) a, sym.stValue⟩ :: found)) _ = _
      rw [Option.bind_some, ih, hname, hsym.value, List.map_cons, List.reverse_cons,
        List.append_assoc]
      rfl
    · rw [if_neg (mt hcondition.mp hlisted),
        List.filter_cons_of_neg (by rw [decide_eq_true_eq]; exact hlisted)]
      exact ih found

end

variable [DecidableEq β] {p : Assembly β} {old : Uninitialized} {offset : β → Word}
  {relas : List ObjectFile.Rela} {place : Nat → Word} {mem : Memory}

/-- What is listed for a binding. -/
def exported (p : Assembly β) (address : β → Word) (b : β) : Binding :=
  ⟨p.symbolName b, if b ∈ p.undefinedBindings then 0 else address b⟩

theorem stBind_elf64StInfo (scope : BindingAugScope) :
    elf64StInfo scope.stBind STT_NOTYPE >>> 4 = scope.stBind := by
  cases scope <;> decide

theorem listed_finalSym (hp : p.WellFormed) (hsized : Sized old p offset relas)
    (hapart : SegmentsApart (segments p offset relas place))
    (hstrtab : BytesAt mem (place 3) (symbolTables p offset).strtab) {e : SymbolEntry β} {k : Nat}
    (hk : p.entries[k]? = some e) :
    Listed (objectLoaded p offset relas place) mem (symtabShdr p offset)
      (· ∈ p.undefinedBindings) (fun b => p.scope b = .globalScope)
      (exported p (loadedAddress p offset place)) e.bndg
      (symAddressed place (finalSym p offset k e)) := by
  have hsizes := lt_of_fits hp hsized
  have hlength := length_strtab hp offset
  have hentry := entryOf_of_mem hp offset (List.mem_of_getElem? hk)
  refine ⟨?_, ?_, ⟨_, rfl, ?_⟩, ?_⟩
  · show decide (e.stShndx = 0 ∨ e.stShndx = 0xFFF2) = true ↔ _
    rw [decide_eq_true_eq]
    cases hentry with
    | label b h =>
      refine iff_of_false (by show ¬ (2 = 0 ∨ 2 = 0xFFF2); omega) fun hu => ?_
      exact ((notMem_of_wellFormed hp).1 hu).2 h
    | static b h =>
      refine iff_of_false (by show ¬ (5 = 0 ∨ 5 = 0xFFF2); omega) fun hu => ?_
      exact ((notMem_of_wellFormed hp).1 hu).1 h
    | undefined b h => exact iff_of_true (.inl rfl) h
  · have hinfo : e.stInfo = elf64StInfo (p.scope e.bndg).stBind STT_NOTYPE := by
      cases hentry <;> rfl
    show decide (e.stInfo >>> 4 = 1 ∨ e.stInfo >>> 4 = 2) = true ↔ _
    rw [hinfo, stBind_elf64StInfo, decide_eq_true_eq]
    cases p.scope e.bndg <;> decide
  · obtain ⟨front, after, htable, hname⟩ := strtab_eq p offset hk
    rw [htable] at hstrtab hlength
    simp only [List.length_append] at hlength
    show cString mem (2 ^ 64) (place 3 + BitVec.ofNat 64 (finalSym p offset k e).stName) = _
    rw [hname]
    apply cString_bytesAt (X86.bytesAt_append.mp hstrtab).2 (zero_notMem_symbolName p e.bndg)
    omega
  · have hvalue := assign_finalSym hp hsized hapart hk [] mem
    have hmem : e.bndg ∈ p.symbolBndgs := by
      rw [← bndg_entries]
      exact List.mem_map_of_mem (List.mem_of_getElem? hk)
    rw [← linkAddress_eq hp offset place [] e.bndg hmem] at hvalue
    exact hvalue

theorem forall₂_listed (hp : p.WellFormed) (hsized : Sized old p offset relas)
    (hapart : SegmentsApart (segments p offset relas place))
    (hstrtab : BytesAt mem (place 3) (symbolTables p offset).strtab) :
    List.Forall₂ (Listed (objectLoaded p offset relas place) mem (symtabShdr p offset)
      (· ∈ p.undefinedBindings) (fun b => p.scope b = .globalScope)
      (exported p (loadedAddress p offset place))) p.symbolBndgs
      (((finalSyms p offset).map (symAddressed place)).drop 1) := by
  rw [← List.map_drop, List.forall₂_map_right_iff]
  exact forall₂_finalSyms hp offset fun k e hk => listed_finalSym hp hsized hapart hstrtab hk

omit [DecidableEq β] in
/-- A loop that does nothing but for one element. -/
theorem foldlM_single {σ α : Type} {f : σ → α → Option σ} {before after : List α} {a : α}
    (h : ∀ x ∈ before ++ after, ∀ s, f s x = some s) (s : σ) :
    (before ++ a :: after).foldlM f s = f s a := by
  have hid : ∀ l : List α, (∀ x ∈ l, ∀ s, f s x = some s) → ∀ s, l.foldlM f s = some s := by
    intro l hl
    induction l with
    | nil => exact fun _ => rfl
    | cons x l ih =>
      obtain ⟨hx, hl⟩ := List.forall_mem_cons.mp hl
      intro s
      rw [List.foldlM_cons, hx, Option.bind_eq_bind, Option.bind_some, ih hl]
  have hbefore := hid before fun x hx => h x (List.mem_append_left _ hx)
  have hafter := hid after fun x hx => h x (List.mem_append_right _ hx)
  rw [List.foldlM_append, hbefore, Option.bind_eq_bind, Option.bind_some, List.foldlM_cons]
  cases f s a with
  | none => rfl
  | some s' => exact hafter s'

/-- The bindings that an object lists are those of its symbol table. -/
theorem bindings_objectLoaded (hp : p.WellFormed) (hsized : Sized old p offset relas)
    (hapart : SegmentsApart (segments p offset relas place))
    (hstrtab : BytesAt mem (place 3) (symbolTables p offset).strtab) (flag : Bool) :
    ObjectFile.bindings flag (objectLoaded p offset relas place) mem =
      some ((p.symbolBndgs.filter fun b => decide (b ∈ p.undefinedBindings) = flag ∧
        p.scope b = .globalScope).map (exported p (loadedAddress p offset place))).reverse := by
  have hloop := foldlM_bindings (forall₂_listed hp hsized hapart hstrtab) flag []
  rw [List.append_nil] at hloop
  rw [← hloop]
  have hothers : ∀ sec ∈ [plainSection undefShdr (place 0), plainSection shstrtabShdr (place 1),
      plainSection (textShdr p) (place 2), plainSection (strtabShdr p) (place 3)] ++
      [plainSection (bssShdr p offset) (place 5),
        { plainSection (relaShdr p relas) (place 6) with
          relas := relas.map fun rela => { rela with rOffset := place 2 + rela.rOffset }
          addends := relas.map ObjectFile.Rela.rAddend }], sec.shType ≠ ObjectFile.SHT_SYMTAB := by
    intro sec hsec
    simp only [List.cons_append, List.nil_append, List.mem_cons, List.not_mem_nil,
      or_false] at hsec
    rcases hsec with rfl | rfl | rfl | rfl | rfl | rfl <;> exact Nat.ne_of_beq_eq_false rfl
  exact foldlM_single (fun sec hsec found => if_neg (hothers sec hsec)) []

omit [DecidableEq β] in
theorem scope_of_mem {b : β} : (b ∈ p.localStatics ∨ b ∈ p.localLabels → p.scope b ≠ .globalScope) ∧
    (b ∈ p.globalStatics ∨ b ∈ p.globalUndefined ∨ b ∈ p.globalLabels →
      p.scope b = .globalScope) := by
  constructor
  · intro h hglobal
    have hlocal : p.scope b = .localScope := by
      rcases h with h | h
      · exact of_decide_eq_true (List.mem_filter.mp h).2
      · exact of_decide_eq_true (List.mem_filter.mp h).2
    rw [hlocal] at hglobal
    cases hglobal
  · rintro (h | h | h)
    · exact (of_decide_eq_true (List.mem_filter.mp h).2).1
    · exact (of_decide_eq_true (List.mem_filter.mp h).2).1
    · exact of_decide_eq_true (List.mem_filter.mp h).2

/-- The global bindings are defined in the program or left undefined. -/
theorem filter_symbolBndgs (hp : p.WellFormed) (flag : Bool) : (p.symbolBndgs.filter fun b =>
    decide (b ∈ p.undefinedBindings) = flag ∧ p.scope b = .globalScope) =
      if flag then p.undefinedBindings else p.globalStatics ++ p.globalLabels := by
  have hlocal : ∀ l : List β, (∀ b ∈ l, b ∈ p.localStatics ∨ b ∈ p.localLabels) →
      (l.filter fun b => decide (b ∈ p.undefinedBindings) = flag ∧ p.scope b = .globalScope) =
        [] := by
    intro l hl
    apply List.filter_eq_nil_iff.mpr
    intro b hb h
    exact scope_of_mem.1 (hl b hb) (of_decide_eq_true h).2
  have hall : ∀ l : List β, (∀ b ∈ l, decide (b ∈ p.undefinedBindings) = flag) →
      (∀ b ∈ l, p.scope b = .globalScope) →
      (l.filter fun b => decide (b ∈ p.undefinedBindings) = flag ∧ p.scope b = .globalScope) =
        l := by
    intro l hl hscope
    apply List.filter_eq_self.mpr
    intro b hb
    exact decide_eq_true ⟨hl b hb, hscope b hb⟩
  have hnone : ∀ l : List β, (∀ b ∈ l, decide (b ∈ p.undefinedBindings) = !flag) →
      (l.filter fun b => decide (b ∈ p.undefinedBindings) = flag ∧ p.scope b = .globalScope) =
        [] := by
    intro l hl
    apply List.filter_eq_nil_iff.mpr
    intro b hb h
    have hflag := (of_decide_eq_true h).1
    rw [hl b hb] at hflag
    cases flag <;> cases hflag
  have hstatics : ∀ b ∈ p.globalStatics, decide (b ∈ p.undefinedBindings) = false := by
    intro b hb
    apply decide_eq_false
    intro hu
    exact ((notMem_of_wellFormed hp).1 hu).1 (List.mem_of_mem_filter hb)
  have hlabels : ∀ b ∈ p.globalLabels, decide (b ∈ p.undefinedBindings) = false := by
    intro b hb
    apply decide_eq_false
    intro hu
    exact ((notMem_of_wellFormed hp).1 hu).2 (List.mem_of_mem_filter hb)
  have hundefined : ∀ b ∈ p.globalUndefined, decide (b ∈ p.undefinedBindings) = true :=
    fun b hb => decide_eq_true (List.mem_of_mem_filter hb)
  unfold Assembly.symbolBndgs
  simp only [List.filter_append]
  rw [hlocal p.localStatics fun _ => .inl, hlocal p.localLabels fun _ => .inr]
  cases flag with
  | true =>
    rw [hnone _ hstatics, hnone _ hlabels,
      hall _ hundefined fun b hb => scope_of_mem.2 (.inr (.inl hb)), globalUndefined_eq hp,
      if_pos rfl]
    simp only [List.nil_append, List.append_nil]
  | false =>
    rw [hall _ hstatics fun b hb => scope_of_mem.2 (.inl hb),
      hall _ hlabels fun b hb => scope_of_mem.2 (.inr (.inr hb)), hnone _ hundefined,
      if_neg Bool.false_ne_true]
    simp only [List.nil_append, List.append_nil]

theorem immutableBindings_objectLoaded (hp : p.WellFormed) (hsized : Sized old p offset relas)
    (hapart : SegmentsApart (segments p offset relas place))
    (hstrtab : BytesAt mem (place 3) (symbolTables p offset).strtab) :
    ObjectFile.immutableBindings (objectLoaded p offset relas place) mem =
      some ((p.globalStatics ++ p.globalLabels).map
        fun b => ⟨p.symbolName b, loadedAddress p offset place b⟩).reverse := by
  unfold ObjectFile.immutableBindings
  rw [bindings_objectLoaded hp hsized hapart hstrtab, filter_symbolBndgs hp,
    if_neg Bool.false_ne_true]
  congr 2
  apply List.map_congr_left
  intro b hb
  have hundefined : b ∉ p.undefinedBindings := by
    intro hu
    obtain ⟨hstatic, hlabel⟩ := (notMem_of_wellFormed hp).1 hu
    rcases List.mem_append.mp hb with h | h
    · exact hstatic (List.mem_of_mem_filter h)
    · exact hlabel (List.mem_of_mem_filter h)
  unfold exported
  rw [if_neg hundefined]

theorem mutableBindings_objectLoaded (hp : p.WellFormed) (hsized : Sized old p offset relas)
    (hapart : SegmentsApart (segments p offset relas place))
    (hstrtab : BytesAt mem (place 3) (symbolTables p offset).strtab) :
    ObjectFile.mutableBindings (objectLoaded p offset relas place) mem =
      some (p.undefinedBindings.map fun b => ⟨p.symbolName b, 0⟩).reverse := by
  unfold ObjectFile.mutableBindings
  rw [bindings_objectLoaded hp hsized hapart hstrtab, filter_symbolBndgs hp, if_pos rfl]
  congr 2
  apply List.map_congr_left
  intro b hb
  unfold exported
  rw [if_pos hb]

/-! ## The program -/

/-- Every static binding has its own words of the `.bss` section. -/
theorem statics_apart (hp : p.WellFormed) (offset : β → Word)
    (hbss : staticExtent p p.staticBindings < 2 ^ 64) :
    (∀ b ∈ p.staticBindings, wordBytes ∣ ((assembled p offset).offset b).toNat ∧
      ((assembled p offset).offset b).toNat + p.size b ≤ (bssShdr p offset).shSize) ∧
    ∀ b ∈ p.staticBindings, ∀ b' ∈ p.staticBindings, b ≠ b' →
      ((assembled p offset).offset b).toNat + p.size b ≤ ((assembled p offset).offset b').toNat ∨
      ((assembled p offset).offset b').toNat + p.size b' ≤
        ((assembled p offset).offset b).toNat := by
  have hptr := bssPtr_le hp offset
  have hconsecutive := consecutive_statics hp offset (by omega)
  have hextent : Ranges.extent (fun bndg => padSize (p.size bndg) wordBytes)
      (p.localStatics ++ p.globalStatics) = staticExtent p p.staticBindings := by
    rw [Ranges.extent_append, ← hptr, bssPtr_symbolTables]
    rfl
  have hmem : ∀ b ∈ p.staticBindings, b ∈ p.localStatics ++ p.globalStatics := by
    intro b hb
    rw [globalStatics_eq hp]
    unfold Assembly.localStatics
    rw [List.mem_append, List.mem_filter, List.mem_filter]
    cases hscope : p.scope b with
    | localScope => exact .inl ⟨hb, rfl⟩
    | globalScope => exact .inr ⟨hb, rfl⟩
  have hoffset : ∀ b ∈ p.staticBindings,
      (assembled p offset).offset b = (symbolTables p offset).offset b :=
    fun b hb => assembled_of_notMem offset ((notMem_of_wellFormed hp).2 hb)
  refine ⟨fun b hb => ?_, fun b hb b' hb' hne => ?_⟩
  · have hbounds := hconsecutive.bounds (hmem b hb)
    have hdvd := hconsecutive.dvd_offset (d := wordBytes) (Int.dvd_zero _)
      (fun a _ => Int.natCast_dvd_natCast.mpr (dvd_padSize _)) (hmem b hb)
    have hpad := le_padSize (p.size b) wordBytes
    rw [hextent] at hbounds
    rw [hoffset b hb, show (bssShdr p offset).shSize = _ from hptr]
    exact ⟨Int.natCast_dvd_natCast.mp hdvd, by omega⟩
  · have hdisjoint := hconsecutive.disjoint (hmem b hb) (hmem b' hb') hne
    have hpad := le_padSize (p.size b) wordBytes
    have hpad' := le_padSize (p.size b') wordBytes
    rw [hoffset b hb, hoffset b' hb']
    omega

theorem loadedAddress_label (hp : p.WellFormed) (place : Nat → Word)
    {before after : List (Instruction β)} {b : β}
    (hcode : p.generatedExpressions = before ++ .label b :: after) :
    loadedAddress p offset place b = place 2 + BitVec.ofNat 64 (codeBytes before).length := by
  have hlabel : b ∈ p.labels := by
    unfold Assembly.labels
    rw [hcode]
    simp
  unfold loadedAddress
  rw [if_pos hlabel, (assembled_label hp offset hcode).1, add_comm]

theorem loadedAddress_static (hp : p.WellFormed) (offset : β → Word) (place : Nat → Word) {b : β}
    (hb : b ∈ p.staticBindings) : loadedAddress p offset place b =
      place 5 + BitVec.ofNat 64 ((assembled p offset).offset b).toNat := by
  unfold loadedAddress
  rw [if_neg ((notMem_of_wellFormed hp).2 hb), if_pos hb, BitVec.ofNat_toNat, BitVec.setWidth_eq,
    add_comm]

/-- The bindings of a loaded program have the addresses of what they name: labels those of the
code that follows them, static bindings those of words of their own in the `.bss` section.  The
object lists exactly the global bindings of the program, with these addresses, and the undefined
ones. -/
theorem loadProgram_addresses (hp : p.WellFormed) {written : Written β}
    (hwritten : writeElf old p offset = some written) (hsize : maxElfSize p < 2 ^ 31)
    (hbss : staticExtent p p.staticBindings < 2 ^ 64)
    (hapart : SegmentsApart (placedSections written.bin place)) (mem : Memory) :
    ∃ obj mem₁ address, loadProgram old p offset place mem = some (obj, mem₁, address) ∧
      (∀ before after b, p.generatedExpressions = before ++ .label b :: after →
        address b = place 2 + BitVec.ofNat 64 (codeBytes before).length) ∧
      (∃ bss, ∃ start : β → Nat, (placedSections written.bin place)[5]? = some (place 5, bss) ∧
        (∀ b ∈ p.staticBindings, address b = place 5 + BitVec.ofNat 64 (start b) ∧
          wordBytes ∣ start b ∧ start b + p.size b ≤ bss.shSize) ∧
        ∀ b ∈ p.staticBindings, ∀ b' ∈ p.staticBindings, b ≠ b' →
          start b + p.size b ≤ start b' ∨ start b' + p.size b' ≤ start b) ∧
      ObjectFile.immutableBindings obj mem₁ = some ((p.globalStatics ++ p.globalLabels).map
        fun b => ⟨p.symbolName b, address b⟩).reverse ∧
      ObjectFile.mutableBindings obj mem₁ =
        some (p.undefinedBindings.map fun b => ⟨p.symbolName b, 0⟩).reverse := by
  obtain ⟨relas, hrelas, hfile, -, hsized⟩ := written_sized hp hwritten hsize hbss
  rw [hfile, placedSections_writtenFile hsized] at hapart ⊢
  obtain ⟨mem₁, -, hstrtab, hload⟩ := loadProgram_eq hp hsize hsized hapart hrelas mem
  obtain ⟨hwords, hdisjoint⟩ := statics_apart hp offset hbss
  exact ⟨_, mem₁, _, hload, fun before after b hcode => loadedAddress_label hp place hcode,
    ⟨bssShdr p offset, fun b => ((assembled p offset).offset b).toNat, rfl,
      fun b hb => ⟨loadedAddress_static hp offset place hb, hwords b hb⟩, hdisjoint⟩,
    immutableBindings_objectLoaded hp hsized hapart hstrtab,
    mutableBindings_objectLoaded hp hsized hapart hstrtab⟩

theorem loadProgram_addresses_calling : ∃ obj mem₁ address,
    loadProgram ⟨fun _ => 0, fun _ => 0, fun _ => 0, fun _ => 0⟩ callingProgram (fun _ => 0)
      spacedPlace (fun _ => 0) = some (obj, mem₁, address) ∧
    address 0 = spacedPlace 2 + 0 ∧
    ObjectFile.immutableBindings obj mem₁ = some [⟨[0x66], address 0⟩, ⟨[], address 3⟩] ∧
    ObjectFile.mutableBindings obj mem₁ = some [⟨[0x67], 0⟩] := by
  obtain ⟨written, hwritten, hapart⟩ := writeElf_callingProgram
  obtain ⟨obj, mem₁, address, hload, hlabels, -, himmutable, hmutable⟩ := loadProgram_addresses
    wellFormed_callingProgram hwritten maxElfSize_callingProgram (by decide) hapart (fun _ => 0)
  exact ⟨obj, mem₁, address, hload, hlabels [] _ 0 rfl, himmutable, hmutable⟩

end L2.Bootstrap
