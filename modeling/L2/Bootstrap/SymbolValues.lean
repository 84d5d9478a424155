import L2.Bootstrap.SymbolTable

/-!
# What the symbols of a written file stand for

Each binding of a program has one symbol.  That of a label or of a static binding has the
offset that the binding is left with: the position of the code after the label, or the start of
the binding's own range of the `.bss` section.
-/

namespace L2.Bootstrap

open X86 (Word Byte)
open ObjectFile (Sym SHN_UNDEF STB_GLOBAL SameSym)
open Ranges (extent Consecutive)

variable {β : Type}

/-- What the passes before `write_elf` leave: every binding is there once, and the lists have
what they are for. -/
structure Assembly.WellFormed (p : Assembly β) : Prop where
  nodup : (p.undefinedBindings ++ p.staticBindings ++ p.labels).Nodup
  undefined : ∀ bndg ∈ p.undefinedBindings,
    p.scope bndg = .globalScope ∧ p.state bndg = .undefinedState
  statics : ∀ bndg ∈ p.staticBindings,
    p.type bndg = .absoluteStorage ∧ p.state bndg = .definedState
  encodable : ∀ i ∈ p.generatedExpressions, i.Encodable

variable {p : Assembly β}

/-! ## The symbols that there are -/

theorem globalUndefined_eq (hp : p.WellFormed) : p.globalUndefined = p.undefinedBindings := by
  apply List.filter_eq_self.mpr
  intro bndg hbndg
  exact decide_eq_true (hp.undefined bndg hbndg)

theorem extent_scopes (p : Assembly β) (size : β → Nat) (l : List β) :
    extent size (l.filter fun bndg => p.scope bndg = .localScope) +
      extent size (l.filter fun bndg => p.scope bndg = .globalScope) = extent size l := by
  induction l with
  | nil => rfl
  | cons bndg l ih =>
    rw [Ranges.extent_cons]
    cases h : p.scope bndg with
    | localScope =>
      rw [List.filter_cons_of_pos (by simp [h]), List.filter_cons_of_neg (by simp [h]),
        Ranges.extent_cons]
      omega
    | globalScope =>
      rw [List.filter_cons_of_neg (by simp [h]), List.filter_cons_of_pos (by simp [h]),
        Ranges.extent_cons]
      omega

theorem globalStatics_eq (hp : p.WellFormed) :
    p.globalStatics = p.staticBindings.filter fun bndg => p.scope bndg = .globalScope := by
  apply List.filter_congr
  intro bndg hbndg
  rw [decide_eq_decide]
  exact and_iff_left (hp.statics bndg hbndg).2

/-- All bindings are given symbols. -/
theorem extent_symbolBndgs (hp : p.WellFormed) (size : β → Nat) :
    extent size p.symbolBndgs =
      extent size p.undefinedBindings + extent size p.staticBindings + extent size p.labels := by
  have hstatics := extent_scopes p size p.staticBindings
  have hlabels := extent_scopes p size p.labels
  unfold Assembly.symbolBndgs
  rw [globalUndefined_eq hp, globalStatics_eq hp]
  simp only [Ranges.extent_append]
  unfold Assembly.localStatics Assembly.localLabels Assembly.globalLabels
  omega

variable [DecidableEq β]

theorem length_syms (hp : p.WellFormed) (offset : β → Word) :
    (finalSyms p offset).length = measureSymtab p := by
  have h := extent_symbolBndgs hp fun _ => 1
  simp only [Ranges.extent_one] at h
  unfold finalSyms
  rw [length_setValues, (entered_symbolTables p offset).length,
    ← List.length_map SymbolEntry.bndg, bndg_entries]
  unfold measureSymtab
  omega

theorem length_strtab (hp : p.WellFormed) (offset : β → Word) :
    (symbolTables p offset).strtab.length = measureStrtab p := by
  have h := extent_symbolBndgs hp fun bndg => nameSize (p.name bndg)
  rw [(entered_symbolTables p offset).length_strtab, length_nameTable, bndg_entries]
  unfold measureStrtab
  unfold extent at h ⊢
  omega


theorem extent_count (b : β) (l : List β) :
    extent (fun x => if x = b then 1 else 0) l = l.count b := by
  induction l with
  | nil => rfl
  | cons x l ih =>
    rw [Ranges.extent_cons, ih, List.count_cons, Nat.add_comm]
    simp only [beq_iff_eq]

/-- Every binding of the program gets one symbol. -/
theorem symbolBndgs_perm (hp : p.WellFormed) :
    p.symbolBndgs.Perm (p.undefinedBindings ++ p.staticBindings ++ p.labels) := by
  apply List.perm_iff_count.mpr
  intro b
  rw [← extent_count, ← extent_count, extent_symbolBndgs hp, Ranges.extent_append,
    Ranges.extent_append]

theorem nodup_symbolBndgs (hp : p.WellFormed) : p.symbolBndgs.Nodup :=
  (symbolBndgs_perm hp).nodup_iff.mpr hp.nodup

theorem mem_symbolBndgs (hp : p.WellFormed) {b : β} : b ∈ p.symbolBndgs ↔
    b ∈ p.undefinedBindings ∨ b ∈ p.staticBindings ∨ b ∈ p.labels := by
  rw [(symbolBndgs_perm hp).mem_iff, List.mem_append, List.mem_append, or_assoc]

/-- The context of a binding is the index of its symbol. -/
theorem context_entry (hp : p.WellFormed) (offset : β → Word) {e : SymbolEntry β} {k : Nat}
    (hk : p.entries[k]? = some e) : (symbolTables p offset).context e.bndg = some (k + 1) := by
  have hentered := entered_symbolTables p offset
  obtain ⟨i, hi⟩ := hentered.entered e (List.mem_of_getElem? hk)
  obtain ⟨k', e', rfl, hk', hbndg⟩ := hentered.context _ i hi
  have hnodup := nodup_symbolBndgs hp
  rw [← bndg_entries] at hnodup
  have hbndgs : (p.entries.map SymbolEntry.bndg)[k']? = some e.bndg := by
    rw [List.getElem?_map, hk', Option.map_some, hbndg]
  have hbndgs' : (p.entries.map SymbolEntry.bndg)[k]? = some e.bndg := by
    rw [List.getElem?_map, hk, Option.map_some]
  obtain ⟨hlt, -⟩ := List.getElem?_eq_some_iff.mp hbndgs
  have heq : k' = k := (List.getElem?_inj hlt hnodup).mp (hbndgs.trans hbndgs'.symm)
  rw [hi, heq]

/-! ## The offsets of static bindings -/

theorem offset_addStatics_of_notMem (bind : Byte) {b : β} {bndgs : List β} (h : b ∉ bndgs)
    (t : SymbolTables β) : (bndgs.foldl (addStatic p bind) t).offset b = t.offset b := by
  induction bndgs generalizing t with
  | nil => rfl
  | cons bndg bndgs ih =>
    rw [List.mem_cons, not_or] at h
    rw [List.foldl_cons, ih h.2]
    exact Function.update_of_ne h.1 _ _

/-- The symbols of static bindings have the offsets that these are given. -/
theorem staticEntries_eq (bind : Byte) {bndgs : List β} (h : bndgs.Nodup) (t : SymbolTables β) :
    staticEntries p bind t.bssPtr bndgs = bndgs.map fun bndg =>
      ⟨bndg, elf64StInfo bind STT_NOTYPE, 5, (bndgs.foldl (addStatic p bind) t).offset bndg,
        BitVec.ofNat 64 (p.size bndg)⟩ := by
  induction bndgs generalizing t with
  | nil => rfl
  | cons bndg bndgs ih =>
    obtain ⟨hbndg, hbndgs⟩ := List.nodup_cons.mp h
    have hfirst : ((bndg :: bndgs).foldl (addStatic p bind) t).offset bndg =
        BitVec.ofNat 64 t.bssPtr := by
      rw [List.foldl_cons, offset_addStatics_of_notMem bind hbndg]
      exact Function.update_self _ _ _
    rw [List.map_cons, hfirst]
    exact congrArg (List.cons _) (ih hbndgs (addStatic p bind t bndg))

/-- The ranges of static bindings follow each other. -/
theorem consecutive_addStatics (bind : Byte) {bndgs : List β} (h : bndgs.Nodup)
    (t : SymbolTables β) (hlt : t.bssPtr + staticExtent p bndgs < 2 ^ 64) :
    Consecutive (fun bndg => padSize (p.size bndg) wordBytes)
      (fun bndg => ((bndgs.foldl (addStatic p bind) t).offset bndg).toNat) t.bssPtr bndgs := by
  induction bndgs generalizing t with
  | nil => exact True.intro
  | cons bndg bndgs ih =>
    obtain ⟨hbndg, hbndgs⟩ := List.nodup_cons.mp h
    unfold staticExtent at hlt
    rw [Ranges.extent_cons] at hlt
    have hfirst : ((bndg :: bndgs).foldl (addStatic p bind) t).offset bndg =
        BitVec.ofNat 64 t.bssPtr := by
      rw [List.foldl_cons, offset_addStatics_of_notMem bind hbndg]
      exact Function.update_self _ _ _
    have hnext : (addStatic p bind t bndg).bssPtr =
      t.bssPtr + padSize (p.size bndg) wordBytes := rfl
    refine ⟨?_, ?_⟩
    · show ((((bndg :: bndgs).foldl (addStatic p bind) t).offset bndg).toNat : Int) = _
      rw [hfirst, BitVec.toNat_ofNat, Nat.mod_eq_of_lt (by omega)]
    · have hrest := ih hbndgs (addStatic p bind t bndg) (by unfold staticExtent; omega)
      rw [hnext, Nat.cast_add] at hrest
      exact hrest

theorem nodup_statics (hp : p.WellFormed) : (p.localStatics ++ p.globalStatics).Nodup := by
  have hnodup := nodup_symbolBndgs hp
  unfold Assembly.symbolBndgs at hnodup
  have hfirst := (List.nodup_append.mp (List.nodup_append.mp hnodup).1).1
  apply List.Nodup.sublist _ hfirst
  rw [List.append_assoc]
  exact (List.Sublist.refl _).append (List.sublist_append_right _ _)

theorem offset_localSymbols (p : Assembly β) (offset : β → Word) :
    (localSymbols p offset).offset =
      (p.localStatics.foldl (addStatic p STB_LOCAL) (.start offset)).offset :=
  (foldl_addLabel_rest STB_LOCAL p.localLabels _).2

theorem offset_symbolTables (p : Assembly β) (offset : β → Word) :
    (symbolTables p offset).offset =
      (p.globalStatics.foldl (addStatic p STB_GLOBAL) (localSymbols p offset)).offset :=
  (foldl_addLabel_rest STB_GLOBAL p.globalLabels _).2.trans
    (foldl_addUndefined_rest p.globalUndefined _).2

/-- The loop over the global bindings leaves the offsets of the local ones. -/
theorem offset_localStatic (hp : p.WellFormed) (offset : β → Word) {b : β}
    (hb : b ∈ p.localStatics) : (symbolTables p offset).offset b =
      (p.localStatics.foldl (addStatic p STB_LOCAL) (.start offset)).offset b := by
  have hdisjoint := (List.nodup_append.mp (nodup_statics hp)).2.2
  rw [offset_symbolTables, offset_addStatics_of_notMem, offset_localSymbols]
  intro hglobal
  exact hdisjoint b hb b hglobal rfl

/-- Every static binding has its own range of the `.bss` section. -/
theorem consecutive_statics (hp : p.WellFormed) (offset : β → Word)
    (hlt : (symbolTables p offset).bssPtr < 2 ^ 64) :
    Consecutive (fun bndg => padSize (p.size bndg) wordBytes)
      (fun bndg => ((symbolTables p offset).offset bndg).toNat) 0
      (p.localStatics ++ p.globalStatics) := by
  have hnodup := List.nodup_append.mp (nodup_statics hp)
  rw [bssPtr_symbolTables] at hlt
  have hlocal := consecutive_addStatics STB_LOCAL hnodup.1 (.start offset)
    (by show 0 + staticExtent p p.localStatics < 2 ^ 64; omega)
  have hglobal := consecutive_addStatics STB_GLOBAL hnodup.2.1 (localSymbols p offset)
    (by rw [bssPtr_localSymbols]; exact hlt)
  rw [Ranges.consecutive_append]
  constructor
  · apply hlocal.congr fun _ _ => rfl
    intro b hb
    rw [offset_localStatic hp offset hb]
  · rw [bssPtr_localSymbols] at hglobal
    unfold staticExtent at hglobal
    rw [Int.zero_add]
    apply hglobal.congr fun _ _ => rfl
    intro b _
    rw [offset_symbolTables]

/-! ## Entries -/

/-- The binding of a symbol: what is local to the program is local to the file. -/
def BindingAugScope.stBind : BindingAugScope → Byte
  | .localScope => STB_LOCAL
  | .globalScope => STB_GLOBAL

/-- What is entered for a binding of a program. -/
inductive EntryOf (p : Assembly β) (offset : β → Word) : SymbolEntry β → Prop where
  | label (b : β) (h : b ∈ p.labels) :
    EntryOf p offset ⟨b, elf64StInfo (p.scope b).stBind STT_NOTYPE, 2, 0, 0⟩
  | static (b : β) (h : b ∈ p.staticBindings) :
    EntryOf p offset ⟨b, elf64StInfo (p.scope b).stBind STT_NOTYPE, 5, offset b,
      BitVec.ofNat 64 (p.size b)⟩
  | undefined (b : β) (h : b ∈ p.undefinedBindings) :
    EntryOf p offset ⟨b, elf64StInfo (p.scope b).stBind STT_NOTYPE, SHN_UNDEF, 0, 0⟩

omit [DecidableEq β] in
theorem entryOf_labels {offset : β → Word} (scope : BindingAugScope) {e : SymbolEntry β}
    (he : e ∈ labelEntries scope.stBind (p.labels.filter fun bndg => p.scope bndg = scope)) :
    EntryOf p offset e := by
  obtain ⟨b, hb, rfl⟩ := List.mem_map.mp he
  obtain ⟨hmem, hscope⟩ := List.mem_filter.mp hb
  rw [← of_decide_eq_true hscope]
  exact .label b hmem

omit [DecidableEq β] in
theorem entryOf_statics {offset : β → Word} (scope : BindingAugScope) {bndgs : List β}
    (h : ∀ b ∈ bndgs, b ∈ p.staticBindings ∧ p.scope b = scope) {e : SymbolEntry β}
    (he : e ∈ bndgs.map fun b => (⟨b, elf64StInfo scope.stBind STT_NOTYPE, 5, offset b,
      BitVec.ofNat 64 (p.size b)⟩ : SymbolEntry β)) : EntryOf p offset e := by
  obtain ⟨b, hb, rfl⟩ := List.mem_map.mp he
  obtain ⟨hmem, rfl⟩ := h b hb
  exact .static b hmem

theorem localStatics_entries (hp : p.WellFormed) (offset : β → Word) :
    staticEntries p STB_LOCAL 0 p.localStatics = p.localStatics.map fun b =>
      ⟨b, elf64StInfo STB_LOCAL STT_NOTYPE, 5, (symbolTables p offset).offset b,
        BitVec.ofNat 64 (p.size b)⟩ := by
  have hnodup := (List.nodup_append.mp (nodup_statics hp)).1
  have hentries := staticEntries_eq (p := p) STB_LOCAL hnodup (.start offset)
  apply hentries.trans
  apply List.map_congr_left
  intro b hb
  rw [offset_localStatic hp offset hb]

theorem globalStatics_entries (hp : p.WellFormed) (offset : β → Word) :
    staticEntries p STB_GLOBAL (staticExtent p p.localStatics) p.globalStatics =
      p.globalStatics.map fun b => ⟨b, elf64StInfo STB_GLOBAL STT_NOTYPE, 5,
        (symbolTables p offset).offset b, BitVec.ofNat 64 (p.size b)⟩ := by
  have hnodup := (List.nodup_append.mp (nodup_statics hp)).2.1
  rw [← bssPtr_localSymbols p offset, staticEntries_eq STB_GLOBAL hnodup, offset_symbolTables]

theorem entryOf_of_mem (hp : p.WellFormed) (offset : β → Word) {e : SymbolEntry β}
    (he : e ∈ p.entries) : EntryOf p (symbolTables p offset).offset e := by
  unfold Assembly.entries Assembly.localEntries at he
  rw [localStatics_entries hp offset, globalStatics_entries hp offset] at he
  simp only [List.mem_append] at he
  rcases he with (((he | he) | he) | he) | he
  · refine entryOf_statics .localScope (fun b hb => ?_) he
    obtain ⟨hmem, hscope⟩ := List.mem_filter.mp hb
    exact ⟨hmem, of_decide_eq_true hscope⟩
  · exact entryOf_labels .localScope he
  · refine entryOf_statics .globalScope (fun b hb => ?_) he
    obtain ⟨hmem, hscope⟩ := List.mem_filter.mp hb
    exact ⟨hmem, (of_decide_eq_true hscope).1⟩
  · obtain ⟨b, hb, rfl⟩ := List.mem_map.mp he
    obtain ⟨hmem, hscope⟩ := List.mem_filter.mp hb
    have hglobal : (p.scope b).stBind = STB_GLOBAL := by
      rw [(of_decide_eq_true hscope).1]
      rfl
    rw [← hglobal]
    exact .undefined b hmem
  · exact entryOf_labels .globalScope he

/-! ## Values -/

omit [DecidableEq β] in
theorem mem_of_labels {b : β} {instrs : List (Instruction β)} (h : b ∈ labels instrs) :
    .label b ∈ instrs := by
  obtain ⟨i, hi, hlabel⟩ := List.mem_filterMap.mp h
  cases i with
  | label bndg =>
    cases hlabel
    exact hi
  | _ => cases hlabel

/-- A label has the position of the code after it, and so has its symbol. -/
theorem assembled_label (hp : p.WellFormed) (offset : β → Word)
    {before after : List (Instruction β)} {b : β}
    (h : p.generatedExpressions = before ++ .label b :: after) :
    (assembled p offset).offset b = BitVec.ofNat 64 (codeBytes before).length ∧
      (assembled p offset).stValue b = BitVec.ofNat 64 (codeBytes before).length := by
  have hnodup : (labels p.generatedExpressions).Nodup :=
    (List.nodup_append.mp hp.nodup).2.1
  unfold assembled
  rw [h] at hnodup ⊢
  exact assemble_label _ _ before after (not_mem_of_nodup_labels hnodup)

theorem assembled_of_notMem (offset : β → Word) {b : β} (h : b ∉ p.labels) :
    (assembled p offset).offset b = (symbolTables p offset).offset b :=
  (foldl_assembleInstruction_of_notMem _ (fun hmem => h (mem_labels hmem)) _).1

section

variable {t : SymbolTables β} {stValue : β → Word} {bndgs : List β}

omit [DecidableEq β] in
theorem getElem?_setValues_of_ne (stValue : β → Word) {i : Nat}
    (h : ∀ b ∈ bndgs, t.context b ≠ some i) : (t.setValues stValue bndgs)[i]? = t.syms[i]? := by
  unfold SymbolTables.setValues
  generalize t.syms = syms
  induction bndgs generalizing syms with
  | nil => rfl
  | cons b bndgs ih =>
    obtain ⟨hb, hbndgs⟩ := List.forall_mem_cons.mp h
    rw [List.foldl_cons, ih hbndgs]
    cases hcontext : t.context b with
    | none => rfl
    | some j =>
      have hne : j ≠ i := fun heq => hb (hcontext.trans (congrArg some heq))
      rw [Option.elim_some, List.getElem?_modify]
      simp [hne]

omit [DecidableEq β] in
/-- The symbol of one binding only is given its value. -/
theorem getElem?_setValues {i : Nat} {b : β} (hb : b ∈ bndgs) (hcontext : t.context b = some i)
    (hne : ∀ b', t.context b' = some i → b' = b) :
    (t.setValues stValue bndgs)[i]? =
      (t.syms[i]?).map fun sym => { sym with stValue := stValue b } := by
  unfold SymbolTables.setValues
  generalize t.syms = syms
  induction bndgs generalizing syms with
  | nil => exact absurd hb List.not_mem_nil
  | cons b' bndgs ih =>
    rw [List.foldl_cons]
    by_cases hrest : b ∈ bndgs
    · rw [ih hrest]
      by_cases hself : b' = b
      · rw [hself, hcontext, Option.elim_some, List.getElem?_modify_eq, Option.map_eq_map,
          Option.map_map]
        rfl
      · cases hcontext' : t.context b' with
        | none => rfl
        | some j =>
          have hji : j ≠ i := fun heq => hself (hne b' (hcontext'.trans (congrArg some heq)))
          rw [Option.elim_some, List.getElem?_modify]
          simp [hji]
    · have hself : b = b' := (List.mem_cons.mp hb).resolve_right hrest
      have hothers : ∀ x ∈ bndgs, t.context x ≠ some i :=
        fun x hx heq => hrest (hne x heq ▸ hx)
      have hkeep := getElem?_setValues_of_ne (t := { t with
        syms := (t.context b').elim syms fun i =>
          syms.modify i fun sym => { sym with stValue := stValue b' } })
        stValue hothers
      apply hkeep.trans
      show ((t.context b').elim syms _)[i]? = _
      rw [← hself, hcontext, Option.elim_some, List.getElem?_modify_eq, Option.map_eq_map]

end

/-- What a binding of the program has as the value of its symbol. -/
def symbolValue (p : Assembly β) (offset : β → Word) (b : β) : Word :=
  if b ∈ p.undefinedBindings then 0 else (assembled p offset).offset b

omit [DecidableEq β] in
theorem notMem_of_wellFormed (hp : p.WellFormed) {b : β} : (b ∈ p.undefinedBindings →
      b ∉ p.staticBindings ∧ b ∉ p.labels) ∧ (b ∈ p.staticBindings → b ∉ p.labels) := by
  obtain ⟨hdata, -, hlabels⟩ := List.nodup_append.mp hp.nodup
  obtain ⟨-, -, hstatics⟩ := List.nodup_append.mp hdata
  refine ⟨fun h => ⟨fun hs => hstatics b h b hs rfl, fun hl => ?_⟩, fun h hl => ?_⟩
  · exact hlabels b (List.mem_append_left _ h) b hl rfl
  · exact hlabels b (List.mem_append_right _ h) b hl rfl

/-- The symbol of an entry in the written file. -/
def finalSym (p : Assembly β) (offset : β → Word) (k : Nat) (e : SymbolEntry β) : Sym :=
  { symbolAt p (1 + (nameTable p (p.entries.take k)).length) e with
    stValue := symbolValue p offset e.bndg }

theorem getElem?_finalSyms (hp : p.WellFormed) (offset : β → Word) {e : SymbolEntry β} {k : Nat}
    (hk : p.entries[k]? = some e) :
    (finalSyms p offset)[k + 1]? = some (finalSym p offset k e) := by
  have hentered := entered_symbolTables p offset
  have hcontext := context_entry hp offset hk
  have hunique : ∀ b, (symbolTables p offset).context b = some (k + 1) → b = e.bndg := by
    intro b hb
    obtain ⟨k', e', heq, hk', rfl⟩ := hentered.context b _ hb
    obtain rfl : k' = k := by omega
    rw [hk] at hk'
    cases hk'
    rfl
  have hsym : (symbolTables p offset).syms[k + 1]? =
      some (symbolAt p (1 + (nameTable p (p.entries.take k)).length) e) := by
    rw [hentered.syms, List.getElem?_cons_succ]
    exact getElem?_symbolsFrom 1 hk
  unfold finalSyms finalSym symbolValue
  cases entryOf_of_mem hp offset (List.mem_of_getElem? hk) with
  | label b h =>
    have hundefined : b ∉ p.undefinedBindings := fun hu => ((notMem_of_wellFormed hp).1 hu).2 h
    obtain ⟨before, after, hcode⟩ := List.append_of_mem (mem_of_labels h)
    obtain ⟨hoffset, hvalue⟩ := assembled_label hp offset hcode
    rw [getElem?_setValues h hcontext hunique, hsym, if_neg hundefined, hoffset, hvalue]
    rfl
  | static b h =>
    have hundefined : b ∉ p.undefinedBindings := fun hu => ((notMem_of_wellFormed hp).1 hu).1 h
    have hlabel := (notMem_of_wellFormed hp).2 h
    have hothers : ∀ b' ∈ p.labels, (symbolTables p offset).context b' ≠ some (k + 1) := by
      intro b' hb' heq
      have hself : b' = b := hunique b' heq
      exact hlabel (hself ▸ hb')
    rw [getElem?_setValues_of_ne _ hothers, hsym, if_neg hundefined,
      assembled_of_notMem offset hlabel]
    rfl
  | undefined b h =>
    have hlabel := ((notMem_of_wellFormed hp).1 h).2
    have hothers : ∀ b' ∈ p.labels, (symbolTables p offset).context b' ≠ some (k + 1) := by
      intro b' hb' heq
      have hself : b' = b := hunique b' heq
      exact hlabel (hself ▸ hb')
    rw [getElem?_setValues_of_ne _ hothers, hsym, if_pos h]
    rfl

/-- The symbol that stands for no binding. -/
theorem getElem?_finalSyms_zero (p : Assembly β) (offset : β → Word) :
    (finalSyms p offset)[0]? = some ⟨0, 0, SHN_UNDEF, 0, 0⟩ := by
  have hentered := entered_symbolTables p offset
  unfold finalSyms
  rw [getElem?_setValues_of_ne, hentered.syms]
  · rfl
  · intro b _ hb
    obtain ⟨k, e, heq, -⟩ := hentered.context b 0 hb
    omega

theorem length_finalSyms (p : Assembly β) (offset : β → Word) :
    (finalSyms p offset).length = p.entries.length + 1 := by
  unfold finalSyms
  rw [length_setValues, (entered_symbolTables p offset).length]

/-- A property of every symbol of the file. -/
theorem forall_finalSyms (hp : p.WellFormed) (offset : β → Word) (P : Sym → Prop)
    (hzero : P ⟨0, 0, SHN_UNDEF, 0, 0⟩)
    (hentry : ∀ k e, p.entries[k]? = some e → P (finalSym p offset k e)) :
    ∀ sym ∈ finalSyms p offset, P sym := by
  intro sym hsym
  obtain ⟨i, hi⟩ := List.mem_iff_getElem?.mp hsym
  cases i with
  | zero =>
    rw [getElem?_finalSyms_zero] at hi
    cases hi
    exact hzero
  | succ k =>
    obtain ⟨hlt, -⟩ := List.getElem?_eq_some_iff.mp hi
    rw [length_finalSyms] at hlt
    have hk : p.entries[k]? = some p.entries[k] := List.getElem?_eq_getElem (by omega)
    rw [getElem?_finalSyms hp offset hk] at hi
    cases hi
    exact hentry k _ hk

/-- The symbols of the bindings. -/
theorem forall₂_finalSyms (hp : p.WellFormed) (offset : β → Word) {R : β → Sym → Prop}
    (h : ∀ k e, p.entries[k]? = some e → R e.bndg (finalSym p offset k e)) :
    List.Forall₂ R p.symbolBndgs ((finalSyms p offset).drop 1) := by
  rw [← bndg_entries, List.forall₂_map_left_iff, List.forall₂_iff_get]
  have hlength := length_finalSyms p offset
  constructor
  · rw [List.length_drop]
    omega
  · intro k hk hk'
    have hentry : p.entries[k]? = some (p.entries.get ⟨k, hk⟩) := List.getElem?_eq_getElem hk
    have hsym : ((finalSyms p offset).drop 1)[k]? =
        some (finalSym p offset k (p.entries.get ⟨k, hk⟩)) := by
      rw [List.getElem?_drop, Nat.add_comm, getElem?_finalSyms hp offset hentry]
    rw [show ((finalSyms p offset).drop 1).get ⟨k, hk'⟩ = _ from
      (List.getElem?_eq_some_iff.mp hsym).2]
    exact h k _ hentry

/-! ## Names -/

/-- The name of the symbol of a binding. -/
def Assembly.symbolName (p : Assembly β) (b : β) : List Byte := (p.name b).elim [] CString.bytes

omit [DecidableEq β] in
theorem zero_notMem_symbolName (p : Assembly β) (b : β) : 0 ∉ p.symbolName b := by
  unfold Assembly.symbolName
  cases p.name b with
  | none => exact List.not_mem_nil
  | some s => exact s.ends

/-- The string table has the name of a symbol where the symbol says. -/
theorem strtab_eq (p : Assembly β) (offset : β → Word) {e : SymbolEntry β} {k : Nat}
    (hk : p.entries[k]? = some e) : ∃ front after, (symbolTables p offset).strtab =
      front ++ ((p.symbolName e.bndg ++ [0]) ++ after) ∧
      (finalSym p offset k e).stName = front.length := by
  rw [(entered_symbolTables p offset).strtab]
  unfold finalSym symbolAt Assembly.symbolName
  cases hname : p.name e.bndg with
  | none => exact ⟨[], nameTable p p.entries, rfl, rfl⟩
  | some s =>
    obtain ⟨hlt, rfl⟩ := List.getElem?_eq_some_iff.mp hk
    have hsplit : p.entries = p.entries.take k ++ p.entries[k] :: p.entries.drop (k + 1) := by
      rw [List.getElem_cons_drop, List.take_append_drop]
    have hbytes : nameBytes p p.entries[k].bndg = s.bytes ++ [0] := by
      unfold nameBytes
      rw [hname]
      rfl
    refine ⟨0 :: nameTable p (p.entries.take k), nameTable p (p.entries.drop (k + 1)), ?_, ?_⟩
    · nth_rewrite 1 [hsplit]
      unfold nameTable
      rw [List.flatMap_append, List.flatMap_cons, hbytes]
      rfl
    · rw [List.length_cons, Nat.add_comm]
      rfl

end L2.Bootstrap
