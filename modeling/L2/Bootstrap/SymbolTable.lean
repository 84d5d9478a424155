import L2.Bootstrap.AssemblerCorrect
import L2.Bootstrap.Relocations
import L2.Bootstrap.WriteElf

/-!
# The symbol table of a written file

Every round of the five loops enters one binding.  What has been entered stands in the table
in that order, with the names one after the other in the string table.  What is entered is
never more than what has been measured, so `write_elf` stays in its arrays.
-/

namespace L2.Bootstrap

open X86 (Word Byte bytesOf)
open ObjectFile (Sym SHN_UNDEF STB_GLOBAL)
open Ranges (extent extent_append extent_cons extent_filter_add_le extent_filter_le extent_one)

variable {β : Type} {p : Assembly β}

/-! ## Measures of code -/

theorem length_mrBytes_le (opcode : Byte) (reg rm : X86.Reg) (m rexw : Bool) :
    (mrBytes opcode reg rm m rexw).length ≤ 4 := by
  unfold mrBytes operandBytes
  by_cases h : (m && (rm == 4 || rm == 12)) = true
  · simp [h]
  · simp [h]

theorem length_oBytes_le (opcode : Byte) (reg : X86.Reg) : (oBytes opcode reg).length ≤ 2 := by
  unfold oBytes
  by_cases h : reg.val &&& 8 ≠ 0
  · simp [h]
  · simp [h]

theorem length_head_le (i : Instruction β) : i.head.length ≤ 4 := by
  cases i with
  | pushqReg _ | popqReg _ => exact Nat.le_trans (length_oBytes_le _ _) (by decide)
  | jmpRel _ | leave | ret | jeRel _ | movqImmToReg _ _ | label _ => simp [Instruction.head]
  | _ => exact length_mrBytes_le _ _ _ _ _

theorem length_field_le (i : Instruction β) : i.field.elim 0 Prod.snd ≤ 8 := by
  cases i <;> simp [Instruction.field]

theorem length_bytes_le (i : Instruction β) : i.bytes.length ≤ maxInstrLen := by
  have hhead := length_head_le i
  have hfield := length_field_le i
  rw [length_bytes]
  unfold maxInstrLen
  omega

theorem length_codeBytes_le (instrs : List (Instruction β)) :
    (codeBytes instrs).length ≤ maxInstrLen * instrs.length := by
  unfold codeBytes
  induction instrs with
  | nil => exact Nat.le_refl 0
  | cons i instrs ih =>
    have hi := length_bytes_le i
    rw [List.flatMap_cons, List.length_append, List.length_cons, Nat.mul_succ]
    omega

/-- An instruction has at most one relocation. -/
theorem length_codeRelas_le (pos : Nat) (instrs : List (Instruction β)) :
    (codeRelas pos instrs).length ≤ instrs.length := by
  induction instrs generalizing pos with
  | nil => exact Nat.le_refl 0
  | cons i instrs ih =>
    have hi : (i.relas pos).length ≤ 1 := Option.length_toList_le
    have hrest := ih (pos + i.bytes.length)
    show (i.relas pos ++ codeRelas _ instrs).length ≤ _
    rw [List.length_append, List.length_cons]
    omega

/-! ## Entries -/

/-- The symbol that a round of a loop makes, but for its name. -/
structure SymbolEntry (β : Type) where
  bndg : β
  stInfo : Byte
  stShndx : Nat
  stValue : Word
  stSize : Word

variable {es es' : List (SymbolEntry β)} {t t' : SymbolTables β}

section

variable (p : Assembly β)

def nameBytes (bndg : β) : List Byte := (p.name bndg).elim [] CString.stored

/-- The names of some entries in a row. -/
def nameTable (es : List (SymbolEntry β)) : List Byte := es.flatMap fun e => nameBytes p e.bndg

/-- The symbol of an entry whose name, if it has one, is at a position. -/
def symbolAt (pos : Nat) (e : SymbolEntry β) : Sym where
  stName := if (p.name e.bndg).isSome then pos else 0
  stInfo := e.stInfo
  stShndx := e.stShndx
  stValue := e.stValue
  stSize := e.stSize

/-- The symbols of entries whose names are in a row from a position on. -/
def symbolsFrom (pos : Nat) : List (SymbolEntry β) → List Sym
  | [] => []
  | e :: es => symbolAt p pos e :: symbolsFrom (pos + (nameBytes p e.bndg).length) es

def staticEntries (bind : Byte) (bssPtr : Nat) : List β → List (SymbolEntry β)
  | [] => []
  | bndg :: bndgs =>
    ⟨bndg, elf64StInfo bind STT_NOTYPE, 5, BitVec.ofNat 64 bssPtr, BitVec.ofNat 64 (p.size bndg)⟩ ::
      staticEntries bind (bssPtr + padSize (p.size bndg) wordBytes) bndgs

/-- What the static bindings of a list take. -/
def staticExtent (bndgs : List β) : Nat :=
  extent (fun bndg => padSize (p.size bndg) wordBytes) bndgs

end

def labelEntries (bind : Byte) (bndgs : List β) : List (SymbolEntry β) :=
  bndgs.map fun bndg => ⟨bndg, elf64StInfo bind STT_NOTYPE, 2, 0, 0⟩

def undefinedEntries (bndgs : List β) : List (SymbolEntry β) :=
  bndgs.map fun bndg => ⟨bndg, elf64StInfo STB_GLOBAL STT_NOTYPE, SHN_UNDEF, 0, 0⟩

theorem length_nameBytes (bndg : β) : (nameBytes p bndg).length = nameSize (p.name bndg) := by
  unfold nameBytes nameSize
  cases p.name bndg with
  | none => rfl
  | some s => exact List.length_append

theorem length_nameTable (es : List (SymbolEntry β)) : (nameTable p es).length =
    extent (fun bndg => nameSize (p.name bndg)) (es.map SymbolEntry.bndg) := by
  unfold nameTable
  induction es with
  | nil => rfl
  | cons e es ih =>
    rw [List.flatMap_cons, List.length_append, ih, length_nameBytes, List.map_cons, extent_cons]

theorem length_symbolsFrom (pos : Nat) (es : List (SymbolEntry β)) :
    (symbolsFrom p pos es).length = es.length := by
  induction es generalizing pos with
  | nil => rfl
  | cons e es ih =>
    show (symbolsFrom p _ es).length + 1 = es.length + 1
    rw [ih]

theorem symbolsFrom_append (pos : Nat) (es es' : List (SymbolEntry β)) :
    symbolsFrom p pos (es ++ es') =
      symbolsFrom p pos es ++ symbolsFrom p (pos + (nameTable p es).length) es' := by
  induction es generalizing pos with
  | nil => rfl
  | cons e es ih =>
    show symbolAt p pos e :: symbolsFrom p _ (es ++ es') = _
    rw [ih]
    unfold nameTable
    rw [List.flatMap_cons, List.length_append, ← Nat.add_assoc]
    rfl

/-- The symbol of an entry, with the place of its name. -/
theorem getElem?_symbolsFrom {e : SymbolEntry β} {i : Nat} (pos : Nat) (h : es[i]? = some e) :
    (symbolsFrom p pos es)[i]? = some (symbolAt p (pos + (nameTable p (es.take i)).length) e) := by
  obtain ⟨hi, rfl⟩ := List.getElem?_eq_some_iff.mp h
  have hsplit : es = es.take i ++ es[i] :: es.drop (i + 1) := by
    rw [List.getElem_cons_drop, List.take_append_drop]
  have hlength : (symbolsFrom p pos (es.take i)).length = i := by
    rw [length_symbolsFrom, List.length_take]
    omega
  have hsyms := symbolsFrom_append (p := p) pos (es.take i) (es[i] :: es.drop (i + 1))
  rw [← hsplit] at hsyms
  rw [hsyms, List.getElem?_append_right (by omega), hlength, Nat.sub_self]
  rfl

@[simp] theorem bndg_staticEntries (bind : Byte) (bssPtr : Nat) (bndgs : List β) :
    (staticEntries p bind bssPtr bndgs).map SymbolEntry.bndg = bndgs := by
  induction bndgs generalizing bssPtr with
  | nil => rfl
  | cons bndg bndgs ih =>
    show bndg :: (staticEntries p bind _ bndgs).map SymbolEntry.bndg = _
    rw [ih]

@[simp] theorem bndg_labelEntries (bind : Byte) (bndgs : List β) :
    (labelEntries bind bndgs).map SymbolEntry.bndg = bndgs := by
  unfold labelEntries
  rw [List.map_map]
  exact List.map_id bndgs

@[simp] theorem bndg_undefinedEntries (bndgs : List β) :
    (undefinedEntries bndgs).map SymbolEntry.bndg = bndgs := by
  unfold undefinedEntries
  rw [List.map_map]
  exact List.map_id bndgs

namespace Assembly

variable (p : Assembly β)

def localStatics : List β := p.staticBindings.filter fun bndg => p.scope bndg = .localScope
def localLabels : List β := p.labels.filter fun bndg => p.scope bndg = .localScope

def globalStatics : List β := p.staticBindings.filter fun bndg =>
  p.scope bndg = .globalScope ∧ p.state bndg = .definedState

def globalUndefined : List β := p.undefinedBindings.filter fun bndg =>
  p.scope bndg = .globalScope ∧ p.state bndg = .undefinedState

def globalLabels : List β := p.labels.filter fun bndg => p.scope bndg = .globalScope

/-- The bindings in the order in which they are given symbols. -/
def symbolBndgs : List β :=
  p.localStatics ++ p.localLabels ++ p.globalStatics ++ p.globalUndefined ++ p.globalLabels

def localEntries : List (SymbolEntry β) :=
  staticEntries p STB_LOCAL 0 p.localStatics ++ labelEntries STB_LOCAL p.localLabels

def entries : List (SymbolEntry β) :=
  p.localEntries ++ staticEntries p STB_GLOBAL (staticExtent p p.localStatics) p.globalStatics ++
    undefinedEntries p.globalUndefined ++ labelEntries STB_GLOBAL p.globalLabels

end Assembly

@[simp] theorem bndg_entries (p : Assembly β) :
    p.entries.map SymbolEntry.bndg = p.symbolBndgs := by
  simp [Assembly.entries, Assembly.localEntries, Assembly.symbolBndgs]

/-- The bindings that are given symbols are among those that are measured. -/
theorem extent_symbolBndgs_le (p : Assembly β) (size : β → Nat) :
    extent size p.symbolBndgs ≤
      extent size p.undefinedBindings + extent size p.staticBindings + extent size p.labels := by
  have hstatics : extent size p.localStatics + extent size p.globalStatics ≤
      extent size p.staticBindings := by
    apply extent_filter_add_le
    intro bndg h
    simp only [decide_eq_true_eq] at h
    rw [h.1] at h
    cases h.2.1
  have hlabels : extent size p.localLabels + extent size p.globalLabels ≤ extent size p.labels := by
    apply extent_filter_add_le
    intro bndg h
    simp only [decide_eq_true_eq] at h
    rw [h.1] at h
    cases h.2
  have hundefined := extent_filter_le size
    (fun bndg => p.scope bndg = .globalScope ∧ p.state bndg = .undefinedState) p.undefinedBindings
  unfold Assembly.symbolBndgs
  simp only [extent_append]
  show _ + extent size (p.undefinedBindings.filter _) + _ ≤ _
  omega

/-! ## The loops -/

/-- The tables have the mandatory entries and these ones. -/
structure Entered (p : Assembly β) (es : List (SymbolEntry β)) (t : SymbolTables β) : Prop where
  syms : t.syms = ⟨0, 0, SHN_UNDEF, 0, 0⟩ :: symbolsFrom p 1 es
  strtab : t.strtab = 0 :: nameTable p es
  entered : ∀ e ∈ es, ∃ i, t.context e.bndg = some i
  context : ∀ b i, t.context b = some i → ∃ k e, i = k + 1 ∧ es[k]? = some e ∧ e.bndg = b

namespace Entered

theorem start (p : Assembly β) (offset : β → Word) : Entered p [] (.start offset) where
  syms := rfl
  strtab := rfl
  entered _ he := absurd he List.not_mem_nil
  context _ _ h := by cases h

theorem congr (h : Entered p es t) (hsyms : t'.syms = t.syms) (hstrtab : t'.strtab = t.strtab)
    (hcontext : t'.context = t.context) : Entered p es t' where
  syms := hsyms.trans h.syms
  strtab := hstrtab.trans h.strtab
  entered := hcontext ▸ h.entered
  context := hcontext ▸ h.context

theorem length (h : Entered p es t) : t.syms.length = es.length + 1 := by
  rw [h.syms, List.length_cons, length_symbolsFrom]

theorem length_strtab (h : Entered p es t) : t.strtab.length = 1 + (nameTable p es).length := by
  rw [h.strtab, List.length_cons, Nat.add_comm]

variable [DecidableEq β]

/-- A round of a loop. -/
theorem addSymbol (h : Entered p es t) (e : SymbolEntry β) : Entered p (es ++ [e])
    (addSymbol p e.bndg e.stInfo e.stShndx e.stValue e.stSize t) where
  syms := by
    show t.syms ++ _ = _
    rw [symbolsFrom_append, h.length_strtab, h.syms]
    rfl
  strtab := by
    show t.strtab ++ nameBytes p e.bndg = _
    unfold nameTable
    rw [h.strtab, List.flatMap_append, List.flatMap_singleton]
    rfl
  entered x hx := by
    show ∃ i, Function.update t.context e.bndg (some t.syms.length) x.bndg = some i
    by_cases hb : x.bndg = e.bndg
    · exact ⟨t.syms.length, by rw [hb, Function.update_self]⟩
    · rw [Function.update_of_ne hb]
      rcases List.mem_append.mp hx with hx | hx
      · exact h.entered x hx
      · exact absurd (List.mem_singleton.mp hx ▸ rfl) hb
  context b i hi := by
    replace hi : Function.update t.context e.bndg (some t.syms.length) b = some i := hi
    by_cases hb : b = e.bndg
    · rw [hb, Function.update_self, h.length, Option.some.injEq] at hi
      refine ⟨es.length, e, hi.symm, ?_, hb.symm⟩
      rw [List.getElem?_append_right (Nat.le_refl _), Nat.sub_self]
      rfl
    · rw [Function.update_of_ne hb] at hi
      obtain ⟨k, x, hk, hx, hbndg⟩ := h.context b i hi
      refine ⟨k, x, hk, ?_, hbndg⟩
      obtain ⟨hlt, -⟩ := List.getElem?_eq_some_iff.mp hx
      rw [List.getElem?_append_left hlt, hx]

theorem addLabels (h : Entered p es t) (bind : Byte) (bndgs : List β) :
    Entered p (es ++ labelEntries bind bndgs) (bndgs.foldl (addLabel p bind) t) := by
  induction bndgs generalizing es t with
  | nil =>
    show Entered p (es ++ []) t
    rw [List.append_nil]
    exact h
  | cons bndg bndgs ih =>
    have hnext := ih (h.addSymbol ⟨bndg, elf64StInfo bind STT_NOTYPE, 2, 0, 0⟩)
    rw [List.append_assoc] at hnext
    exact hnext

theorem addUndefined (h : Entered p es t) (bndgs : List β) :
    Entered p (es ++ undefinedEntries bndgs) (bndgs.foldl (addUndefined p) t) := by
  induction bndgs generalizing es t with
  | nil =>
    show Entered p (es ++ []) t
    rw [List.append_nil]
    exact h
  | cons bndg bndgs ih =>
    have hnext := ih (h.addSymbol ⟨bndg, elf64StInfo STB_GLOBAL STT_NOTYPE, SHN_UNDEF, 0, 0⟩)
    rw [List.append_assoc] at hnext
    exact hnext

theorem addStatics (h : Entered p es t) (bind : Byte) (bndgs : List β) :
    Entered p (es ++ staticEntries p bind t.bssPtr bndgs) (bndgs.foldl (addStatic p bind) t) := by
  induction bndgs generalizing es t with
  | nil =>
    show Entered p (es ++ []) t
    rw [List.append_nil]
    exact h
  | cons bndg bndgs ih =>
    have hfirst : Entered p (es ++ [⟨bndg, elf64StInfo bind STT_NOTYPE, 5,
        BitVec.ofNat 64 t.bssPtr, BitVec.ofNat 64 (p.size bndg)⟩]) (addStatic p bind t bndg) :=
      Entered.addSymbol (t := { t with
        offset := Function.update t.offset bndg (BitVec.ofNat 64 t.bssPtr)
        bssPtr := t.bssPtr + padSize (p.size bndg) wordBytes }) (h.congr rfl rfl rfl) _
    have hnext := ih hfirst
    rw [List.append_assoc] at hnext
    exact hnext

end Entered

variable [DecidableEq β]

theorem bssPtr_addStatics (bind : Byte) (bndgs : List β) (t : SymbolTables β) :
    (bndgs.foldl (addStatic p bind) t).bssPtr = t.bssPtr + staticExtent p bndgs := by
  induction bndgs generalizing t with
  | nil => rfl
  | cons bndg bndgs ih =>
    rw [List.foldl_cons, ih]
    unfold staticExtent
    rw [extent_cons, ← Nat.add_assoc]
    rfl

theorem foldl_addLabel_rest (bind : Byte) (bndgs : List β) (t : SymbolTables β) :
    (bndgs.foldl (addLabel p bind) t).bssPtr = t.bssPtr ∧
      (bndgs.foldl (addLabel p bind) t).offset = t.offset := by
  induction bndgs generalizing t with
  | nil => exact ⟨rfl, rfl⟩
  | cons bndg bndgs ih => exact ih _

theorem foldl_addUndefined_rest (bndgs : List β) (t : SymbolTables β) :
    (bndgs.foldl (addUndefined p) t).bssPtr = t.bssPtr ∧
      (bndgs.foldl (addUndefined p) t).offset = t.offset := by
  induction bndgs generalizing t with
  | nil => exact ⟨rfl, rfl⟩
  | cons bndg bndgs ih => exact ih _

/-! ## The whole table -/

theorem entered_localSymbols (p : Assembly β) (offset : β → Word) :
    Entered p p.localEntries (localSymbols p offset) := by
  have hstatics := (Entered.start p offset).addStatics STB_LOCAL p.localStatics
  rw [List.nil_append] at hstatics
  exact hstatics.addLabels STB_LOCAL p.localLabels

theorem bssPtr_localSymbols (p : Assembly β) (offset : β → Word) :
    (localSymbols p offset).bssPtr = staticExtent p p.localStatics := by
  unfold localSymbols
  rw [(foldl_addLabel_rest _ _ _).1, bssPtr_addStatics]
  exact Nat.zero_add _

theorem entered_symbolTables (p : Assembly β) (offset : β → Word) :
    Entered p p.entries (symbolTables p offset) := by
  have hstatics := (entered_localSymbols p offset).addStatics STB_GLOBAL p.globalStatics
  rw [bssPtr_localSymbols] at hstatics
  exact (hstatics.addUndefined p.globalUndefined).addLabels STB_GLOBAL p.globalLabels

theorem bssPtr_symbolTables (p : Assembly β) (offset : β → Word) :
    (symbolTables p offset).bssPtr =
      staticExtent p p.localStatics + staticExtent p p.globalStatics := by
  show (globalSymbols p (localSymbols p offset)).bssPtr = _
  unfold globalSymbols
  rw [(foldl_addLabel_rest _ _ _).1, (foldl_addUndefined_rest _ _).1, bssPtr_addStatics,
    bssPtr_localSymbols]
  rfl

/-! ## Measures -/

theorem le_padSize (x nearest : Nat) : x ≤ padSize x nearest := Nat.le_add_right _ _

theorem length_syms_le (p : Assembly β) (offset : β → Word) :
    (symbolTables p offset).syms.length ≤ measureSymtab p := by
  have h := extent_symbolBndgs_le p fun _ => 1
  simp only [extent_one] at h
  rw [(entered_symbolTables p offset).length, ← List.length_map SymbolEntry.bndg, bndg_entries]
  unfold measureSymtab
  omega

theorem length_strtab_le (p : Assembly β) (offset : β → Word) :
    (symbolTables p offset).strtab.length ≤ measureStrtab p := by
  have h := extent_symbolBndgs_le p fun bndg => nameSize (p.name bndg)
  rw [(entered_symbolTables p offset).length_strtab, length_nameTable, bndg_entries]
  unfold measureStrtab
  unfold extent at h ⊢
  omega

/-! ## The file -/

/-- An array of `n` bytes after `overwrite`. -/
def array (old : Nat → Byte) (n : Nat) (bytes : List Byte) : List Byte :=
  bytes ++ (List.range' bytes.length (n - bytes.length)).map old

theorem overwrite_eq (old : Nat → Byte) {n : Nat} {bytes : List Byte} (h : bytes.length ≤ n) :
    overwrite old n bytes = some (array old n bytes) := if_pos h

theorem length_array (old : Nat → Byte) {n : Nat} {bytes : List Byte} (h : bytes.length ≤ n) :
    (array old n bytes).length = n := by
  unfold array
  rw [List.length_append, List.length_map, List.length_range']
  omega

theorem length_flatMap_of {α : Type} {f : α → List Byte} {n : Nat} (hf : ∀ a, (f a).length = n)
    (l : List α) : (l.flatMap f).length = n * l.length := by
  induction l with
  | nil => rfl
  | cons a l ih =>
    rw [List.flatMap_cons, List.length_append, hf, ih, List.length_cons, Nat.mul_succ,
      Nat.add_comm]

@[simp] theorem length_sectionHeader (h : SectionHeader) : h.bytes.length = 64 := by
  simp [SectionHeader.bytes]

@[simp] theorem length_symBytes (sym : Sym) : (symBytes sym).length = 24 := by simp [symBytes]

@[simp] theorem length_relaBytes (rela : ObjectFile.Rela) : (relaBytes rela).length = 24 := by
  simp [relaBytes]

omit [DecidableEq β] in
theorem length_setValues (t : SymbolTables β) (stValue : β → Word) (bndgs : List β) :
    (t.setValues stValue bndgs).length = t.syms.length := by
  unfold SymbolTables.setValues
  generalize t.syms = syms
  induction bndgs generalizing syms with
  | nil => rfl
  | cons bndg bndgs ih =>
    rw [List.foldl_cons, ih]
    cases t.context bndg with
    | none => rfl
    | some i => exact List.length_modify _ _ _

section

variable (old : Uninitialized) (p : Assembly β) (offset : β → Word)

/-- What `assemble` is given and leaves. -/
def assembled : Output β :=
  assemble (symbolTables p offset).offset (symbolTables p offset).stValue p.generatedExpressions

/-- The symbol table with the values of the labels. -/
def finalSyms : List Sym := (symbolTables p offset).setValues (assembled p offset).stValue p.labels

def writtenHeaders (relas : List ObjectFile.Rela) : List SectionHeader :=
  sectionHeaders (padSize shstrtab.length elfAlignment) (codeBytes p.generatedExpressions).length
    (maxTextSecLen p) (measureStrtab p) (padSize (measureStrtab p) elfAlignment)
    (24 * measureSymtab p) (localSymbols p offset).syms.length (symbolTables p offset).bssPtr
    (relas.length * 24)

/-- The contents of the sections behind the headers. -/
def writtenArrays (relas : List ObjectFile.Rela) : List Byte :=
  array old.shstrtab (padSize shstrtab.length elfAlignment) shstrtab ++
    (array old.text (maxTextSecLen p) (codeBytes p.generatedExpressions) ++
    (array old.strtab (padSize (measureStrtab p) elfAlignment) (symbolTables p offset).strtab ++
    (array old.syms (24 * measureSymtab p) ((finalSyms p offset).flatMap symBytes) ++
    relas.flatMap relaBytes)))

def writtenFile (relas : List ObjectFile.Rela) : List Byte :=
  ehdrBytes ++ ((writtenHeaders p offset relas).flatMap SectionHeader.bytes ++
    writtenArrays old p offset relas)

end

omit [DecidableEq β] in
theorem length_code_le (p : Assembly β) :
    (codeBytes p.generatedExpressions).length ≤ maxTextSecLen p :=
  Nat.le_trans (length_codeBytes_le _) (le_padSize _ _)

theorem length_finalSyms_le (p : Assembly β) (offset : β → Word) :
    ((finalSyms p offset).flatMap symBytes).length ≤ 24 * measureSymtab p := by
  rw [length_flatMap_of length_symBytes]
  unfold finalSyms
  rw [length_setValues]
  exact Nat.mul_le_mul_left 24 (length_syms_le p offset)

omit [DecidableEq β] in
/-- The relocations have room where they are collected. -/
theorem length_relas_le {p : Assembly β} {t : SymbolTables β} {relas : List ObjectFile.Rela}
    (h : (codeRelas 0 p.generatedExpressions).mapM t.elfRela = some relas) :
    relas.length * 24 ≤ maxRelaSecLen p := by
  have hlength : relas.length = (codeRelas 0 p.generatedExpressions).length :=
    (ObjectFile.forall₂_of_mapM h).length_eq.symm
  have hle := length_codeRelas_le 0 p.generatedExpressions
  unfold maxRelaSecLen maxInstrFields
  omega

theorem length_writtenFile (old : Uninitialized) (p : Assembly β) (offset : β → Word)
    (relas : List ObjectFile.Rela) : (writtenFile old p offset relas).length =
      64 + 64 * shCount + padSize shstrtab.length elfAlignment + maxTextSecLen p +
        padSize (measureStrtab p) elfAlignment + 24 * measureSymtab p + 24 * relas.length := by
  have hshstrtab := length_array old.shstrtab (le_padSize shstrtab.length elfAlignment)
  have htext := length_array old.text (length_code_le p)
  have hstrtab := length_array old.strtab
    (Nat.le_trans (length_strtab_le p offset) (le_padSize (measureStrtab p) elfAlignment))
  have hsyms := length_array old.syms (length_finalSyms_le p offset)
  unfold writtenFile writtenArrays
  simp only [List.length_append, hshstrtab, htext, hstrtab, hsyms,
    length_flatMap_of length_sectionHeader, length_flatMap_of length_relaBytes]
  have hehdr : ehdrBytes.length = 64 := rfl
  have hcount : (writtenHeaders p offset relas).length = shCount := rfl
  rw [hehdr, hcount]
  omega

theorem length_writtenFile_le (old : Uninitialized) (p : Assembly β) (offset : β → Word)
    {relas : List ObjectFile.Rela}
    (h : (codeRelas 0 p.generatedExpressions).mapM (symbolTables p offset).elfRela = some relas) :
    (writtenFile old p offset relas).length ≤ maxElfSize p := by
  have hrelas := length_relas_le h
  rw [length_writtenFile]
  unfold maxRelaSecLen at hrelas
  unfold maxElfSize maxTextSecLen
  rw [Nat.mul_assoc 24]
  omega

/-- No write is outside of an array: there is a file where all relocations have symbols. -/
theorem writeElf_eq (old : Uninitialized) {p : Assembly β} (hsize : maxElfSize p < 2 ^ 31)
    (offset : β → Word) : writeElf old p offset =
      ((codeRelas 0 p.generatedExpressions).mapM (symbolTables p offset).elfRela).map fun relas =>
        ⟨writtenFile old p offset relas, (assembled p offset).offset,
          (symbolTables p offset).context⟩ := by
  have hbin : (assembled p offset).bin = codeBytes p.generatedExpressions := assemble_bin _ _ _
  have hrelas : (assembled p offset).relas = codeRelas 0 p.generatedExpressions :=
    assemble_relas _ _ _
  have hstrtab := overwrite_eq old.strtab
    (Nat.le_trans (length_strtab_le p offset) (le_padSize (measureStrtab p) elfAlignment))
  have htext := overwrite_eq old.text (length_code_le p)
  have hsyms := overwrite_eq old.syms (length_finalSyms_le p offset)
  have hshstrtab := overwrite_eq old.shstrtab (le_padSize shstrtab.length elfAlignment)
  rw [← hbin] at htext
  unfold writeElf
  dsimp only
  show (overwrite _ _ _).bind _ = _
  rw [hstrtab, Option.bind_some]
  show (overwrite _ _ (assembled p offset).bin).bind _ = _
  rw [htext, Option.bind_some]
  show (overwrite _ _ ((finalSyms p offset).flatMap symBytes)).bind _ = _
  rw [hsyms, Option.bind_some]
  show Option.bind ((assembled p offset).relas.mapM (symbolTables p offset).elfRela) _ = _
  rw [hrelas]
  cases hmap : (codeRelas 0 p.generatedExpressions).mapM (symbolTables p offset).elfRela with
  | none => rfl
  | some relas =>
    have hroom : maxElfSize p < 2 ^ 31 ∧ relas.length * 24 ≤ maxRelaSecLen p ∧
        (writtenFile old p offset relas).length ≤ maxElfSize p :=
      ⟨hsize, length_relas_le hmap, length_writtenFile_le old p offset hmap⟩
    have hpos : (assembled p offset).pos = (codeBytes p.generatedExpressions).length :=
      congrArg List.length hbin
    rw [Option.bind_some]
    show (overwrite old.shstrtab (padSize shstrtab.length elfAlignment) shstrtab).bind _ = _
    rw [hshstrtab, Option.bind_some,
      length_array old.shstrtab (le_padSize shstrtab.length elfAlignment),
      length_array old.text (hbin ▸ length_code_le p),
      length_array old.strtab
        (Nat.le_trans (length_strtab_le p offset) (le_padSize (measureStrtab p) elfAlignment)),
      length_array old.syms (length_finalSyms_le p offset)]
    unfold assembled at hpos hbin ⊢
    rw [hpos, hbin, Option.map_some]
    unfold writtenFile writtenHeaders writtenArrays at hroom ⊢
    rw [if_pos hroom]

/-- The relocations of bindings that have symbols are written. -/
theorem exists_elfRelas (offset : β → Word)
    (h : ∀ rela ∈ codeRelas 0 p.generatedExpressions, rela.symbol ∈ p.symbolBndgs) :
    ∃ relas, (codeRelas 0 p.generatedExpressions).mapM (symbolTables p offset).elfRela =
      some relas := by
  apply ObjectFile.mapM_isSome
  intro rela hrela
  have hmem := h rela hrela
  rw [← bndg_entries] at hmem
  obtain ⟨e, he, hbndg⟩ := List.mem_map.mp hmem
  obtain ⟨i, hi⟩ := (entered_symbolTables p offset).entered e he
  exact ⟨_, Option.bind_eq_some_iff.mpr ⟨i, hbndg ▸ hi, rfl⟩⟩

/-- Where an `int` holds what `max_elf_size` adds up, `write_elf` stays in its arrays, and in what
`max_elf_size` has asked for.  It comes back with a file exactly if every binding that the code
refers to has been given a symbol. -/
theorem writeElf_isSome_iff (old : Uninitialized) {p : Assembly β} (hsize : maxElfSize p < 2 ^ 31)
    (offset : β → Word) :
    (∃ written, writeElf old p offset = some written ∧ written.bin.length ≤ maxElfSize p) ↔
      ∀ rela ∈ (assembled p offset).relas, rela.symbol ∈ p.symbolBndgs := by
  have hentered := entered_symbolTables p offset
  have hrelas : (assembled p offset).relas = codeRelas 0 p.generatedExpressions :=
    assemble_relas _ _ _
  rw [writeElf_eq old hsize, hrelas]
  constructor
  · rintro ⟨written, hwritten, -⟩ rela hrela
    obtain ⟨relas, hmap, -⟩ := Option.map_eq_some_iff.mp hwritten
    obtain ⟨elfRela, -, helf⟩ :=
      ObjectFile.exists_of_forall₂_right (ObjectFile.forall₂_of_mapM hmap).flip hrela
    obtain ⟨i, hi, -⟩ := Option.bind_eq_some_iff.mp helf
    obtain ⟨k, e, -, he, hbndg⟩ := hentered.context _ i hi
    rw [← bndg_entries, ← hbndg]
    exact List.mem_map_of_mem (List.mem_of_getElem? he)
  · intro h
    obtain ⟨relas, hmap⟩ := exists_elfRelas offset h
    rw [hmap]
    exact ⟨_, rfl, length_writtenFile_le old p offset hmap⟩

/-- A program whose code is the loop, with one static binding. -/
def loopProgram : Assembly Nat where
  generatedExpressions := loopCode
  undefinedBindings := []
  staticBindings := [1]
  name _ := none
  type _ := .absoluteStorage
  scope _ := .localScope
  state _ := .definedState
  size _ := 8

/-- The code of the loop refers to a static binding, and to its own label. -/
theorem writeElf_isSome_iff_loop : ∃ written,
    writeElf ⟨fun _ => 0, fun _ => 0, fun _ => 0, fun _ => 0⟩ loopProgram (fun _ => 0) =
      some written ∧ written.bin.length ≤ 968 := by
  have hsize : maxElfSize loopProgram = 968 := by decide
  obtain ⟨written, hwritten, hlength⟩ := (writeElf_isSome_iff
    ⟨fun _ => 0, fun _ => 0, fun _ => 0, fun _ => 0⟩ (p := loopProgram) (by omega)
    (fun _ => 0)).mpr (by
      intro rela hrela
      have hall : ∀ rela ∈ codeRelas 0 loopCode, rela.symbol ∈ loopProgram.symbolBndgs := by
        decide
      rw [show (assembled loopProgram _).relas = codeRelas 0 loopCode from
        assemble_relas _ _ _] at hrela
      exact hall rela hrela)
  rw [hsize] at hlength
  exact ⟨written, hwritten, hlength⟩

end L2.Bootstrap
