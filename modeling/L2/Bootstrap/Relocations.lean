import L2.Memory.Patches
import L2.Bootstrap.ObjectFile

/-!
# Relocations can be done again

The relocations of an object put patches on the memory that was loaded.  Which bytes they
touch does not depend on the values of the symbols, so that doing them again with other
values leaves what doing them once would have left.
-/

namespace L2.Bootstrap.ObjectFile

open X86 (Word Byte Memory)
open Patches

/-! ## What a type prescribes -/

/-- How the value of a field is calculated. -/
inductive Calculation where
  | symbolAddend
  | symbolAddendPlace
  | symbol
  | sizeAddend

def Calculation.value (sym : Sym) (addend place : Word) : Calculation → Word
  | .symbolAddend => sym.stValue + addend
  | .symbolAddendPlace => sym.stValue + addend - place
  | .symbol => sym.stValue
  | .sizeAddend => sym.stSize + addend

/-- The width of the field of a relocation and the calculation of its value. -/
def prescription : Nat → Option (Nat × Calculation)
  | R_X86_64_64 => some (8, .symbolAddend)
  | R_X86_64_PC32 => some (4, .symbolAddendPlace)
  | R_X86_64_GLOB_DAT | R_X86_64_JUMP_SLOT => some (8, .symbol)
  | R_X86_64_32 | R_X86_64_32S => some (4, .symbolAddend)
  | R_X86_64_16 => some (2, .symbolAddend)
  | R_X86_64_PC16 => some (2, .symbolAddendPlace)
  | R_X86_64_8 => some (1, .symbolAddend)
  | R_X86_64_PC8 => some (1, .symbolAddendPlace)
  | R_X86_64_SIZE32 => some (4, .sizeAddend)
  | R_X86_64_SIZE64 => some (8, .sizeAddend)
  | _ => none

/-- The addend that the file has for a relocation. -/
def originalAddend (mem : Memory) (shType : Nat) (rela : Rela) : Word :=
  if shType = SHT_RELA then rela.rAddend
  else X86.load mem rela.rOffset ((prescription rela.type).elim 0 Prod.fst)

theorem width_le {type n : Nat} {c : Calculation} (h : prescription type = some (n, c)) :
    n ≤ 8 := by
  unfold prescription at h
  split at h <;> cases h <;> decide

theorem storedAddend_eq {mem : Memory} {rela : Rela} {addend : Word}
    (h : storedAddend mem rela = some addend) :
    addend = X86.load mem rela.rOffset ((prescription rela.type).elim 0 Prod.fst) := by
  unfold storedAddend at h
  split at h <;> rename_i htype <;>
    first
      | cases h; rw [htype]; rfl
      | cases h

theorem doRelocation_eq (obj : Object) (link : Nat) (rela : Rela) (addend : Word)
    (mem : Memory) : doRelocation obj link rela addend mem =
      match prescription rela.type with
      | none => some mem
      | some (n, c) => (obj.sym link rela.symbol).bind fun sym =>
        memcpy obj rela.rOffset (c.value sym addend rela.rOffset) n mem := by
  unfold doRelocation prescription
  split <;> rename_i htype <;> simp_all [Calculation.value]

/-! ## The patches of an object -/

/-- The low `n` bytes of a value from an address on. -/
def storePatch (a : Word) (n : Nat) (v : Word) : Patch Word Byte := fun x =>
  if (x - a).toNat < n then some (X86.byte v (x - a).toNat) else none

theorem apply_storePatch (a : Word) (n : Nat) (v : Word) (mem : Memory) :
    apply (storePatch a n v) mem = X86.store mem a n v := by
  funext x
  unfold apply storePatch X86.store
  split <;> rfl

theorem storePatch_isSome (a : Word) (n : Nat) (v x : Word) :
    (storePatch a n v x).isSome ↔ (x - a).toNat < n := by
  unfold storePatch
  split <;> simp_all

/-- A relocation with the symbol table that it is for and its addend. -/
structure Entry where
  link : Nat
  rela : Rela
  addend : Word

def Section.entries (sec : Section) : List Entry :=
  if sec.isRelocations then (sec.relas.zip sec.addends).map fun (rela, addend) =>
    ⟨sec.shLink, rela, addend⟩
  else []

/-- The relocations of an object in the order in which they are done. -/
def Object.entries (obj : Object) : List Entry := obj.flatMap Section.entries

/-- What a relocation writes, unless it is not defined. -/
def entryPatch (obj : Object) (e : Entry) : Option (Patch Word Byte) :=
  match prescription e.rela.type with
  | none => some fun _ => none
  | some (n, c) => (obj.sym e.link e.rela.symbol).bind fun sym =>
    if ∀ i < n, obj.owns (e.rela.rOffset + BitVec.ofNat 64 i) then
      some (storePatch e.rela.rOffset n (c.value sym e.addend e.rela.rOffset))
    else none

def Object.patches (obj : Object) : Option (List (Patch Word Byte)) :=
  obj.entries.mapM (entryPatch obj)

theorem doRelocation_eq_apply (obj : Object) (e : Entry) (mem : Memory) :
    doRelocation obj e.link e.rela e.addend mem = (entryPatch obj e).map (apply · mem) := by
  rw [doRelocation_eq]
  unfold entryPatch
  cases prescription e.rela.type with
  | none => rfl
  | some field =>
    obtain ⟨n, c⟩ := field
    cases obj.sym e.link e.rela.symbol with
    | none => rfl
    | some sym =>
      show memcpy obj _ _ n mem = Option.map _ (if _ then _ else _)
      unfold memcpy
      split
      · rw [Option.map_some, apply_storePatch]
      · rfl

theorem doRelocations_entries (obj : Object) (mem : Memory) :
    doRelocations obj mem =
      obj.entries.foldlM (fun mem e => doRelocation obj e.link e.rela e.addend mem) mem := by
  have hentries : ∀ (sections : List Section) (mem : Memory),
      sections.foldlM (fun mem sec =>
        if sec.isRelocations then
          (sec.relas.zip sec.addends).foldlM
            (fun mem (rela, addend) => doRelocation obj sec.shLink rela addend mem) mem
        else some mem) mem =
      (sections.flatMap Section.entries).foldlM
        (fun mem e => doRelocation obj e.link e.rela e.addend mem) mem := by
    intro sections
    induction sections with
    | nil => exact fun _ => rfl
    | cons sec sections ih =>
      intro mem
      rw [List.foldlM_cons, List.flatMap_cons, List.foldlM_append]
      congr 1
      · unfold Section.entries
        split
        · rw [List.foldlM_map]
        · rfl
      · funext mem
        exact ih mem
  exact hentries obj mem

theorem doRelocations_eq (obj : Object) (mem : Memory) :
    doRelocations obj mem = obj.patches.map (applyAll · mem) := by
  rw [doRelocations_entries]
  exact foldlM_eq_applyAll (fun mem e => doRelocation_eq_apply obj e mem) _ mem

/-! ## Objects that differ in the values of symbols -/

/-- The symbols differ in their values at most. -/
def SameSym (sym sym' : Sym) : Prop := ∃ v, sym' = { sym with stValue := v }

/-- The sections differ in the values of symbols at most. -/
def SameSection (sec sec' : Section) : Prop :=
  ∃ syms, sec' = { sec with syms := syms } ∧ List.Forall₂ SameSym sec.syms syms

/-- The sections have the same header and the same address. -/
def SameHeader (sec sec' : Section) : Prop := sec'.toShdr = sec.toShdr ∧ sec'.seg = sec.seg

/-- The objects differ in the values of symbols at most. -/
def SameTables : Object → Object → Prop := List.Forall₂ SameSection

variable {obj obj' obj₁ : Object} {mem mem' mem₀ : Memory}

theorem forall₂_trans {α β γ : Type} {R : α → β → Prop} {S : β → γ → Prop} {T : α → γ → Prop}
    (hT : ∀ a b c, R a b → S b c → T a c) : ∀ {l₁ : List α} {l₂ : List β} {l₃ : List γ},
      List.Forall₂ R l₁ l₂ → List.Forall₂ S l₂ l₃ → List.Forall₂ T l₁ l₃
  | _, _, _, .nil, .nil => .nil
  | _, _, _, .cons h t, .cons h' t' => .cons (hT _ _ _ h h') (forall₂_trans hT t t')

theorem SameTables.entries_eq (h : SameTables obj obj') : obj'.entries = obj.entries := by
  unfold Object.entries
  induction h with
  | nil => rfl
  | cons hsec _ ih =>
    obtain ⟨syms, rfl, -⟩ := hsec
    rw [List.flatMap_cons, List.flatMap_cons, ih]
    rfl

theorem SameTables.owns_eq (h : SameTables obj obj') (a : Word) : obj'.owns a = obj.owns a := by
  unfold Object.owns
  induction h with
  | nil => rfl
  | cons hsec _ ih =>
    obtain ⟨syms, rfl, -⟩ := hsec
    rw [List.any_cons, List.any_cons, ih]

theorem forall₂_getElem? {α β : Type} {R : α → β → Prop} {l : List α} {l' : List β}
    (h : List.Forall₂ R l l') (i : Nat) : Option.Rel R l[i]? l'[i]? := by
  induction h generalizing i with
  | nil => exact .none
  | cons hab _ ih =>
    cases i with
    | zero => exact .some hab
    | succ i => exact ih i

theorem SameTables.sym_rel (h : SameTables obj obj') (link index : Nat) :
    Option.Rel SameSym (obj.sym link index) (obj'.sym link index) := by
  have hsec := forall₂_getElem? h link
  unfold Object.sym
  revert hsec
  generalize obj[link]? = a, obj'[link]? = b
  rintro (⟨⟨syms, rfl, hsyms⟩⟩ | -)
  · exact forall₂_getElem? hsyms index
  · exact .none

/-- The patches have contents for the same cells. -/
def SamePatch (p q : Patch Word Byte) : Prop := ∀ a, (p a).isSome = (q a).isSome

theorem SameTables.entryPatch_rel (h : SameTables obj obj') (e : Entry) :
    Option.Rel SamePatch (entryPatch obj e) (entryPatch obj' e) := by
  unfold entryPatch
  cases prescription e.rela.type with
  | none => exact .some fun _ => rfl
  | some field =>
    obtain ⟨n, c⟩ := field
    have hsym := h.sym_rel e.link e.rela.symbol
    revert hsym
    generalize obj.sym e.link e.rela.symbol = a, obj'.sym e.link e.rela.symbol = b
    rintro (- | -)
    · show Option.Rel SamePatch (if _ then _ else _) (if _ then _ else _)
      simp only [h.owns_eq]
      split
      · apply Option.Rel.some
        intro x
        rw [Bool.eq_iff_iff, storePatch_isSome, storePatch_isSome]
      · exact .none
    · exact .none

theorem SameTables.patches_rel (h : SameTables obj obj') :
    Option.Rel (List.Forall₂ SamePatch) obj.patches obj'.patches := by
  unfold Object.patches
  rw [h.entries_eq]
  induction obj.entries with
  | nil => exact .some .nil
  | cons e es ih =>
    rw [List.mapM_cons, List.mapM_cons]
    have he := h.entryPatch_rel e
    revert he ih
    generalize entryPatch obj e = a, entryPatch obj' e = b, es.mapM (entryPatch obj) = l,
      es.mapM (entryPatch obj') = l'
    rintro (hl | -) (hp | -)
    · exact .some (.cons hp hl)
    · exact .none
    · exact .none
    · exact .none

theorem touches_iff_of_forall₂ {ps qs : List (Patch Word Byte)}
    (h : List.Forall₂ SamePatch ps qs) (a : Word) : Touches ps a ↔ Touches qs a := by
  induction h with
  | nil => rfl
  | cons hpq _ ih => rw [touches_cons, touches_cons, hpq a, ih]

theorem doRelocations_some {obj : Object} {mem mem' : Memory} :
    doRelocations obj mem = some mem' ↔ ∃ ps, obj.patches = some ps ∧ applyAll ps mem = mem' := by
  rw [doRelocations_eq, Option.map_eq_some_iff]

/-- On memory on which the relocations of an object have been done, doing those of one
with other symbol values is as doing them on the memory there was before. -/
theorem SameTables.doRelocations_again (h : SameTables obj obj')
    (hmem : doRelocations obj mem₀ = some mem) :
    ∃ mem', doRelocations obj' mem₀ = some mem' ∧ doRelocations obj' mem = some mem' := by
  obtain ⟨ps, hps, rfl⟩ := doRelocations_some.mp hmem
  have hrel := h.patches_rel
  rw [hps] at hrel
  generalize hps' : obj'.patches = patches' at hrel
  cases hrel with
  | some hsame =>
    rename_i ps'
    refine ⟨applyAll ps' mem₀, doRelocations_some.mpr ⟨ps', hps', rfl⟩,
      doRelocations_some.mpr ⟨ps', hps', ?_⟩⟩
    apply applyAll_replay
    exact fun a ha => (touches_iff_of_forall₂ hsame a).mp ha

/-! ## What updates make of symbols -/

/-- A symbol has the address of the last update that is for it. -/
def assign (mem : Memory) (name : Word) (updates : List Binding) (sym : Sym) : Sym :=
  { sym with stValue := ((updates.filter (·.updates mem name sym)).getLast?.map
      Binding.address).getD sym.stValue }

theorem sameSym_assign (mem : Memory) (name : Word) (updates : List Binding) (sym : Sym) :
    SameSym sym (assign mem name updates sym) := ⟨_, rfl⟩

theorem assign_append (mem : Memory) (name : Word) (us vs : List Binding) (sym : Sym) :
    assign mem name vs (assign mem name us sym) = assign mem name (us ++ vs) sym := by
  have hupdates : ∀ update : Binding, update.updates mem name (assign mem name us sym) =
      update.updates mem name sym := fun _ => rfl
  unfold assign at hupdates ⊢
  simp only [hupdates, List.filter_append, List.getLast?_append]
  cases (vs.filter (·.updates mem name sym)).getLast? <;> rfl

theorem assign_twice (mem : Memory) (name : Word) (us vs : List Binding) (sym : Sym) :
    assign mem name (us ++ vs ++ vs) sym = assign mem name (us ++ vs) sym := by
  unfold assign
  simp only [List.filter_append, List.getLast?_append]
  cases (vs.filter (·.updates mem name sym)).getLast? <;> rfl

/-- What updates make of a section, the name of symbol `sym` being at `name sym`. -/
def Section.assign (mem : Memory) (name : Sym → Word) (updates : List Binding)
    (sec : Section) : Section :=
  if sec.shType = SHT_SYMTAB then
    { sec with syms := sec.syms.take 1 ++
        (sec.syms.drop 1).map fun sym => ObjectFile.assign mem (name sym) updates sym }
  else sec

/-- Where the name of a symbol of a section is. -/
def Object.nameAt (obj : Object) (shdr : Shdr) (sym : Sym) : Word := (nameOf obj shdr sym).getD 0

/-- What updates make of an object. -/
def Object.assign (obj : Object) (mem : Memory) (updates : List Binding) : Object :=
  obj.map fun sec => sec.assign mem (obj.nameAt sec.toShdr) updates

theorem sameSection_assign (mem : Memory) (name : Sym → Word) (updates : List Binding)
    (sec : Section) : SameSection sec (sec.assign mem name updates) := by
  unfold Section.assign
  split
  · refine ⟨_, rfl, ?_⟩
    nth_rewrite 1 [← List.take_append_drop 1 sec.syms]
    apply List.rel_append
    · exact List.forall₂_same.mpr fun sym _ => ⟨sym.stValue, rfl⟩
    · rw [List.forall₂_map_right_iff]
      exact List.forall₂_same.mpr fun sym _ => sameSym_assign mem _ updates sym
  · exact ⟨sec.syms, rfl, List.forall₂_same.mpr fun sym _ => ⟨sym.stValue, rfl⟩⟩

theorem sameTables_assign (obj : Object) (mem : Memory) (updates : List Binding) :
    SameTables obj (obj.assign mem updates) := by
  unfold Object.assign SameTables
  rw [List.forall₂_map_right_iff]
  exact List.forall₂_same.mpr fun sec _ => sameSection_assign mem _ updates sec

theorem SameTables.nameOf_eq (h : SameTables obj obj') (shdr : Shdr) (sym : Sym) :
    nameOf obj' shdr sym = nameOf obj shdr sym := by
  have hsec := forall₂_getElem? h shdr.shLink
  unfold nameOf
  revert hsec
  generalize obj[shdr.shLink]? = a, obj'[shdr.shLink]? = b
  rintro (⟨⟨syms, rfl, -⟩⟩ | -)
  · rfl
  · rfl

theorem Section.assign_toShdr (mem : Memory) (name : Sym → Word) (updates : List Binding)
    (sec : Section) : (sec.assign mem name updates).toShdr = sec.toShdr := by
  unfold Section.assign
  split <;> rfl

theorem Section.assign_append (mem : Memory) (name : Sym → Word)
    (hname : ∀ sym sym', SameSym sym sym' → name sym' = name sym) (us vs : List Binding)
    (sec : Section) :
    (sec.assign mem name us).assign mem name vs = sec.assign mem name (us ++ vs) := by
  by_cases htab : sec.shType = SHT_SYMTAB
  · have hassigned : sec.assign mem name us = { sec with
        syms := sec.syms.take 1 ++
          (sec.syms.drop 1).map fun sym => ObjectFile.assign mem (name sym) us sym } := if_pos htab
    rw [hassigned]
    unfold Section.assign
    rw [if_pos htab, if_pos htab]
    congr 1
    cases sec.syms with
    | nil => rfl
    | cons null syms =>
      show null :: (syms.map _).map _ = null :: syms.map _
      rw [List.map_map]
      congr 1
      apply List.map_congr_left
      intro sym _
      show ObjectFile.assign mem (name (ObjectFile.assign mem (name sym) us sym)) vs _ = _
      rw [hname sym _ (sameSym_assign mem _ us sym), ObjectFile.assign_append]
  · have hsec : ∀ updates, sec.assign mem name updates = sec := fun _ => if_neg htab
    rw [hsec, hsec, hsec]

theorem Object.nameAt_congr (obj : Object) (shdr : Shdr) {sym sym' : Sym} (h : SameSym sym sym') :
    obj.nameAt shdr sym' = obj.nameAt shdr sym := by
  obtain ⟨v, rfl⟩ := h
  rfl

theorem SameTables.nameAt_eq (h : SameTables obj obj') (shdr : Shdr) :
    obj'.nameAt shdr = obj.nameAt shdr := by
  funext sym
  unfold Object.nameAt
  rw [h.nameOf_eq]

theorem Object.assign_append (obj : Object) (mem : Memory) (us vs : List Binding) :
    (obj.assign mem us).assign mem vs = obj.assign mem (us ++ vs) := by
  have hname := fun shdr => (sameTables_assign obj mem us).nameAt_eq shdr
  show List.map _ (List.map _ obj) = List.map _ obj
  rw [List.map_map]
  apply List.map_congr_left
  intro sec _
  show Section.assign mem ((obj.assign mem us).nameAt _) vs (sec.assign mem _ us) = _
  rw [hname, Section.assign_toShdr]
  exact Section.assign_append mem _ (fun sym sym' h => obj.nameAt_congr _ h) us vs sec

theorem Object.assign_twice (obj : Object) (mem : Memory) (us vs : List Binding) :
    obj.assign mem (us ++ vs ++ vs) = obj.assign mem (us ++ vs) := by
  unfold Object.assign Section.assign
  simp only [ObjectFile.assign_twice]

theorem Object.assign_nil (obj : Object) (mem : Memory) : obj.assign mem [] = obj := by
  have hsec : ∀ (name : Sym → Word) (sec : Section), sec.assign mem name [] = sec := by
    intro name sec
    unfold Section.assign ObjectFile.assign
    split
    · show { sec with syms := sec.syms.take 1 ++ (sec.syms.drop 1).map fun sym => sym } = sec
      rw [List.map_id', List.take_append_drop]
    · rfl
  unfold Object.assign
  simp only [hsec, List.map_id']

/-! ## The loops of `mutate_bindings` -/

/-- Every symbol table has a section with the names of its symbols. -/
def Named (obj : Object) : Prop :=
  ∀ sec ∈ obj, sec.shType = SHT_SYMTAB → ∃ strings, obj[sec.shLink]? = some strings

theorem SameTables.named (h : SameTables obj obj') (hnamed : Named obj) : Named obj' := by
  intro sec' hsec' htab
  obtain ⟨i, hi⟩ := List.mem_iff_getElem?.mp hsec'
  have hrel := forall₂_getElem? h i
  rw [hi] at hrel
  generalize hsec : obj[i]? = a at hrel
  cases hrel with
  | @some sec _ hsame =>
    obtain ⟨syms, rfl, -⟩ := hsame
    obtain ⟨strings, hstrings⟩ := hnamed sec (List.mem_of_getElem? hsec) htab
    have hlink := forall₂_getElem? h sec.shLink
    rw [hstrings] at hlink
    generalize obj'[sec.shLink]? = b at hlink
    cases hlink with
    | @some _ strings' _ => exact ⟨strings', rfl⟩

theorem mapM_some {α β : Type} {f : α → Option β} {g : α → β} {l : List α}
    (h : ∀ a ∈ l, f a = some (g a)) : l.mapM f = some (l.map g) := by
  induction l with
  | nil => rfl
  | cons a l ih =>
    rw [List.mapM_cons, h a List.mem_cons_self, ih fun b hb => h b (List.mem_cons_of_mem a hb)]
    rfl

/-- A map that is defined on every element is defined on the list. -/
theorem mapM_isSome {α β : Type} {f : α → Option β} {l : List α}
    (h : ∀ a ∈ l, ∃ b, f a = some b) : ∃ bs, l.mapM f = some bs := by
  induction l with
  | nil => exact ⟨[], rfl⟩
  | cons a l ih =>
    obtain ⟨⟨b, hb⟩, hl⟩ := List.forall_mem_cons.mp h
    obtain ⟨bs, hbs⟩ := ih hl
    refine ⟨b :: bs, ?_⟩
    rw [List.mapM_cons, hb, hbs]
    rfl

theorem assign_singleton (mem : Memory) (name : Word) (update : Binding) (sym : Sym) :
    assign mem name [update] sym =
      if update.updates mem name sym then { sym with stValue := update.address } else sym := by
  unfold assign
  cases h : update.updates mem name sym with
  | true => simp [h]
  | false => simp [h]

theorem mutateSyms_eq (hnamed : Named obj) (mem : Memory) (update : Binding) :
    mutateSyms obj mem update = some (obj.assign mem [update]) := by
  apply mapM_some
  intro sec hsec
  unfold Section.assign
  split
  · rename_i htab
    obtain ⟨strings, hstrings⟩ := hnamed sec hsec htab
    have hsyms : (sec.syms.drop 1).mapM (mutateSym obj mem update sec.toShdr) =
        some ((sec.syms.drop 1).map fun sym =>
          assign mem (obj.nameAt sec.toShdr sym) [update] sym) := by
      apply mapM_some
      intro sym _
      unfold mutateSym Object.nameAt nameOf
      rw [hstrings, assign_singleton]
      rfl
    rw [hsyms]
    rfl
  · rfl

theorem foldlM_mutateSyms (hnamed : Named obj) (mem : Memory) (updates : List Binding) :
    updates.foldlM (fun obj update => mutateSyms obj mem update) obj =
      some (obj.assign mem updates) := by
  induction updates generalizing obj with
  | nil => rw [Object.assign_nil]; rfl
  | cons update updates ih =>
    rw [List.foldlM_cons, mutateSyms_eq hnamed]
    show updates.foldlM _ (obj.assign mem [update]) = _
    rw [ih ((sameTables_assign obj mem [update]).named hnamed), Object.assign_append]
    rfl

/-! ## Names and fields -/

/-- The address is one of the string at an address, its end included. -/
def InString (mem : Memory) (p a : Word) : Prop :=
  ∃ i, a = p + BitVec.ofNat 64 i ∧ ∀ j < i, mem (p + BitVec.ofNat 64 j) ≠ 0

/-- The field of a relocation: its address and its width. -/
def Entry.field (e : Entry) : Option (Word × Nat) :=
  (prescription e.rela.type).map fun (n, _) => (e.rela.rOffset, n)

def Object.fields (obj : Object) : List (Word × Nat) := obj.entries.filterMap Entry.field

/-- The address is one of a field. -/
def Within (field : Word × Nat) (a : Word) : Prop := (a - field.1).toNat < field.2

/-- No two fields have an address in common. -/
def FieldsDisjoint (obj : Object) : Prop :=
  obj.fields.Pairwise fun f g => ∀ a, ¬ (Within f a ∧ Within g a)

/-- The symbols have names, and these have no address in common with a field. -/
def NamesApart (obj : Object) (mem : Memory) : Prop :=
  ∀ sec ∈ obj, sec.shType = SHT_SYMTAB → ∃ strings, obj[sec.shLink]? = some strings ∧
    ∀ sym ∈ sec.syms, ∀ a, InString mem (strings.seg + BitVec.ofNat 64 sym.stName) a →
      ∀ f ∈ obj.fields, ¬ Within f a

theorem strcmp_congr {p : Word} (name : List Byte)
    (h : ∀ a, InString mem p a → mem' a = mem a) : strcmp mem' p name = strcmp mem p name := by
  induction name generalizing p with
  | nil =>
    have hp : mem' p = mem p := h p ⟨0, by simp, fun j hj => absurd hj (Nat.not_lt_zero j)⟩
    unfold strcmp
    rw [hp]
  | cons c name ih =>
    have hp : mem' p = mem p := h p ⟨0, by simp, fun j hj => absurd hj (Nat.not_lt_zero j)⟩
    by_cases hc : mem p = c ∧ c ≠ 0
    · have hrest : strcmp mem' (p + 1) name = strcmp mem (p + 1) name := by
        apply ih
        rintro a ⟨i, rfl, hi⟩
        -- the rest of a string that does not end here is a part of it
        have hplace : ∀ j, p + 1 + BitVec.ofNat 64 j = p + BitVec.ofNat 64 (j + 1) := by
          intro j
          rw [Nat.add_comm, BitVec.ofNat_add, BitVec.add_assoc]
          rfl
        apply h
        refine ⟨i + 1, hplace i, ?_⟩
        intro j hj
        cases j with
        | zero =>
          rw [BitVec.ofNat_eq_ofNat, BitVec.add_zero, hc.1]
          exact hc.2
        | succ j =>
          rw [← hplace]
          exact hi j (Nat.lt_of_succ_lt_succ hj)
      unfold strcmp
      rw [hp, hrest]
    · have hleft : ∀ b : Bool, decide (mem p = c ∧ (c = 0 ∨ b = true)) = decide (mem p = c) := by
        intro b
        rw [decide_eq_decide]
        constructor
        · exact fun h => h.1
        · intro heq
          exact ⟨heq, Or.inl (by_contra fun h0 => hc ⟨heq, h0⟩)⟩
      unfold strcmp
      rw [hp, hleft, hleft]

/-- With the names as they were the same updates are for the same symbols. -/
theorem Object.assign_congr (obj : Object) (updates : List Binding)
    (h : ∀ sec ∈ obj, sec.shType = SHT_SYMTAB → ∀ sym ∈ sec.syms, ∀ a,
      InString mem (obj.nameAt sec.toShdr sym) a → mem' a = mem a) :
    obj.assign mem' updates = obj.assign mem updates := by
  unfold Object.assign
  apply List.map_congr_left
  intro sec hsec
  unfold Section.assign
  by_cases htab : sec.shType = SHT_SYMTAB
  · rw [if_pos htab, if_pos htab]
    congr 2
    apply List.map_congr_left
    intro sym hsym
    have hupdates : ∀ update : Binding, update.updates mem' (obj.nameAt sec.toShdr sym) sym =
        update.updates mem (obj.nameAt sec.toShdr sym) sym := by
      intro update
      unfold Binding.updates
      rw [strcmp_congr update.name (h sec hsec htab sym (List.mem_of_mem_drop hsym))]
    unfold ObjectFile.assign
    simp only [hupdates]
  · rw [if_neg htab, if_neg htab]

theorem entryPatch_isSome_iff {e : Entry} {p : Patch Word Byte} (h : entryPatch obj e = some p)
    (a : Word) : (p a).isSome ↔ ∃ f, e.field = some f ∧ Within f a := by
  unfold entryPatch at h
  unfold Entry.field
  cases hpre : prescription e.rela.type with
  | none =>
    rw [hpre] at h
    cases h
    simp
  | some field =>
    obtain ⟨n, c⟩ := field
    rw [hpre] at h
    obtain ⟨sym, -, h⟩ := Option.bind_eq_some_iff.mp h
    split at h
    · cases h
      rw [storePatch_isSome]
      simp [Within]
    · cases h

theorem touches_iff {ps : List (Patch Word Byte)} (h : obj.patches = some ps) (a : Word) :
    Touches ps a ↔ ∃ f ∈ obj.fields, Within f a := by
  unfold Object.patches at h
  unfold Object.fields
  generalize obj.entries = es at h
  induction es generalizing ps with
  | nil =>
    cases h
    simp [Touches]
  | cons e es ih =>
    rw [List.mapM_cons] at h
    obtain ⟨p, hp, h⟩ := Option.bind_eq_some_iff.mp h
    obtain ⟨ps, hps, h⟩ := Option.bind_eq_some_iff.mp h
    cases h
    have htail : Touches ps a ↔ ∃ f ∈ es.filterMap Entry.field, Within f a := ih hps
    rw [touches_cons, htail, entryPatch_isSome_iff hp]
    cases hfield : e.field with
    | none =>
      rw [List.filterMap_cons_none hfield]
      simp
    | some f =>
      rw [List.filterMap_cons_some hfield]
      simp

theorem doRelocations_outside {a : Word} (h : doRelocations obj mem = some mem')
    (ha : ∀ f ∈ obj.fields, ¬ Within f a) : mem' a = mem a := by
  obtain ⟨ps, hps, rfl⟩ := doRelocations_some.mp h
  apply applyAll_untouched
  rw [touches_iff hps]
  rintro ⟨f, hf, hfa⟩
  exact ha f hf hfa

theorem exists_of_forall₂_right {α β : Type} {R : α → β → Prop} {l : List α} {l' : List β}
    (h : List.Forall₂ R l l') {b : β} (hb : b ∈ l') : ∃ a ∈ l, R a b := by
  induction h with
  | nil => exact absurd hb List.not_mem_nil
  | cons hab _ ih =>
    rcases List.mem_cons.mp hb with rfl | hb
    · exact ⟨_, List.mem_cons_self, hab⟩
    · obtain ⟨a, ha, hr⟩ := ih hb
      exact ⟨a, List.mem_cons_of_mem _ ha, hr⟩

theorem SameTables.fields_eq (h : SameTables obj obj') : obj'.fields = obj.fields := by
  unfold Object.fields
  rw [h.entries_eq]

theorem NamesApart.named (h : NamesApart obj mem) : Named obj := fun sec hsec htab =>
  (h sec hsec htab).imp fun _ hs => hs.1

/-- The name of a symbol is not changed by relocations. -/
theorem NamesApart.unchanged (h : NamesApart obj mem₀) (hsame : SameTables obj obj')
    (hmem : ∀ a, (∀ f ∈ obj.fields, ¬ Within f a) → mem a = mem₀ a) {sec' : Section}
    (hsec' : sec' ∈ obj') (htab : sec'.shType = SHT_SYMTAB) {sym' : Sym} (hsym' : sym' ∈ sec'.syms)
    {a : Word} (ha : InString mem₀ (obj'.nameAt sec'.toShdr sym') a) : mem a = mem₀ a := by
  obtain ⟨sec, hsec, syms, rfl, hsyms⟩ := exists_of_forall₂_right hsame hsec'
  obtain ⟨sym, hsym, hsymsame⟩ := exists_of_forall₂_right hsyms hsym'
  obtain ⟨strings, hstrings, hapart⟩ := h sec hsec htab
  rw [hsame.nameAt_eq, obj.nameAt_congr _ hsymsame] at ha
  have hname : obj.nameAt sec.toShdr sym = strings.seg + BitVec.ofNat 64 sym.stName := by
    unfold Object.nameAt nameOf
    rw [hstrings]
    rfl
  rw [hname] at ha
  exact hmem a (hapart sym hsym a ha)

/-- A call of `mutate_bindings` leaves what doing the relocations once would have left,
for the updates up to then. -/
theorem mutateBindings_eq (h : NamesApart obj mem₀) {us : List Binding}
    (hmem : doRelocations (obj.assign mem₀ us) mem₀ = some mem) (vs : List Binding) :
    ∃ mem', doRelocations (obj.assign mem₀ (us ++ vs)) mem₀ = some mem' ∧
      mutateBindings vs (obj.assign mem₀ us) mem = some (obj.assign mem₀ (us ++ vs), mem') := by
  have hsame := sameTables_assign obj mem₀ us
  have houtside : ∀ a, (∀ f ∈ obj.fields, ¬ Within f a) → mem a = mem₀ a := by
    intro a ha
    rw [← hsame.fields_eq] at ha
    exact doRelocations_outside hmem ha
  have hassign : (obj.assign mem₀ us).assign mem vs = obj.assign mem₀ (us ++ vs) := by
    rw [← Object.assign_append]
    apply Object.assign_congr
    intro sec hsec htab sym hsym a ha
    exact h.unchanged hsame houtside hsec htab hsym ha
  have hagain := sameTables_assign (obj.assign mem₀ us) mem₀ vs
  rw [Object.assign_append] at hagain
  obtain ⟨mem', hmem₀, hmem'⟩ := hagain.doRelocations_again hmem
  refine ⟨mem', hmem₀, ?_⟩
  unfold mutateBindings
  rw [foldlM_mutateSyms (hsame.named h.named), hassign]
  show (doRelocations _ mem).bind _ = _
  rw [hmem']
  rfl

theorem mutateAll_eq (h : NamesApart obj mem₀) {us : List Binding}
    (hmem : doRelocations (obj.assign mem₀ us) mem₀ = some mem) (calls : List (List Binding)) :
    ∃ mem', doRelocations (obj.assign mem₀ (us ++ calls.flatten)) mem₀ = some mem' ∧
      mutateAll calls (obj.assign mem₀ us) mem =
        some (obj.assign mem₀ (us ++ calls.flatten), mem') := by
  induction calls generalizing us mem with
  | nil =>
    refine ⟨mem, ?_, ?_⟩
    · rw [List.flatten_nil, List.append_nil]
      exact hmem
    · rw [List.flatten_nil, List.append_nil]
      rfl
  | cons vs calls ih =>
    obtain ⟨mem₁, hmem₁, hcall⟩ := mutateBindings_eq h hmem vs
    obtain ⟨mem', hmem', hcalls⟩ := ih hmem₁
    rw [List.append_assoc] at hmem' hcalls
    refine ⟨mem', hmem', ?_⟩
    unfold mutateAll
    rw [hcall]
    exact hcalls

/-! ## What the fields hold -/

theorem forall₂_of_mapM {α β : Type} {f : α → Option β} {l : List α} {l' : List β}
    (h : l.mapM f = some l') : List.Forall₂ (fun a b => f a = some b) l l' := by
  induction l generalizing l' with
  | nil =>
    cases h
    exact .nil
  | cons a l ih =>
    rw [List.mapM_cons] at h
    obtain ⟨b, hb, h⟩ := Option.bind_eq_some_iff.mp h
    obtain ⟨bs, hbs, h⟩ := Option.bind_eq_some_iff.mp h
    cases h
    exact .cons hb (ih hbs)

theorem eq_map_of_forall₂ {α β : Type} {R : α → β → Prop} {g : α → β}
    (hR : ∀ a b, R a b → b = g a) {l : List α} {l' : List β} (h : List.Forall₂ R l l') :
    l' = l.map g := by
  induction h with
  | nil => rfl
  | cons hab _ ih => rw [List.map_cons, ← ih, hR _ _ hab]

theorem pairwise_of_forall₂ {α β : Type} {R : α → β → Prop} {S : α → α → Prop}
    {T : β → β → Prop} (hST : ∀ {a a' b b'}, R a b → R a' b' → S a a' → T b b') {l : List α}
    {l' : List β} (h : List.Forall₂ R l l') (hl : l.Pairwise S) : l'.Pairwise T := by
  induction h with
  | nil => exact .nil
  | cons hab hrest ih =>
    rw [List.pairwise_cons] at hl ⊢
    refine ⟨fun b' hb' => ?_, ih hl.2⟩
    obtain ⟨a', ha', hab'⟩ := exists_of_forall₂_right hrest hb'
    exact hST hab hab' (hl.1 a' ha')

theorem FieldsDisjoint.pairwise {ps : List (Patch Word Byte)} (h : FieldsDisjoint obj)
    (hps : obj.patches = some ps) :
    ps.Pairwise fun p q => ∀ a, ¬ ((p a).isSome ∧ (q a).isSome) := by
  unfold FieldsDisjoint Object.fields at h
  rw [List.pairwise_filterMap] at h
  apply pairwise_of_forall₂ _ (forall₂_of_mapM hps) h
  rintro e e' p p' hp hp' hdisjoint a ⟨ha, ha'⟩
  obtain ⟨f, hf, hfa⟩ := (entryPatch_isSome_iff hp a).mp ha
  obtain ⟨f', hf', hfa'⟩ := (entryPatch_isSome_iff hp' a).mp ha'
  exact hdisjoint f hf f' hf' a ⟨hfa, hfa'⟩

/-- A field that has no address in common with another one holds what its relocation has
written. -/
theorem doRelocations_field (hdisjoint : FieldsDisjoint obj)
    (h : doRelocations obj mem₀ = some mem) {e : Entry} (he : e ∈ obj.entries) {n : Nat}
    {c : Calculation} (hpre : prescription e.rela.type = some (n, c)) :
    ∃ sym, obj.sym e.link e.rela.symbol = some sym ∧
      X86.load mem e.rela.rOffset n = X86.low n (c.value sym e.addend e.rela.rOffset) := by
  obtain ⟨ps, hps, rfl⟩ := doRelocations_some.mp h
  obtain ⟨p, hp, hmem⟩ : ∃ p, entryPatch obj e = some p ∧ p ∈ ps := by
    obtain ⟨p, hmem, hp⟩ := exists_of_forall₂_right (forall₂_of_mapM hps).flip he
    exact ⟨p, hp, hmem⟩
  unfold entryPatch at hp
  rw [hpre] at hp
  obtain ⟨sym, hsym, hp⟩ := Option.bind_eq_some_iff.mp hp
  refine ⟨sym, hsym, ?_⟩
  split at hp
  · cases hp
    rw [← X86.load_store (width_le hpre) mem₀]
    apply X86.load_congr
    intro i hi
    have hplace := X86.toNat_add_sub e.rela.rOffset (i := i)
      (by have := width_le hpre; omega)
    rw [X86.store_inside _ (by omega)]
    apply applyAll_of_mem (hdisjoint.pairwise hps) hmem
    unfold storePatch
    rw [if_pos (by omega)]
  · cases hp

/-- After `store_addends` the addends are those of the file. -/
theorem storeAddends_eq (h : storeAddends mem obj₁ = some obj) {sec : Section} (hsec : sec ∈ obj)
    (hrel : sec.isRelocations) :
    sec.addends = sec.relas.map (originalAddend mem sec.shType) := by
  obtain ⟨sec₁, -, hstored⟩ := exists_of_forall₂_right (forall₂_of_mapM h) hsec
  by_cases hrela : sec₁.shType = SHT_RELA
  · rw [if_pos hrela] at hstored
    cases hstored
    apply List.map_congr_left
    intro rela _
    unfold originalAddend
    rw [if_pos hrela]
  · rw [if_neg hrela] at hstored
    by_cases hrel₁ : sec₁.shType = SHT_REL
    · rw [if_pos hrel₁] at hstored
      obtain ⟨addends, haddends, hstored⟩ := Option.bind_eq_some_iff.mp hstored
      cases hstored
      apply eq_map_of_forall₂ _ (forall₂_of_mapM haddends)
      intro rela addend hstored
      unfold originalAddend
      rw [if_neg hrela]
      exact storedAddend_eq hstored
    · rw [if_neg hrel₁] at hstored
      cases hstored
      unfold Shdr.isRelocations at hrel
      simp [hrel₁, hrela] at hrel

/-- The fields of the relocations hold what their types prescribe for the values of the
symbols and the addends that were loaded, and nothing else has changed. -/
structure Relocated (obj : Object) (mem₀ mem : Memory) : Prop where
  field : ∀ sec ∈ obj, sec.isRelocations → ∀ rela ∈ sec.relas, ∀ n c,
    prescription rela.type = some (n, c) →
      ∃ sym, obj.sym sec.shLink rela.symbol = some sym ∧ X86.load mem rela.rOffset n =
        X86.low n (c.value sym (originalAddend mem₀ sec.shType rela) rela.rOffset)
  outside : ∀ a, (∀ f ∈ obj.fields, ¬ Within f a) → mem a = mem₀ a

theorem relocated_of_doRelocations (hdisjoint : FieldsDisjoint obj)
    (haddends : ∀ sec ∈ obj, sec.isRelocations →
      sec.addends = sec.relas.map (originalAddend mem₀ sec.shType))
    (h : doRelocations obj mem₀ = some mem) : Relocated obj mem₀ mem where
  field sec hsec hrel rela hrela n c hpre := by
    have he : (⟨sec.shLink, rela, originalAddend mem₀ sec.shType rela⟩ : Entry) ∈ obj.entries := by
      apply List.mem_flatMap.mpr
      refine ⟨sec, hsec, ?_⟩
      unfold Section.entries
      rw [if_pos hrel, haddends sec hsec hrel, List.zip_map_right, List.map_map]
      apply List.mem_map.mpr
      refine ⟨(rela, rela), ?_, rfl⟩
      rw [List.zip_eq_zipWith, List.zipWith_self]
      exact List.mem_map.mpr ⟨rela, hrela, rfl⟩
    exact doRelocations_field hdisjoint h he hpre
  outside _ ha := doRelocations_outside h ha

theorem read_of_load {objsrc : List Byte} {place : Nat → Word} {m : Memory}
    {loaded : Object × Memory} (hload : load objsrc place m = some loaded) :
    ∃ objr mem₀, readObject objsrc place m = some (objr, mem₀) := by
  unfold load at hload
  obtain ⟨⟨objr, mem₀⟩, hread, -⟩ := Option.bind_eq_some_iff.mp hload
  exact ⟨objr, mem₀, hread⟩

theorem load_some {objsrc : List Byte} {place : Nat → Word} {m : Memory} {objr : Object}
    (hread : readObject objsrc place m = some (objr, mem₀))
    (hload : load objsrc place m = some (obj, mem)) :
    (∃ obj₁, storeAddends mem₀ obj₁ = some obj) ∧ doRelocations obj mem₀ = some mem := by
  unfold load at hload
  obtain ⟨loaded, hloaded, hload⟩ := Option.bind_eq_some_iff.mp hload
  rw [hread] at hloaded
  cases hloaded
  obtain ⟨obj₁, -, hload⟩ := Option.bind_eq_some_iff.mp hload
  obtain ⟨obj₂, hstore, hload⟩ := Option.bind_eq_some_iff.mp hload
  obtain ⟨mem₁, hmem, hload⟩ := Option.bind_eq_some_iff.mp hload
  cases hload
  exact ⟨⟨obj₁, hstore⟩, hmem⟩

theorem SameTables.addends (h : SameTables obj obj')
    (haddends : ∀ sec ∈ obj, sec.isRelocations →
      sec.addends = sec.relas.map (originalAddend mem₀ sec.shType)) :
    ∀ sec ∈ obj', sec.isRelocations →
      sec.addends = sec.relas.map (originalAddend mem₀ sec.shType) := by
  intro sec' hsec' hrel
  obtain ⟨sec, hsec, syms, rfl, -⟩ := exists_of_forall₂_right h hsec'
  exact haddends sec hsec hrel

/-- After any calls of `mutate_bindings` every symbol has the value that all the updates
together give it, the relocations are done for these values and the addends of the file,
and the last call again changes nothing. -/
theorem mutateAll_replays {objsrc : List Byte} {place : Nat → Word} {m : Memory} {objr : Object}
    (hread : readObject objsrc place m = some (objr, mem₀))
    (hload : load objsrc place m = some (obj, mem)) (hdisjoint : FieldsDisjoint obj)
    (hnames : NamesApart obj mem₀) (calls : List (List Binding)) :
    ∃ mem', mutateAll calls obj mem = some (obj.assign mem₀ calls.flatten, mem') ∧
      Relocated (obj.assign mem₀ calls.flatten) mem₀ mem' ∧
      ∀ last ∈ calls.getLast?, mutateBindings last (obj.assign mem₀ calls.flatten) mem' =
        some (obj.assign mem₀ calls.flatten, mem') := by
  obtain ⟨⟨obj₁, hstore⟩, hmem⟩ := load_some hread hload
  rw [← Object.assign_nil obj mem₀] at hmem
  obtain ⟨mem', hmem', hcalls⟩ := mutateAll_eq hnames hmem calls
  rw [Object.assign_nil, List.nil_append] at hcalls
  rw [List.nil_append] at hmem'
  have hsame := sameTables_assign obj mem₀ calls.flatten
  refine ⟨mem', hcalls, ?_, ?_⟩
  · apply relocated_of_doRelocations _ _ hmem'
    · unfold FieldsDisjoint
      rw [hsame.fields_eq]
      exact hdisjoint
    · exact hsame.addends fun sec hsec hrel => storeAddends_eq hstore hsec hrel
  · intro last hlast
    obtain ⟨mem'', hmem'', hagain⟩ := mutateBindings_eq hnames hmem' last
    obtain ⟨before, rfl⟩ := List.getLast?_eq_some_iff.mp hlast
    have hflatten : (before ++ [last]).flatten = before.flatten ++ last := by
      rw [List.flatten_append, List.flatten_singleton]
    rw [hflatten] at hmem' hmem'' hagain ⊢
    rw [Object.assign_twice] at hmem'' hagain
    rw [hagain, Option.some.inj (hmem''.symm.trans hmem')]

/-! ## Small files -/

def zeros (n : Nat) : List Byte := List.replicate n 0

def headerBytes (shnum : Word) : List Byte :=
  [[0x7F, 0x45, 0x4C, 0x46, 2, 1], zeros 34, X86.bytesOf 8 64, zeros 10, X86.bytesOf 2 64,
    X86.bytesOf 2 shnum, zeros 2].flatten

def shdrBytes (type offset size link info entsize : Word) : List Byte :=
  [zeros 4, X86.bytesOf 4 type, zeros 16, X86.bytesOf 8 offset, X86.bytesOf 8 size,
    X86.bytesOf 4 link, X86.bytesOf 4 info, zeros 8, X86.bytesOf 8 entsize].flatten

/-- A global symbol that is not defined. -/
def symBytes (name : Word) : List Byte := [X86.bytesOf 4 name, [0x10], zeros 19].flatten

/-- A file with the undefined symbols `a` and `b`, a section of eight bytes, and a
relocation of type `R_X86_64_8` for `a` at the given offset of the section with the given
index. -/
def smallFile (info offset : Word) : List Byte :=
  [headerBytes 5, shdrBytes 0 0 0 0 0 0, shdrBytes 2 384 72 2 0 24, shdrBytes 3 456 5 0 0 0,
    shdrBytes 1 461 8 0 0 0, shdrBytes 4 469 24 1 info 24,
    zeros 24, symBytes 1, symBytes 3, [0, 0x61, 0, 0x62, 0], zeros 8,
    X86.bytesOf 8 offset, X86.bytesOf 8 (1 <<< 32 ||| 14), zeros 8].flatten

def smallPlace (i : Nat) : Word := BitVec.ofNat 64 (0x1000 * (i + 1))

/-- A string that ends at the latest `k` bytes on has at most `k + 1` addresses. -/
theorem InString.exists_le {p a : Word} {k : Nat} (h : InString mem p a)
    (hk : mem (p + BitVec.ofNat 64 k) = 0) : ∃ i ≤ k, a = p + BitVec.ofNat 64 i := by
  obtain ⟨i, ha, hi⟩ := h
  exact ⟨i, Nat.le_of_not_lt fun hlt => hi k hlt hk, ha⟩

/-- What names the symbols of a section. -/
def Section.naming (sec : Section) : Nat × Nat × Word × List Nat :=
  (sec.shType, sec.shLink, sec.seg, sec.syms.map Sym.stName)

/-- A file with the undefined symbols `a` and `b` and a section of sixteen bytes with the number 5
at its start, and relocations without addends of types `R_X86_64_64` for `a` at the start and
`R_X86_64_32` for `b` after eight bytes. -/
def addendFile : List Byte :=
  [headerBytes 5, shdrBytes 0 0 0 0 0 0, shdrBytes 2 384 72 2 0 24, shdrBytes 3 456 5 0 0 0,
    shdrBytes 1 461 16 0 0 0, shdrBytes 9 477 32 1 3 16,
    zeros 24, symBytes 1, symBytes 3, [0, 0x61, 0, 0x62, 0], X86.bytesOf 8 5, zeros 8,
    zeros 8, X86.bytesOf 8 (1 <<< 32 ||| 1), X86.bytesOf 8 8,
    X86.bytesOf 8 (2 <<< 32 ||| 10)].flatten

theorem namesApart_addendFile (hobj : obj.map Section.naming = [(0, 0, 0x1000, []),
      (2, 2, 0x2000, [0, 1, 3]), (3, 0, 0x3000, []), (1, 0, 0x4000, []), (9, 1, 0x5000, [])])
    (hfields : obj.fields = [(0x4000, 8), (0x4008, 4)]) (h0 : mem 0x3000 = 0)
    (h2 : mem 0x3002 = 0) (h4 : mem 0x3004 = 0) : NamesApart obj mem := by
  intro sec hsec htab
  have hnaming : sec.naming ∈ obj.map Section.naming := List.mem_map_of_mem hsec
  obtain ⟨hlink, hnames⟩ : sec.shLink = 2 ∧ sec.syms.map Sym.stName = [0, 1, 3] := by
    rw [hobj] at hnaming
    unfold Section.naming at hnaming
    simp [htab] at hnaming
    exact ⟨hnaming.1, hnaming.2.2⟩
  have hstrings : (obj.map Section.naming)[2]? = some (3, 0, 0x3000, []) := by
    rw [hobj]
    rfl
  rw [List.getElem?_map] at hstrings
  obtain ⟨strings, hstrings, hrow⟩ := Option.map_eq_some_iff.mp hstrings
  have hseg : strings.seg = 0x3000 := congrArg (fun row => row.2.2.1) hrow
  rw [hlink]
  refine ⟨strings, hstrings, ?_⟩
  intro sym hsym a ha
  rw [hfields]
  have hname : sym.stName ∈ sec.syms.map Sym.stName := List.mem_map_of_mem hsym
  rw [hnames] at hname
  rw [hseg] at ha
  generalize sym.stName = name at ha hname
  simp only [List.mem_cons, List.not_mem_nil, or_false] at hname
  -- the strings end before the fields begin
  have hlow : ∃ i ≤ 4, a = 0x3000 + BitVec.ofNat 64 i := by
    rcases hname with rfl | rfl | rfl
    · obtain ⟨i, hi, rfl⟩ := ha.exists_le (k := 0) h0
      obtain rfl := Nat.le_zero.mp hi
      exact ⟨0, by omega, rfl⟩
    · obtain ⟨i, hi, rfl⟩ := ha.exists_le (k := 1) h2
      rcases Nat.le_one_iff_eq_zero_or_eq_one.mp hi with rfl | rfl
      · exact ⟨1, by omega, rfl⟩
      · exact ⟨2, by omega, rfl⟩
    · obtain ⟨i, hi, rfl⟩ := ha.exists_le (k := 1) h4
      rcases Nat.le_one_iff_eq_zero_or_eq_one.mp hi with rfl | rfl
      · exact ⟨3, by omega, rfl⟩
      · exact ⟨4, by omega, rfl⟩
  obtain ⟨i, hi, rfl⟩ := hlow
  have hapart : ∀ i ≤ 4, ∀ f ∈ [((0x4000 : Word), 8), (0x4008, 4)],
      ¬ Within f (0x3000 + BitVec.ofNat 64 i) := by
    unfold Within
    decide
  exact hapart i hi

/-- Three calls for two symbols: the fields have the last values, and the number 5 that was in the
first one is still added. -/
theorem mutateAll_replays_addendFile :
    let calls : List (List Binding) :=
      [[⟨[0x61], 0x1234⟩], [⟨[0x62], 0x5678⟩, ⟨[0x61], 0x1111⟩], [⟨[0x61], 0x5000⟩]]
    ∃ obj mem₀ mem mem',
      load addendFile smallPlace (fun _ => 0) = some (obj, mem) ∧
      mutateAll calls obj mem = some (obj.assign mem₀ calls.flatten, mem') ∧
      Relocated (obj.assign mem₀ calls.flatten) mem₀ mem' ∧
      X86.load mem' 0x4000 8 = 0x5005 ∧ X86.load mem' 0x4008 4 = 0x5678 := by
  intro calls
  have hnaming : (load addendFile smallPlace (fun _ => 0)).map (·.1.map Section.naming) =
      some [(0, 0, 0x1000, []), (2, 2, 0x2000, [0, 1, 3]), (3, 0, 0x3000, []),
        (1, 0, 0x4000, []), (9, 1, 0x5000, [])] := by decide +kernel
  have hfields : (load addendFile smallPlace (fun _ => 0)).map (·.1.fields) =
      some [(0x4000, 8), (0x4008, 4)] := by decide +kernel
  have hends : (readObject addendFile smallPlace (fun _ => 0)).map
      (fun r => [r.2 0x3000, r.2 0x3002, r.2 0x3004]) = some [0, 0, 0] := by decide +kernel
  have hvalues : ((load addendFile smallPlace (fun _ => 0)).bind fun loaded =>
      (mutateAll calls loaded.1 loaded.2).map fun called =>
        (X86.load called.2 0x4000 8, X86.load called.2 0x4008 4)) = some (0x5005, 0x5678) := by
    decide +kernel
  obtain ⟨⟨obj, mem⟩, hload, hnaming⟩ := Option.map_eq_some_iff.mp hnaming
  rw [hload, Option.map_some, Option.some.injEq] at hfields
  obtain ⟨⟨objr, mem₀⟩, hread, hends⟩ := Option.map_eq_some_iff.mp hends
  obtain ⟨h0, h2, h4⟩ : mem₀ 0x3000 = 0 ∧ mem₀ 0x3002 = 0 ∧ mem₀ 0x3004 = 0 := by
    simpa using hends
  have hdisjoint : FieldsDisjoint obj := by
    unfold FieldsDisjoint
    rw [hfields, List.pairwise_pair]
    rintro a ⟨h, h'⟩
    unfold Within at h h'
    bv_omega
  obtain ⟨mem', hcalls, hdone, -⟩ := mutateAll_replays hread hload hdisjoint
    (namesApart_addendFile hnaming hfields h0 h2 h4) calls
  rw [hload, Option.bind_some, hcalls, Option.map_some, Option.some.injEq, Prod.mk.injEq]
    at hvalues
  exact ⟨obj, mem₀, mem, mem', hload, hcalls, hdone, hvalues⟩

/-- With the field in the name of `b`, the first call for `a` makes `b` another `a`, and the
same call again gives it a value too. -/
theorem mutateBindings_renames :
    ¬ ∀ (objsrc : List Byte) (place : Nat → Word) (m : Memory) (objr : Object) (mem₀ : Memory)
      (obj : Object) (mem : Memory), readObject objsrc place m = some (objr, mem₀) →
      load objsrc place m = some (obj, mem) → FieldsDisjoint obj →
      ∀ (calls : List (List Binding)) (obj' : Object) (mem' : Memory),
        mutateAll calls obj mem = some (obj', mem') → Relocated obj' mem₀ mem' ∧
          ∀ last ∈ calls.getLast?, mutateBindings last obj' mem' = some (obj', mem') := by
  intro h
  let updates : List Binding := [⟨[0x61], 0x61⟩]
  have hfields : (load (smallFile 2 3) smallPlace (fun _ => 0)).map (·.1.fields) =
      some [(0x3003, 1)] := by decide +kernel
  have hagain : ((load (smallFile 2 3) smallPlace (fun _ => 0)).bind fun loaded =>
      (mutateAll [updates] loaded.1 loaded.2).bind fun called =>
        (mutateBindings updates called.1 called.2).map fun again => decide (again.1 = called.1)) =
      some false := by decide +kernel
  obtain ⟨⟨obj, mem⟩, hload, hfields⟩ := Option.map_eq_some_iff.mp hfields
  obtain ⟨objr, mem₀, hread⟩ := read_of_load hload
  rw [hload, Option.bind_some] at hagain
  obtain ⟨⟨obj', mem'⟩, hcalls, hagain⟩ := Option.bind_eq_some_iff.mp hagain
  have hdisjoint : FieldsDisjoint obj := by
    unfold FieldsDisjoint
    rw [show obj.fields = [(0x3003, 1)] from hfields]
    exact List.pairwise_singleton _ _
  have hlast := (h _ _ _ _ _ _ _ hread hload hdisjoint _ _ _ hcalls).2 updates rfl
  change (mutateBindings updates obj' mem').map _ = _ at hagain
  rw [hlast] at hagain
  simp at hagain

end L2.Bootstrap.ObjectFile
