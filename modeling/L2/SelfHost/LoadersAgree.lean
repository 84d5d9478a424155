import L2.Bootstrap.NameResolution
import L2.SelfHost.MutateBindings

/-!
# The two loaders

The self-hosted loader and the one in C do the same to an object, except that for a
relocation without an addend `store-addends` keeps the address of the field where
`store_addends` keeps what is there.  So they agree on a file, for all calls of
`mutate-bindings` that both come back from, if and only if the fields of these relocations
hold their own addresses (`loaders_agree_iff`).
-/

namespace L2.SelfHost.ObjectFile

open X86 (Word Byte Memory)
open Bootstrap.ObjectFile

variable {obj obj' obj₁ obj₂ : Object} {mem mem' m₁ m₂ : Memory}

/-! ## Values of a width -/

theorem low_eq_iff {n : Nat} {v w : Word} :
    X86.low n v = X86.low n w ↔ v.setWidth (8 * n) = w.setWidth (8 * n) := by
  unfold X86.low
  constructor
  · intro h
    apply BitVec.eq_of_getLsbD_eq
    intro j hj
    by_cases hlt : j < 64
    · have hbit := congrArg (·.getLsbD j) h
      simpa [BitVec.getLsbD_setWidth, hlt] using hbit
    · rw [BitVec.getLsbD_setWidth, BitVec.getLsbD_setWidth,
        BitVec.getLsbD_of_ge v j (by omega), BitVec.getLsbD_of_ge w j (by omega)]
  · exact fun h => by rw [h]

theorem low_add {n : Nat} (hn : n ≤ 8) {a b : Word} (h : X86.low n a = X86.low n b) (v : Word) :
    X86.low n (v + a) = X86.low n (v + b) := by
  rw [low_eq_iff] at h ⊢
  rw [BitVec.setWidth_add _ _ (by omega), BitVec.setWidth_add _ _ (by omega), h]

theorem low_sub {n : Nat} (hn : n ≤ 8) {a b : Word} (h : X86.low n a = X86.low n b) (v : Word) :
    X86.low n (a - v) = X86.low n (b - v) := by
  rw [low_eq_iff] at h ⊢
  rw [BitVec.sub_eq_add_neg, BitVec.sub_eq_add_neg, BitVec.setWidth_add _ _ (by omega),
    BitVec.setWidth_add _ _ (by omega), h]

theorem low_overwrite {n : Nat} (hn : n ≤ 8) (val cell : Word) :
    X86.low n (overwrite n val cell) = X86.low n val := by
  unfold overwrite
  rw [X86.low_load hn, X86.load_store hn]

/-! ## Agreement -/

/-- The addends are the same as far as the relocation uses them. -/
def AddendsAgree (rela : Rela) (a a' : Word) : Prop :=
  ∀ n c, prescription rela.type = some (n, c) → c ≠ .symbol → X86.low n a = X86.low n a'

/-- The sections are the same, and their addends are as far as they are used. -/
structure SectionsAgree (sec sec' : Section) : Prop where
  rest : { sec with addends := [] } = { sec' with addends := [] }
  addends : sec.isRelocations → List.Forall₂ (fun e e' => e.1 = e'.1 ∧ AddendsAgree e.1 e.2 e'.2)
    (sec.relas.zip sec.addends) (sec'.relas.zip sec'.addends)

/-- The objects have the same sections and the same symbol values, and they keep the same
addends. -/
def ObjectsAgree : Object → Object → Prop := List.Forall₂ SectionsAgree

theorem value_agree {sym : Sym} {a a' place : Word} {n : Nat} {c : Calculation} (hn : n ≤ 8)
    (h : c ≠ .symbol → X86.low n a = X86.low n a') :
    X86.low n (c.value sym a place) = X86.low n (c.value sym a' place) := by
  cases c with
  | symbolAddend => exact low_add hn (h nofun) _
  | symbolAddendPlace => exact low_sub hn (low_add hn (h nofun) _) _
  | symbol => rfl
  | sizeAddend => exact low_add hn (h nofun) _

theorem checkRange_ok {type : Nat} {val v : Word} (h : checkRange type val = .ok v) : v = val := by
  rw [checkRange_eq] at h
  split at h
  · cases h
    rfl
  · cases h

/-- A relocation that both loaders come back from, for addends that agree. -/
theorem doRelocation_agree {link : Nat} {rela : Rela} {a a' : Word}
    (hsym : obj₁.sym link rela.symbol = obj₂.sym link rela.symbol) (hagree : AddendsAgree rela a a')
    (h : Bootstrap.ObjectFile.doRelocation obj₁ link rela a mem = some m₁)
    (h' : doRelocation obj₂ link rela a' mem = .ok m₂) : m₁ = m₂ := by
  rw [Bootstrap.ObjectFile.doRelocation_eq] at h
  rw [doRelocation_eq] at h'
  cases hpre : prescription rela.type with
  | none =>
    rw [hpre] at h h'
    change (if rela.type = R_X86_64_NONE then Except.ok mem else Except.error Fault.handler) =
      Except.ok m₂ at h'
    cases h
    split at h'
    · cases h'
      rfl
    · cases h'
  | some field =>
    obtain ⟨n, c⟩ := field
    rw [hpre] at h h'
    obtain ⟨sym, hfound, h⟩ := Option.bind_eq_some_iff.mp h
    rw [← hsym, hfound] at h'
    change (checkRange _ _).bind _ = _ at h'
    cases hval : checkRange rela.type (c.value sym a' rela.rOffset) with
    | error fault =>
      rw [hval] at h'
      cases h'
    | ok val =>
      rw [hval, ok_bind, checkRange_ok hval] at h'
      unfold store memcpy at h'
      unfold memcpy at h
      split at h
      · cases h
        split at h'
        · cases h'
          exact X86.store_congr (value_agree (width_le hpre) (hagree n c hpre)) _ _
        · cases h'
      · cases h

theorem SectionsAgree.parts {sec sec' : Section} (h : SectionsAgree sec sec') :
    sec.toShdr = sec'.toShdr ∧ sec.syms = sec'.syms ∧ sec.relas = sec'.relas ∧
      sec.seg = sec'.seg := by
  have hrest := h.rest
  simp only [Section.mk.injEq, true_and] at hrest
  exact hrest

theorem ObjectsAgree.sym_eq (h : ObjectsAgree obj₁ obj₂) (link index : Nat) :
    obj₁.sym link index = obj₂.sym link index := by
  have hrel := forall₂_getElem? h link
  unfold Object.sym
  revert hrel
  generalize obj₁[link]? = a, obj₂[link]? = b
  rintro (hsec | -)
  · show Option.bind (some _) _ = Option.bind (some _) _
    rw [Option.bind_some, Option.bind_some, hsec.parts.2.1]
  · rfl

theorem ObjectsAgree.entries (h : ObjectsAgree obj₁ obj₂) :
    List.Forall₂ (fun e e' : Entry => e.link = e'.link ∧ e.rela = e'.rela ∧
      AddendsAgree e.rela e.addend e'.addend) obj₁.entries obj₂.entries := by
  unfold Object.entries
  induction h with
  | nil => exact .nil
  | @cons sec sec' _ _ hsec _ ih =>
    rw [List.flatMap_cons, List.flatMap_cons]
    apply List.rel_append _ ih
    have hshdr := hsec.parts.1
    unfold Section.entries
    rw [← hshdr]
    split
    · rename_i hrel
      rw [List.forall₂_map_left_iff, List.forall₂_map_right_iff]
      apply (hsec.addends hrel).imp
      rintro e e' ⟨hrela, hagree⟩
      exact ⟨rfl, hrela, hagree⟩
    · exact .nil

/-- All relocations, from the same memory. -/
theorem doRelocations_agree (hobj : ObjectsAgree obj₁ obj₂)
    (h : Bootstrap.ObjectFile.doRelocations obj₁ mem = some m₁)
    (h' : doRelocations obj₂ mem = .ok m₂) : m₁ = m₂ := by
  rw [doRelocations_entries] at h'
  rw [Bootstrap.ObjectFile.doRelocations_entries] at h
  have hentries := hobj.entries
  generalize obj₁.entries = es, obj₂.entries = es' at h h' hentries
  induction hentries generalizing mem with
  | nil =>
    cases h
    cases h'
    rfl
  | @cons e e' es es' he _ ih =>
    obtain ⟨hlink, hrela, hagree⟩ := he
    rw [List.foldlM_cons] at h h'
    obtain ⟨mem₁, hdone, h⟩ := Option.bind_eq_some_iff.mp h
    cases hdone' : doRelocation obj₂ e'.link e'.rela e'.addend mem with
    | error fault =>
      rw [hdone'] at h'
      cases h'
    | ok mem₂ =>
      rw [hdone'] at h'
      rw [← hlink, ← hrela] at hdone'
      obtain rfl := doRelocation_agree (hobj.sym_eq _ _) hagree hdone hdone'
      exact ih h h'

/-! ## Updates -/

theorem mutateSym_eq_assign {update : Binding} {shdr : Shdr} {sym sym' : Sym}
    (h : Bootstrap.ObjectFile.mutateSym obj mem update shdr sym = some sym') :
    sym' = assign mem (obj.nameAt shdr sym) [update] sym := by
  obtain ⟨name, hname, h⟩ := Option.bind_eq_some_iff.mp h
  have hat : obj.nameAt shdr sym = name := by
    unfold Object.nameAt
    rw [hname]
    rfl
  rw [hat, assign_singleton]
  exact (Option.some.inj h).symm

/-- The loops of `mutate_bindings` that come back do what `assign` says. -/
theorem mutateSyms_eq_assign {update : Binding}
    (h : Bootstrap.ObjectFile.mutateSyms obj mem update = some obj') :
    obj' = obj.assign mem [update] := by
  apply eq_map_of_forall₂ _ (forall₂_of_mapM h)
  intro sec sec' hsec
  unfold Section.assign
  by_cases htab : sec.shType = SHT_SYMTAB
  · rw [if_pos htab] at hsec ⊢
    obtain ⟨syms, hsyms, hsec⟩ := Option.bind_eq_some_iff.mp hsec
    cases hsec
    have hassigned : syms = (sec.syms.drop 1).map fun sym =>
        assign mem (obj.nameAt sec.toShdr sym) [update] sym := by
      apply eq_map_of_forall₂ _ (forall₂_of_mapM hsyms)
      intro sym sym' hsym
      exact mutateSym_eq_assign hsym
    rw [hassigned]
  · rw [if_neg htab] at hsec ⊢
    exact (Option.some.inj hsec).symm

theorem foldlM_eq_assign {updates : List Binding}
    (h : updates.foldlM (fun obj update => Bootstrap.ObjectFile.mutateSyms obj mem update) obj =
      some obj') : obj' = obj.assign mem updates := by
  induction updates generalizing obj with
  | nil =>
    rw [Object.assign_nil]
    exact (Option.some.inj h).symm
  | cons update updates ih =>
    rw [List.foldlM_cons] at h
    obtain ⟨obj₁, h₁, h⟩ := Option.bind_eq_some_iff.mp h
    rw [ih h, mutateSyms_eq_assign h₁, Object.assign_append]
    rfl

/-- Of elements with different keys at most one has a given property, if those that have it
have the same key. -/
theorem head?_filter_eq_getLast? {α β : Type} {key : α → β} {p : α → Bool} {l : List α}
    (hdistinct : (l.map key).Nodup) (hkey : ∀ a ∈ l, ∀ b ∈ l, p a → p b → key a = key b) :
    (l.filter p).head? = (l.filter p).getLast? := by
  induction l with
  | nil => rfl
  | cons a l ih =>
    rw [List.map_cons, List.nodup_cons] at hdistinct
    rw [List.filter_cons]
    split
    · rename_i ha
      have hrest : l.filter p = [] := by
        rw [List.filter_eq_nil_iff]
        intro b hb hpb
        apply hdistinct.1
        rw [hkey a List.mem_cons_self b (List.mem_cons_of_mem a hb) ha hpb]
        exact List.mem_map_of_mem hb
      rw [hrest]
      rfl
    · exact ih hdistinct.2 fun b hb b' hb' =>
        hkey b (List.mem_cons_of_mem a hb) b' (List.mem_cons_of_mem a hb')

/-- Looking a name up in a table is as doing the updates of the table in order. -/
theorem address?_eq (updates : Updates) (mem : Memory) (name : Word) (sym : Sym) :
    { sym with stValue := (updates.address? mem name sym).getD sym.stValue } =
      assign mem name updates.bindings sym := by
  have hupdates : ∀ update : Binding, update.updates mem name sym =
      (isMutable sym && strcmp mem name update.name) := by
    intro update
    rw [Bool.eq_iff_iff]
    unfold Binding.updates isMutable
    simp only [decide_eq_true_eq, Bool.and_eq_true]
    exact and_comm
  unfold assign Updates.address? Updates.find?
  congr 2
  simp only [hupdates]
  cases isMutable sym with
  | false => simp
  | true =>
    simp only [Bool.true_and, if_true]
    rw [← List.head?_filter, head?_filter_eq_getLast? updates.distinct]
    intro a _ b _ ha hb
    exact (strcmp_iff_text hb a.name).mp ha

theorem mutateSyms_self_eq_assign {updates : Updates}
    (h : mutateSyms obj mem updates = some obj') : obj' = obj.assign mem updates.bindings := by
  apply eq_map_of_forall₂ _ (mutateSyms_some h)
  rintro sec sec' ⟨syms, rfl, hother, htable⟩
  unfold Section.assign
  by_cases htab : sec.shType = SHT_SYMTAB
  · rw [if_pos htab]
    obtain ⟨rest, rfl, hrest⟩ := htable htab
    have hassigned : ∀ sym sym', mutateSym obj mem updates sec.toShdr sym = some sym' →
        sym' = assign mem (obj.nameAt sec.toShdr sym) updates.bindings sym := by
      intro sym sym' hsym
      obtain ⟨name, hname, rfl⟩ := mutateSym_some hsym
      rw [address?_eq]
      unfold Object.nameAt
      rw [hname]
      rfl
    rw [eq_map_of_forall₂ hassigned hrest]
  · rw [if_neg htab, hother htab]

theorem ObjectsAgree.nameAt_eq (h : ObjectsAgree obj₁ obj₂) (shdr : Shdr) :
    obj₁.nameAt shdr = obj₂.nameAt shdr := by
  have hrel := forall₂_getElem? h shdr.shLink
  funext sym
  unfold Object.nameAt nameOf
  revert hrel
  generalize obj₁[shdr.shLink]? = a, obj₂[shdr.shLink]? = b
  rintro (hsec | -)
  · show Option.getD (some _) _ = Option.getD (some _) _
    rw [hsec.parts.2.2.2]
  · rfl

theorem SectionsAgree.assign {sec sec' : Section} (h : SectionsAgree sec sec') (mem : Memory)
    (name : Sym → Word) (updates : List Binding) :
    SectionsAgree (sec.assign mem name updates) (sec'.assign mem name updates) := by
  obtain ⟨hshdr, hsyms, hrelas, hseg⟩ := h.parts
  unfold Section.assign
  by_cases htab : sec.shType = SHT_SYMTAB
  · have htab' : sec'.shType = SHT_SYMTAB := by rw [← hshdr]; exact htab
    rw [if_pos htab, if_pos htab']
    constructor
    · simp only [hshdr, hsyms, hrelas, hseg]
    · exact h.addends
  · have htab' : sec'.shType ≠ SHT_SYMTAB := by rw [← hshdr]; exact htab
    rw [if_neg htab, if_neg htab']
    exact h

/-- Objects that agree still do after the same updates. -/
theorem ObjectsAgree.assign (h : ObjectsAgree obj₁ obj₂) (mem : Memory) (updates : List Binding) :
    ObjectsAgree (obj₁.assign mem updates) (obj₂.assign mem updates) := by
  unfold Object.assign ObjectsAgree
  rw [List.forall₂_map_left_iff, List.forall₂_map_right_iff]
  have hname := h.nameAt_eq
  apply h.imp
  intro sec sec' hsec
  rw [hname, hsec.parts.1]
  exact hsec.assign mem _ updates

/-- One call of `mutate-bindings` that both loaders come back from. -/
theorem mutateBindings_agree (hobj : ObjectsAgree obj₁ obj₂) {updates : Updates}
    {o₁ o₂ : Object} (h : Bootstrap.ObjectFile.mutateBindings updates.bindings obj₁ mem =
      some (o₁, m₁)) (h' : mutateBindings updates obj₂ mem = .ok (o₂, m₂)) :
    ObjectsAgree o₁ o₂ ∧ m₁ = m₂ := by
  obtain ⟨o, hupdates, h⟩ := Option.bind_eq_some_iff.mp h
  obtain ⟨m, hmem, h⟩ := Option.bind_eq_some_iff.mp h
  cases h
  obtain ⟨hupdates', hmem'⟩ := mutateBindings_ok h'
  obtain rfl := foldlM_eq_assign hupdates
  obtain rfl := mutateSyms_self_eq_assign hupdates'
  have hagree := hobj.assign mem updates.bindings
  exact ⟨hagree, doRelocations_agree hagree hmem hmem'⟩

/-- Any calls. -/
theorem mutateAll_agree (hobj : ObjectsAgree obj₁ obj₂) {calls : List Updates} {o₁ o₂ : Object}
    (h : Bootstrap.ObjectFile.mutateAll (calls.map Updates.bindings) obj₁ mem = some (o₁, m₁))
    (h' : mutateAll calls obj₂ mem = .ok (o₂, m₂)) : ObjectsAgree o₁ o₂ ∧ m₁ = m₂ := by
  induction calls generalizing obj₁ obj₂ mem with
  | nil =>
    cases h
    cases h'
    exact ⟨hobj, rfl⟩
  | cons updates calls ih =>
    rw [List.map_cons] at h
    unfold Bootstrap.ObjectFile.mutateAll at h
    unfold mutateAll at h'
    obtain ⟨⟨o, m⟩, hcall, h⟩ := Option.bind_eq_some_iff.mp h
    cases hcall' : mutateBindings updates obj₂ mem with
    | error fault =>
      rw [hcall'] at h'
      cases h'
    | ok out =>
      obtain ⟨o', m'⟩ := out
      rw [hcall'] at h'
      obtain ⟨hagree, rfl⟩ := mutateBindings_agree hobj hcall hcall'
      exact ih hagree h h'

/-! ## Addends -/

/-- If the addend of the relocation is used, its field holds the low bytes of its address. -/
def FieldHoldsAddress (mem : Memory) (rela : Rela) : Prop :=
  ∀ n c, prescription rela.type = some (n, c) → c ≠ .symbol →
    X86.load mem rela.rOffset n = X86.low n rela.rOffset

theorem storedAddend_low {cell a : Word} {rela : Rela} (h : storedAddend cell rela = .ok a)
    {n : Nat} {c : Calculation} (hpre : prescription rela.type = some (n, c)) :
    X86.low n a = X86.low n rela.rOffset := by
  have ha : a = overwrite n rela.rOffset cell := by
    unfold storedAddend at h
    unfold prescription at hpre
    split at h <;> rename_i htype <;>
      first
        | cases h; rw [htype] at hpre; cases hpre; rfl
        | cases h
  rw [ha, low_overwrite (width_le hpre)]

/-- The addends of one relocation agree if and only if its field holds its address. -/
theorem addendsAgree_iff {rela : Rela} {cell a a' : Word}
    (h : Bootstrap.ObjectFile.storedAddend mem rela = some a)
    (h' : storedAddend cell rela = .ok a') :
    AddendsAgree rela a a' ↔ FieldHoldsAddress mem rela := by
  have ha := storedAddend_eq h
  apply forall_congr'
  intro n
  apply forall_congr'
  intro c
  apply imp_congr_right
  intro hpre
  rw [hpre] at ha
  rw [storedAddend_low h' hpre, ha]
  show (c ≠ .symbol → X86.low n (X86.load mem rela.rOffset n) = _) ↔ _
  rw [X86.low_load (Nat.le_refl n)]

/-- Two lists that are made from one list agree if and only if its elements are such that
what is made from them does. -/
theorem forall₂_iff_of_made {α β γ : Type} {R : α → β → Prop} {S : α → γ → Prop}
    {T : β → γ → Prop} {P : α → Prop} (hP : ∀ a b c, R a b → S a c → (T b c ↔ P a))
    {l : List α} {l₁ : List β} {l₂ : List γ} (h₁ : List.Forall₂ R l l₁)
    (h₂ : List.Forall₂ S l l₂) : List.Forall₂ T l₁ l₂ ↔ ∀ a ∈ l, P a := by
  induction h₁ generalizing l₂ with
  | nil =>
    cases h₂
    exact iff_of_true .nil fun _ h => absurd h List.not_mem_nil
  | cons hab _ ih =>
    cases h₂ with
    | cons hac hrest => rw [List.forall₂_cons, List.forall_mem_cons, hP _ _ _ hab hac, ih hrest]

theorem forall₂_zip {α β : Type} {R : α → β → Prop} {l : List α} {l' : List β}
    (h : List.Forall₂ R l l') : List.Forall₂ (fun a e => e.1 = a ∧ R a e.2) l (l.zip l') := by
  induction h with
  | nil => exact .nil
  | cons hab _ ih => exact .cons ⟨rfl, hab⟩ ih

theorem storedAddends_ok {cells : Nat → Word} {i : Nat} {relas : List Rela} {addends : List Word}
    (h : storedAddends cells i relas = .ok addends) :
    List.Forall₂ (fun rela a => ∃ cell, storedAddend cell rela = .ok a) relas addends := by
  induction relas generalizing i addends with
  | nil =>
    cases h
    exact .nil
  | cons rela relas ih =>
    unfold storedAddends at h
    cases hrela : storedAddend (cells i) rela with
    | error fault =>
      rw [hrela] at h
      cases h
    | ok addend =>
      cases hrest : storedAddends cells (i + 1) relas with
      | error fault =>
        rw [hrela, hrest] at h
        cases h
      | ok rest =>
        rw [hrela, hrest] at h
        cases h
        exact .cons ⟨cells i, hrela⟩ (ih hrest)

/-- A round of the outer loop of `store_addends`. -/
def storeSectionOf (mem : Memory) (sec : Section) : Option Section :=
  if sec.shType = SHT_RELA then some { sec with addends := sec.relas.map Rela.rAddend }
  else if sec.shType = SHT_REL then
    (sec.relas.mapM (Bootstrap.ObjectFile.storedAddend mem)).map fun addends =>
      { sec with addends }
  else some sec

theorem storeAddends_eq_mapM (mem : Memory) (obj : Object) :
    Bootstrap.ObjectFile.storeAddends mem obj = obj.mapM (storeSectionOf mem) := by
  unfold Bootstrap.ObjectFile.storeAddends
  congr 1
  funext sec
  unfold storeSectionOf
  split
  · rfl
  · split
    · cases sec.relas.mapM (Bootstrap.ObjectFile.storedAddend mem) <;> rfl
    · rfl

/-- What both loaders make of a section agrees if and only if the fields whose addends are
not in the file hold their addresses. -/
theorem storeSection_agree_iff {cells : Nat → Word} {sec sec₁ sec₂ : Section}
    (h : storeSectionOf mem sec = some sec₁) (h' : storeSection cells sec = .ok sec₂) :
    SectionsAgree sec₁ sec₂ ↔
      (sec.shType = SHT_REL → ∀ rela ∈ sec.relas, FieldHoldsAddress mem rela) := by
  unfold storeSectionOf at h
  unfold storeSection at h'
  by_cases hrela : sec.shType = SHT_RELA
  · rw [if_pos hrela] at h h'
    cases h
    cases h'
    have hrel : sec.shType ≠ SHT_REL := by rw [hrela]; decide
    refine iff_of_true ⟨rfl, fun _ => ?_⟩ fun h => absurd h hrel
    exact List.forall₂_same.mpr fun e _ => ⟨rfl, fun _ _ _ _ => rfl⟩
  · rw [if_neg hrela] at h h'
    by_cases hrel : sec.shType = SHT_REL
    · rw [if_pos hrel] at h h'
      rw [forall_prop_of_true hrel]
      obtain ⟨addends, haddends, rfl⟩ := Option.map_eq_some_iff.mp h
      cases haddends' : storedAddends cells 0 sec.relas with
      | error fault =>
        rw [haddends'] at h'
        cases h'
      | ok addends' =>
        rw [haddends'] at h'
        cases h'
        have hmade := forall₂_zip (forall₂_of_mapM haddends)
        have hmade' := forall₂_zip (storedAddends_ok haddends')
        have hiff := forall₂_iff_of_made (T := fun e e' : Rela × Word =>
          e.1 = e'.1 ∧ AddendsAgree e.1 e.2 e'.2) (P := FieldHoldsAddress mem) (by
            rintro rela ⟨_, a⟩ ⟨_, a'⟩ ⟨rfl, ha⟩ ⟨rfl, cell, ha'⟩
            rw [and_iff_right rfl]
            exact addendsAgree_iff ha ha') hmade hmade'
        rw [← hiff]
        constructor
        · intro hagree
          apply hagree.addends
          unfold Shdr.isRelocations
          exact decide_eq_true (.inl hrel)
        · exact fun h => ⟨rfl, fun _ => h⟩
    · rw [if_neg hrel] at h h'
      cases h
      cases h'
      refine iff_of_true ⟨rfl, fun h => ?_⟩ fun h => absurd h hrel
      unfold Shdr.isRelocations at h
      exact absurd (of_decide_eq_true h) (not_or.mpr ⟨hrel, hrela⟩)

theorem storeAddends_ok {cells : Nat → Nat → Word} {i : Nat}
    (h : storeAddends cells i obj = .ok obj') :
    List.Forall₂ (fun sec sec' => ∃ cells, storeSection cells sec = .ok sec') obj obj' := by
  induction obj generalizing i obj' with
  | nil =>
    cases h
    exact .nil
  | cons sec obj ih =>
    unfold storeAddends at h
    cases hsec : storeSection (cells i) sec with
    | error fault =>
      rw [hsec] at h
      cases h
    | ok sec' =>
      cases hrest : storeAddends cells (i + 1) obj with
      | error fault =>
        rw [hsec, hrest] at h
        cases h
      | ok rest =>
        rw [hsec, hrest] at h
        cases h
        exact .cons ⟨cells i, hsec⟩ (ih hrest)

/-- The fields of the relocations without addends hold their own addresses. -/
def FieldsHoldAddresses (obj : Object) (mem : Memory) : Prop :=
  ∀ sec ∈ obj, sec.shType = SHT_REL → ∀ rela ∈ sec.relas, FieldHoldsAddress mem rela

theorem storeAddends_agree_iff {cells : Nat → Nat → Word}
    (h : Bootstrap.ObjectFile.storeAddends mem obj = some obj₁)
    (h' : storeAddends cells 0 obj = .ok obj₂) :
    ObjectsAgree obj₁ obj₂ ↔ FieldsHoldAddresses obj mem := by
  rw [storeAddends_eq_mapM] at h
  apply forall₂_iff_of_made _ (forall₂_of_mapM h) (storeAddends_ok h')
  rintro sec sec₁ sec₂ h ⟨cells, h'⟩
  exact storeSection_agree_iff h h'

/-! ## Loading -/

/-- In the file as it is read, with addresses for offsets, the fields of the relocations
without addends hold their own addresses. -/
def FileHoldsAddresses (objsrc : List Byte) (place : Nat → Word) (m : Memory) : Prop :=
  ∀ objr mem₀ obj₀, Bootstrap.ObjectFile.readObject objsrc place m = some (objr, mem₀) →
    offsetsToAddresses objr = some obj₀ → FieldsHoldAddresses obj₀ mem₀

theorem readObject_eq {objsrc : List Byte} {place : Nat → Word} {m : Memory}
    {read : Object × Memory} (h : Bootstrap.ObjectFile.readObject objsrc place m = some read) :
    readObject objsrc place m = .ok read := by
  unfold Bootstrap.ObjectFile.readObject at h
  split at h
  · cases h
  · rename_i hheader
    unfold readObject
    rw [if_neg fun hshort => hheader (.inl hshort)]
    exact congrArg defined h

/-- What two loads of a file have in common, up to where the addends are stored. -/
theorem loads_read {objsrc : List Byte} {place : Nat → Word} {cells : Nat → Nat → Word}
    {m : Memory} (h : Bootstrap.ObjectFile.load objsrc place m = some (obj₁, m₁))
    (h' : load objsrc place cells m = .ok (obj₂, m₂)) :
    ∃ objr mem₀ obj₀, Bootstrap.ObjectFile.readObject objsrc place m = some (objr, mem₀) ∧
      offsetsToAddresses objr = some obj₀ ∧
      Bootstrap.ObjectFile.storeAddends mem₀ obj₀ = some obj₁ ∧
      storeAddends cells 0 obj₀ = .ok obj₂ ∧
      Bootstrap.ObjectFile.doRelocations obj₁ mem₀ = some m₁ ∧
      doRelocations obj₂ mem₀ = .ok m₂ := by
  obtain ⟨⟨objr, mem₀⟩, hread, h⟩ := Option.bind_eq_some_iff.mp h
  obtain ⟨obj₀, haddressed, h⟩ := Option.bind_eq_some_iff.mp h
  obtain ⟨obj, hstored, h⟩ := Option.bind_eq_some_iff.mp h
  obtain ⟨mem, hmem, h⟩ := Option.bind_eq_some_iff.mp h
  cases h
  unfold load at h'
  rw [readObject_eq hread] at h'
  change (defined (offsetsToAddresses objr) >>= _) = Except.ok (obj₂, m₂) at h'
  rw [haddressed] at h'
  change (storeAddends cells 0 obj₀ >>= _) = Except.ok (obj₂, m₂) at h'
  cases hstored' : storeAddends cells 0 obj₀ with
  | error fault =>
    rw [hstored'] at h'
    cases h'
  | ok obj' =>
    rw [hstored'] at h'
    change (doRelocations obj' mem₀ >>= _) = Except.ok (obj₂, m₂) at h'
    cases hmem' : doRelocations obj' mem₀ with
    | error fault =>
      rw [hmem'] at h'
      cases h'
    | ok mem' =>
      rw [hmem'] at h'
      cases h'
      exact ⟨objr, mem₀, obj₀, hread, haddressed, hstored, hstored', hmem, hmem'⟩

/-- For a file that both loaders come back with, all calls of `mutate-bindings` that both come
back from leave the same memory, the same symbol values and the same addends, if and only if
the fields of the relocations without addends hold their own addresses. -/
theorem loaders_agree_iff {objsrc : List Byte} {place : Nat → Word} {cells : Nat → Nat → Word}
    {m : Memory} (h : Bootstrap.ObjectFile.load objsrc place m = some (obj₁, m₁))
    (h' : load objsrc place cells m = .ok (obj₂, m₂)) :
    (∀ (calls : List Updates) (o₁ o₂ : Object) (n₁ n₂ : Memory),
      Bootstrap.ObjectFile.mutateAll (calls.map Updates.bindings) obj₁ m₁ = some (o₁, n₁) →
      mutateAll calls obj₂ m₂ = .ok (o₂, n₂) → ObjectsAgree o₁ o₂ ∧ n₁ = n₂) ↔
    FileHoldsAddresses objsrc place m := by
  obtain ⟨objr, mem₀, obj₀, hread, haddressed, hstored, hstored', hmem, hmem'⟩ := loads_read h h'
  have hagree := storeAddends_agree_iff hstored hstored'
  constructor
  · intro hall objr' mem₀' obj₀' hread' haddressed'
    rw [hread] at hread'
    cases hread'
    rw [haddressed] at haddressed'
    cases haddressed'
    exact hagree.mp (hall [] obj₁ obj₂ m₁ m₂ rfl rfl).1
  · intro hfile calls o₁ o₂ n₁ n₂ hcalls hcalls'
    have hobj := hagree.mpr (hfile objr mem₀ obj₀ hread haddressed)
    obtain rfl := doRelocations_agree hobj hmem hmem'
    exact mutateAll_agree hobj hcalls hcalls'

/-! ## A file without addends -/

/-- A file with a section of eight zero bytes, and a relocation of type `R_X86_64_64` for the
undefined symbol `a` at its start that has no addend. -/
def relFile : List Byte :=
  [headerBytes 5, shdrBytes 0 0 0 0 0 0, shdrBytes 2 384 72 2 0 24, shdrBytes 3 456 5 0 0 0,
    shdrBytes 1 461 8 0 0 0, shdrBytes 9 469 16 1 3 16,
    zeros 24, symBytes 1, symBytes 3, [0, 0x61, 0, 0x62, 0], zeros 8,
    zeros 8, X86.bytesOf 8 (1 <<< 32 ||| 1)].flatten

/-- Both loaders come back with this file; the field is `0` after the loader in C, and its own
address after the other one. -/
theorem loads_relFile : ∃ obj₁ m₁ obj₂ m₂,
    Bootstrap.ObjectFile.load relFile smallPlace (fun _ => 0) = some (obj₁, m₁) ∧
    load relFile smallPlace (fun _ _ => 0) (fun _ => 0) = .ok (obj₂, m₂) ∧
    X86.load m₁ 0x4000 8 = 0 ∧ X86.load m₂ 0x4000 8 = 0x4000 := by
  have hfield : (Bootstrap.ObjectFile.load relFile smallPlace (fun _ => 0)).map
      (fun loaded => X86.load loaded.2 0x4000 8) = some 0 := by decide +kernel
  have hfield' : (load relFile smallPlace (fun _ _ => 0) (fun _ => 0)).toOption.map
      (fun loaded => X86.load loaded.2 0x4000 8) = some 0x4000 := by decide +kernel
  obtain ⟨⟨obj₁, m₁⟩, h, hzero⟩ := Option.map_eq_some_iff.mp hfield
  cases h' : load relFile smallPlace (fun _ _ => 0) (fun _ => 0) with
  | error fault =>
    rw [h'] at hfield'
    cases hfield'
  | ok loaded =>
    rw [h'] at hfield'
    exact ⟨obj₁, m₁, loaded.1, loaded.2, h, rfl, hzero, Option.some.inj hfield'⟩

/-- The field does not hold its own address, so the loaders do not agree. -/
theorem loaders_agree_iff_relFile : ∃ obj₁ m₁ obj₂ m₂,
    Bootstrap.ObjectFile.load relFile smallPlace (fun _ => 0) = some (obj₁, m₁) ∧
    load relFile smallPlace (fun _ _ => 0) (fun _ => 0) = .ok (obj₂, m₂) ∧
    ((∀ (calls : List Updates) (o₁ o₂ : Object) (n₁ n₂ : Memory),
      Bootstrap.ObjectFile.mutateAll (calls.map Updates.bindings) obj₁ m₁ = some (o₁, n₁) →
      mutateAll calls obj₂ m₂ = .ok (o₂, n₂) → ObjectsAgree o₁ o₂ ∧ n₁ = n₂) ↔
    FileHoldsAddresses relFile smallPlace (fun _ => 0)) ∧
    ¬ FileHoldsAddresses relFile smallPlace (fun _ => 0) := by
  obtain ⟨obj₁, m₁, obj₂, m₂, h, h', hzero, haddress⟩ := loads_relFile
  have hiff := loaders_agree_iff h h'
  refine ⟨obj₁, m₁, obj₂, m₂, h, h', hiff, ?_⟩
  intro hfile
  obtain ⟨-, hmem⟩ := hiff.mpr hfile [] obj₁ obj₂ m₁ m₂ rfl rfl
  rw [← hmem, hzero] at haddress
  exact absurd haddress (by decide)

theorem loaders_disagree :
    ¬ ∀ (objsrc : List Byte) (place : Nat → Word) (cells : Nat → Nat → Word)
      (m : Memory) (obj₁ obj₂ : Object) (m₁ m₂ : Memory),
      Bootstrap.ObjectFile.load objsrc place m = some (obj₁, m₁) →
      load objsrc place cells m = .ok (obj₂, m₂) →
      ∀ (calls : List Updates) (o₁ o₂ : Object) (n₁ n₂ : Memory),
        Bootstrap.ObjectFile.mutateAll (calls.map Updates.bindings) obj₁ m₁ = some (o₁, n₁) →
        mutateAll calls obj₂ m₂ = .ok (o₂, n₂) → ObjectsAgree o₁ o₂ ∧ n₁ = n₂ := by
  intro hall
  obtain ⟨obj₁, m₁, obj₂, m₂, h, h', hzero, haddress⟩ := loads_relFile
  obtain ⟨-, hmem⟩ := hall _ _ _ _ obj₁ obj₂ m₁ m₂ h h' [] obj₁ obj₂ m₁ m₂ rfl rfl
  rw [← hmem, hzero] at haddress
  exact absurd haddress (by decide)

end L2.SelfHost.ObjectFile
