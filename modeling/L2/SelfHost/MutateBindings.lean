import L2.Bootstrap.Relocations
import L2.SelfHost.ObjectFile

/-!
# When mutation jumps to its handler

`load` has made sure that the values of all relocations fit their fields.  For the addresses
that `mutate-bindings` is given nothing makes sure of this, and it has no handler to go to:
it comes back if and only if the new addresses make no value leave the range of its type
(`mutateBindings_handler_iff`).
-/

namespace L2.SelfHost.ObjectFile

open X86 (Word Byte Memory)
open Bootstrap.ObjectFile

/-! ## Ranges -/

/-- The range that `do-relocation` wants the value of a relocation of some type to be in. -/
def InRange (type : Nat) (val : Word) : Prop :=
  match type with
  | R_X86_64_8 => val.toNat < 2 ^ 8
  | R_X86_64_16 => val.toNat < 2 ^ 16
  | R_X86_64_32 => val.toNat < 2 ^ 32
  | R_X86_64_PC8 => -2 ^ 7 ≤ val.toInt ∧ val.toInt < 2 ^ 7
  | R_X86_64_PC16 => -2 ^ 15 ≤ val.toInt ∧ val.toInt < 2 ^ 15
  | R_X86_64_PC32 | R_X86_64_32S => -2 ^ 31 ≤ val.toInt ∧ val.toInt < 2 ^ 31
  | _ => True

theorem eq_and_iff {k : Nat} {mask : Word} (hmask : mask.toNat = 2 ^ k - 1)
    (val : Word) : val = val &&& mask ↔ val.toNat < 2 ^ k := by
  rw [← BitVec.toNat_inj, BitVec.toNat_and, hmask, Nat.and_two_pow_sub_one_eq_mod]
  constructor
  · intro h
    rw [h]
    exact Nat.mod_lt _ (Nat.two_pow_pos k)
  · exact fun h => (Nat.mod_eq_of_lt h).symm

theorem eq_or_iff {k : Nat} (hk : k < 64) {low high : Word} (hlow : low.toNat = 2 ^ k - 1)
    (hhigh : high = ~~~low) (val : Word) : val = val ||| high ↔ 2 ^ 64 - 2 ^ k ≤ val.toNat := by
  have hnot : val = val ||| high ↔ ~~~val = ~~~val &&& low := by
    rw [← BitVec.not_inj, hhigh]
    rw [BitVec.not_or, BitVec.not_not]
  rw [hnot, eq_and_iff hlow, BitVec.toNat_not]
  have hpow : 2 ^ k ≤ 2 ^ 63 := Nat.pow_le_pow_right (by omega) (by omega)
  have hval := val.isLt
  omega

theorem signed_iff {k : Nat} (hk : k < 63) {low high : Word} (hlow : low.toNat = 2 ^ k - 1)
    (hhigh : high = ~~~low) (val : Word) : val = val &&& low ∨ val = val ||| high ↔
      -2 ^ k ≤ val.toInt ∧ val.toInt < 2 ^ k := by
  rw [eq_and_iff hlow, eq_or_iff (by omega) hlow hhigh, BitVec.toInt_eq_toNat_cond]
  have hpow : 2 ^ k ≤ 2 ^ 62 := Nat.pow_le_pow_right (by omega) (by omega)
  have hcast : ((2 ^ k : Nat) : Int) = 2 ^ k := by norm_cast
  have hval := val.isLt
  split <;> omega

/-- What `do-relocation` does with a value before it is stored. -/
def checkRange (type : Nat) (val : Word) : Except Fault Word :=
  match type with
  | R_X86_64_8 => assertByte val
  | R_X86_64_16 => assertHalf val
  | R_X86_64_32 => assertWord val
  | R_X86_64_PC8 => assertSbyte val
  | R_X86_64_PC16 => assertShalf val
  | R_X86_64_PC32 | R_X86_64_32S => assertSword val
  | _ => .ok val

theorem assertUnsigned_eq {k : Nat} {mask : Word} (hmask : mask.toNat = 2 ^ k - 1) (val : Word) :
    assertUnsigned mask val = if val.toNat < 2 ^ k then .ok val else .error .handler := by
  unfold assertUnsigned
  simp only [eq_and_iff hmask]

theorem assertSigned_eq {k : Nat} (hk : k < 63) {low high : Word} (hlow : low.toNat = 2 ^ k - 1)
    (hhigh : high = ~~~low) (val : Word) : assertSigned low high val =
      if -2 ^ k ≤ val.toInt ∧ val.toInt < 2 ^ k then .ok val else .error .handler := by
  unfold assertSigned
  simp only [signed_iff hk hlow hhigh]

open Classical in
theorem checkRange_eq (type : Nat) (val : Word) :
    checkRange type val = if InRange type val then .ok val else .error .handler := by
  unfold checkRange InRange
  split
  · exact (assertUnsigned_eq (k := 8) rfl val).trans (by congr)
  · exact (assertUnsigned_eq (k := 16) rfl val).trans (by congr)
  · exact (assertUnsigned_eq (k := 32) rfl val).trans (by congr)
  · exact (assertSigned_eq (k := 7) (by omega) rfl rfl val).trans (by congr)
  · exact (assertSigned_eq (k := 15) (by omega) rfl rfl val).trans (by congr)
  · exact (assertSigned_eq (k := 31) (by omega) rfl rfl val).trans (by congr)
  · exact (assertSigned_eq (k := 31) (by omega) rfl rfl val).trans (by congr)
  · rw [if_pos trivial]

/-! ## One relocation -/

theorem ok_bind {α β : Type} (a : α) (f : α → Except Fault β) : (Except.ok a).bind f = f a := rfl

theorem doRelocation_eq (obj : Object) (link : Nat) (rela : Rela) (addend : Word)
    (mem : Memory) : doRelocation obj link rela addend mem =
      match prescription rela.type with
      | none => if rela.type = R_X86_64_NONE then .ok mem else .error .handler
      | some (n, c) => (defined (obj.sym link rela.symbol)).bind fun sym =>
        (checkRange rela.type (c.value sym addend rela.rOffset)).bind fun val =>
          store obj rela.rOffset val n mem := by
  unfold doRelocation prescription
  split <;> rename_i htype <;> simp_all [Calculation.value, checkRange, bind, ok_bind]

/-- What a relocation needs besides a value in range: it does nothing, or its symbol and its
field are there. -/
def Settled (obj : Object) (e : Entry) : Prop :=
  (prescription e.rela.type = none → e.rela.type = R_X86_64_NONE) ∧
    ∀ n c, prescription e.rela.type = some (n, c) →
      (∃ sym, obj.sym e.link e.rela.symbol = some sym) ∧
        ∀ i < n, obj.owns (e.rela.rOffset + BitVec.ofNat 64 i)

/-- The value of a relocation is in the range of its type. -/
def Fits (obj : Object) (e : Entry) : Prop :=
  ∀ n c sym, prescription e.rela.type = some (n, c) → obj.sym e.link e.rela.symbol = some sym →
    InRange e.rela.type (c.value sym e.addend e.rela.rOffset)

variable {obj obj' : Object} {mem mem' : Memory} {e : Entry}

/-- A relocation comes back or jumps to the handler when it has what it needs. -/
theorem doRelocation_of_settled (h : Settled obj e) (mem : Memory) :
    (Fits obj e → ∃ mem', doRelocation obj e.link e.rela e.addend mem = .ok mem') ∧
      (¬ Fits obj e → doRelocation obj e.link e.rela e.addend mem = .error .handler) := by
  obtain ⟨hnone, hsome⟩ := h
  rw [doRelocation_eq]
  cases hpre : prescription e.rela.type with
  | none =>
    have hfits : Fits obj e := fun n c sym h => by rw [hpre] at h; cases h
    refine ⟨fun _ => ⟨mem, ?_⟩, fun h => absurd hfits h⟩
    exact if_pos (hnone hpre)
  | some field =>
    obtain ⟨n, c⟩ := field
    obtain ⟨⟨sym, hsym⟩, howns⟩ := hsome n c hpre
    have hfits : Fits obj e ↔ InRange e.rela.type (c.value sym e.addend e.rela.rOffset) := by
      constructor
      · exact fun h => h n c sym hpre hsym
      · intro h n' c' sym' hpre' hsym'
        rw [hpre] at hpre'
        rw [hsym] at hsym'
        cases hpre'
        cases hsym'
        exact h
    rw [hsym, hfits]
    show (_ → ∃ mem', (checkRange _ _).bind _ = _) ∧ (_ → (checkRange _ _).bind _ = _)
    rw [checkRange_eq]
    constructor
    · intro h
      rw [if_pos h, ok_bind]
      unfold store memcpy
      rw [if_pos howns]
      exact ⟨_, rfl⟩
    · intro h
      rw [if_neg h]
      rfl

theorem settled_of_doRelocation (h : doRelocation obj e.link e.rela e.addend mem = .ok mem') :
    Settled obj e ∧ Fits obj e := by
  have hsettled : Settled obj e := by
    rw [doRelocation_eq] at h
    constructor
    · intro hpre
      rw [hpre] at h
      by_contra htype
      change (if e.rela.type = R_X86_64_NONE then _ else _) = _ at h
      rw [if_neg htype] at h
      cases h
    · intro n c hpre
      rw [hpre] at h
      cases hsym : obj.sym e.link e.rela.symbol with
      | none =>
        rw [hsym] at h
        cases h
      | some sym =>
        rw [hsym] at h
        change (checkRange _ _).bind _ = _ at h
        rw [checkRange_eq] at h
        refine ⟨⟨sym, rfl⟩, ?_⟩
        split at h
        · rw [ok_bind] at h
          unfold store memcpy at h
          by_contra howns
          rw [if_neg howns] at h
          cases h
        · cases h
  refine ⟨hsettled, ?_⟩
  by_contra hfits
  rw [(doRelocation_of_settled hsettled mem).2 hfits] at h
  cases h

/-! ## All relocations -/

theorem doRelocations_entries (obj : Object) (mem : Memory) :
    doRelocations obj mem =
      obj.entries.foldlM (fun mem e => doRelocation obj e.link e.rela e.addend mem) mem := by
  have hentries : ∀ (secs : List Section) (mem : Memory),
      secs.foldlM (relocateSection obj) mem = (secs.flatMap Section.entries).foldlM
        (fun mem e => doRelocation obj e.link e.rela e.addend mem) mem := by
    intro secs
    induction secs with
    | nil => exact fun _ => rfl
    | cons sec secs ih =>
      intro mem
      rw [List.foldlM_cons, List.flatMap_cons, List.foldlM_append]
      congr 1
      · unfold relocateSection Section.entries
        split
        · rw [List.foldlM_map]
        · rfl
      · funext mem
        exact ih mem
  exact hentries obj mem

/-- A loop each of whose rounds comes back or jumps to the handler does so too. -/
theorem foldlM_of_rounds {α β : Type} {f : β → α → Except Fault β} {P : α → Prop} {l : List α}
    (hf : ∀ a ∈ l, ∀ m, (P a → ∃ m', f m a = .ok m') ∧ (¬ P a → f m a = .error .handler))
    (m : β) : ((∀ a ∈ l, P a) → ∃ m', l.foldlM f m = .ok m') ∧
      (¬ (∀ a ∈ l, P a) → l.foldlM f m = .error .handler) := by
  induction l generalizing m with
  | nil => exact ⟨fun _ => ⟨m, rfl⟩, fun h => absurd (fun _ h => absurd h List.not_mem_nil) h⟩
  | cons a l ih =>
    obtain ⟨ha, hl⟩ := List.forall_mem_cons.mp hf
    rw [List.forall_mem_cons, List.foldlM_cons]
    by_cases hP : P a
    · obtain ⟨m₁, h₁⟩ := (ha m).1 hP
      rw [h₁, and_iff_right hP]
      exact ih hl m₁
    · rw [(ha m).2 hP]
      exact ⟨fun h => absurd h.1 hP, fun _ => rfl⟩

theorem mem_of_foldlM_ok {α β : Type} {f : β → α → Except Fault β} {l : List α} {m m' : β}
    (h : l.foldlM f m = .ok m') : ∀ a ∈ l, ∃ m₁ m₂, f m₁ a = .ok m₂ := by
  induction l generalizing m with
  | nil => exact fun _ h => absurd h List.not_mem_nil
  | cons a l ih =>
    rw [List.foldlM_cons] at h
    cases ha : f m a with
    | error fault =>
      rw [ha] at h
      cases h
    | ok m₁ =>
      rw [ha] at h
      exact List.forall_mem_cons.mpr ⟨⟨m, m₁, ha⟩, ih h⟩

/-- All relocations have what they need, and their values are in range. -/
def Relocatable (obj : Object) : Prop := ∀ e ∈ obj.entries, Settled obj e ∧ Fits obj e

theorem relocatable_of_doRelocations (h : doRelocations obj mem = .ok mem') : Relocatable obj := by
  intro e he
  rw [doRelocations_entries] at h
  obtain ⟨m₁, m₂, hdone⟩ := mem_of_foldlM_ok h e he
  exact settled_of_doRelocation hdone

theorem doRelocations_of_settled (h : ∀ e ∈ obj.entries, Settled obj e) (mem : Memory) :
    ((∀ e ∈ obj.entries, Fits obj e) → ∃ mem', doRelocations obj mem = .ok mem') ∧
      (¬ (∀ e ∈ obj.entries, Fits obj e) → doRelocations obj mem = .error .handler) := by
  rw [doRelocations_entries]
  apply foldlM_of_rounds
  intro e he mem
  exact doRelocation_of_settled (h e he) mem

/-! ## New addresses -/

variable {updates : Updates}

/-- Every symbol that can be named has a name. -/
def NamesThere (obj : Object) : Prop :=
  ∀ sec ∈ obj, sec.shType = SHT_SYMTAB → ∀ sym ∈ sec.syms.drop 1,
    ∃ name, nameOf obj sec.toShdr sym = some name

/-- The updates have the address `a` for the symbol with the given number of section
`link`. -/
def NewAddress (obj : Object) (mem : Memory) (updates : Updates) (link index : Nat)
    (a : Word) : Prop :=
  ∃ table sym name, obj[link]? = some table ∧ table.shType = SHT_SYMTAB ∧
    table.syms[index]? = some sym ∧ 0 < index ∧ nameOf obj table.toShdr sym = some name ∧
    updates.address? mem name sym = some a

/-- For every relocation whose symbol has a new address, the value for this address is in
range. -/
def NewAddressesFit (obj : Object) (mem : Memory) (updates : Updates) : Prop :=
  ∀ e ∈ obj.entries, ∀ n c sym a, prescription e.rela.type = some (n, c) →
    obj.sym e.link e.rela.symbol = some sym →
    NewAddress obj mem updates e.link e.rela.symbol a →
      InRange e.rela.type (c.value { sym with stValue := a } e.addend e.rela.rOffset)

theorem mutateSym_some {shdr : Shdr} {sym sym' : Sym}
    (h : mutateSym obj mem updates shdr sym = some sym') :
    ∃ name, nameOf obj shdr sym = some name ∧
      sym' = { sym with stValue := (updates.address? mem name sym).getD sym.stValue } := by
  obtain ⟨name, hname, h⟩ := Option.bind_eq_some_iff.mp h
  cases h
  exact ⟨name, hname, rfl⟩

/-- One section: the first symbol is left alone, and so are other tables. -/
def MutatedSection (obj : Object) (mem : Memory) (updates : Updates) (sec sec' : Section) :
    Prop :=
  ∃ syms, sec' = { sec with syms := syms } ∧
    (sec.shType ≠ SHT_SYMTAB → syms = sec.syms) ∧
    (sec.shType = SHT_SYMTAB → ∃ rest, syms = sec.syms.take 1 ++ rest ∧
      List.Forall₂ (fun sym sym' => mutateSym obj mem updates sec.toShdr sym = some sym')
        (sec.syms.drop 1) rest)

theorem mutateSyms_some (h : mutateSyms obj mem updates = some obj') :
    List.Forall₂ (MutatedSection obj mem updates) obj obj' := by
  apply (forall₂_of_mapM h).imp
  intro sec sec' hsec
  by_cases htab : sec.shType = SHT_SYMTAB
  · rw [if_pos htab] at hsec
    obtain ⟨rest, hrest, rfl⟩ := Option.map_eq_some_iff.mp hsec
    exact ⟨_, rfl, fun h => absurd htab h, fun _ => ⟨rest, rfl, forall₂_of_mapM hrest⟩⟩
  · rw [if_neg htab] at hsec
    cases hsec
    exact ⟨_, rfl, fun _ => rfl, fun h => absurd h htab⟩

theorem MutatedSection.same {sec sec' : Section} (h : MutatedSection obj mem updates sec sec') :
    SameSection sec sec' := by
  obtain ⟨syms, rfl, hother, htable⟩ := h
  refine ⟨syms, rfl, ?_⟩
  by_cases htab : sec.shType = SHT_SYMTAB
  · obtain ⟨rest, rfl, hrest⟩ := htable htab
    nth_rewrite 1 [← List.take_append_drop 1 sec.syms]
    apply List.rel_append (List.forall₂_same.mpr fun sym _ => ⟨sym.stValue, rfl⟩)
    apply hrest.imp
    intro sym sym' hsym
    obtain ⟨name, -, rfl⟩ := mutateSym_some hsym
    exact ⟨_, rfl⟩
  · rw [hother htab]
    exact List.forall₂_same.mpr fun sym _ => ⟨sym.stValue, rfl⟩

theorem sameTables_mutateSyms (h : mutateSyms obj mem updates = some obj') :
    SameTables obj obj' :=
  (mutateSyms_some h).imp fun _ _ => MutatedSection.same

/-- What becomes of a symbol: its value is the new address if there is one. -/
theorem sym_mutateSyms (h : mutateSyms obj mem updates = some obj') {link index : Nat}
    {sym : Sym} (hsym : obj.sym link index = some sym) :
    ∃ v, obj'.sym link index = some { sym with stValue := v } ∧
      (NewAddress obj mem updates link index v ∨
        v = sym.stValue ∧ ∀ a, ¬ NewAddress obj mem updates link index a) := by
  obtain ⟨table, htable, hsym⟩ := Option.bind_eq_some_iff.mp hsym
  have hrel := forall₂_getElem? (mutateSyms_some h) link
  rw [htable] at hrel
  generalize hout : obj'[link]? = table' at hrel
  cases hrel with
  | @some _ table' hmutated =>
    obtain ⟨syms, rfl, hother, hsyms⟩ := hmutated
    have hfound : obj'.sym link index = syms[index]? := by
      unfold Object.sym
      rw [hout]
      rfl
    have hunique : ∀ a, NewAddress obj mem updates link index a → table.shType = SHT_SYMTAB ∧
        0 < index ∧ ∃ name, nameOf obj table.toShdr sym = some name ∧
          updates.address? mem name sym = some a := by
      rintro a ⟨table₁, sym₁, name, htable₁, htab, hsym₁, hindex, hname, ha⟩
      rw [htable] at htable₁
      cases htable₁
      rw [hsym] at hsym₁
      cases hsym₁
      exact ⟨htab, hindex, name, hname, ha⟩
    rw [hfound]
    by_cases htab : table.shType = SHT_SYMTAB
    · obtain ⟨rest, rfl, hrest⟩ := hsyms htab
      cases index with
      | zero =>
        refine ⟨sym.stValue, ?_, .inr ⟨rfl, fun a ha => ?_⟩⟩
        · cases hlist : table.syms with
          | nil =>
            rw [hlist] at hsym
            cases hsym
          | cons null others =>
            rw [hlist] at hsym
            cases hsym
            rfl
        · exact absurd (hunique a ha).2.1 (Nat.lt_irrefl 0)
      | succ k =>
        have hdropped : (table.syms.drop 1)[k]? = some sym := by
          rw [List.getElem?_drop, Nat.add_comm]
          exact hsym
        have hrel := forall₂_getElem? hrest k
        rw [hdropped] at hrel
        generalize hsym' : rest[k]? = sym' at hrel
        cases hrel with
        | @some _ sym' hmutate =>
          obtain ⟨name, hname, rfl⟩ := mutateSym_some hmutate
          have hlength : (table.syms.take 1).length = 1 := by
            rw [List.length_take]
            have := (List.getElem?_eq_some_iff.mp hsym).1
            omega
          refine ⟨(updates.address? mem name sym).getD sym.stValue, ?_, ?_⟩
          · rw [List.getElem?_append_right (by omega), hlength, Nat.add_sub_cancel, hsym']
          · cases ha : updates.address? mem name sym with
            | none =>
              refine .inr ⟨rfl, fun a hnew => ?_⟩
              obtain ⟨-, -, name', hname', ha'⟩ := hunique a hnew
              rw [hname] at hname'
              cases hname'
              rw [ha] at ha'
              cases ha'
            | some a =>
              exact .inl ⟨table, sym, name, htable, htab, hsym, Nat.succ_pos k, hname, ha⟩
    · rw [hother htab]
      exact ⟨sym.stValue, hsym, .inr ⟨rfl, fun a ha => htab (hunique a ha).1⟩⟩

theorem NewAddress.unique {link index : Nat} {a b : Word}
    (ha : NewAddress obj mem updates link index a) (hb : NewAddress obj mem updates link index b) :
    a = b := by
  obtain ⟨table, sym, name, htable, -, hsym, -, hname, ha⟩ := ha
  obtain ⟨table', sym', name', htable', -, hsym', -, hname', hb⟩ := hb
  rw [htable] at htable'
  cases htable'
  rw [hsym] at hsym'
  cases hsym'
  rw [hname] at hname'
  cases hname'
  rw [ha] at hb
  exact Option.some.inj hb

theorem settled_of_sameTables (h : SameTables obj obj') (hsettled : Settled obj e) :
    Settled obj' e := by
  refine ⟨hsettled.1, fun n c hpre => ?_⟩
  obtain ⟨⟨sym, hsym⟩, howns⟩ := hsettled.2 n c hpre
  constructor
  · have hrel := h.sym_rel e.link e.rela.symbol
    rw [hsym] at hrel
    generalize hout : obj'.sym e.link e.rela.symbol = other at hrel
    cases hrel with
    | @some _ sym' _ => exact ⟨sym', rfl⟩
  · intro i hi
    rw [h.owns_eq]
    exact howns i hi

/-- Relocations whose values were in range stay so if and only if the new addresses fit. -/
theorem fits_mutateSyms (hobj : Relocatable obj) (h : mutateSyms obj mem updates = some obj') :
    (∀ e ∈ obj'.entries, Fits obj' e) ↔ NewAddressesFit obj mem updates := by
  rw [(sameTables_mutateSyms h).entries_eq]
  constructor
  · intro hfits e he n c sym a hpre hsym hnew
    obtain ⟨v, hv, hcase⟩ := sym_mutateSyms h hsym
    rcases hcase with hnew' | ⟨-, hnone⟩
    · rw [hnew.unique hnew']
      exact hfits e he n c _ hpre hv
    · exact absurd hnew (hnone a)
  · intro hnew e he n c sym' hpre hsym'
    obtain ⟨hsettled, hfits⟩ := hobj e he
    obtain ⟨⟨sym, hsym⟩, -⟩ := hsettled.2 n c hpre
    obtain ⟨v, hv, hcase⟩ := sym_mutateSyms h hsym
    rw [hv] at hsym'
    cases hsym'
    rcases hcase with hnew' | ⟨rfl, -⟩
    · exact hnew e he n c sym v hpre hsym hnew'
    · exact hfits n c sym hpre hsym

theorem mutateSyms_isSome : (∃ obj', mutateSyms obj mem updates = some obj') ↔
    NamesThere obj := by
  constructor
  · rintro ⟨obj', h⟩ sec hsec htab sym hsym
    obtain ⟨sec', -, syms, rfl, -, hsyms⟩ := exists_of_forall₂_right (mutateSyms_some h).flip hsec
    obtain ⟨rest, -, hrest⟩ := hsyms htab
    obtain ⟨sym', -, hsym'⟩ := exists_of_forall₂_right hrest.flip hsym
    obtain ⟨name, hname, -⟩ := mutateSym_some hsym'
    exact ⟨name, hname⟩
  · intro hnames
    apply mapM_isSome
    intro sec hsec
    by_cases htab : sec.shType = SHT_SYMTAB
    · rw [if_pos htab]
      obtain ⟨syms, hsyms⟩ : ∃ syms, (sec.syms.drop 1).mapM
          (mutateSym obj mem updates sec.toShdr) = some syms := by
        apply mapM_isSome
        intro sym hsym
        obtain ⟨name, hname⟩ := hnames sec hsec htab sym hsym
        unfold mutateSym
        rw [hname]
        exact ⟨_, rfl⟩
      exact ⟨_, Option.map_eq_some_iff.mpr ⟨syms, hsyms, rfl⟩⟩
    · rw [if_neg htab]
      exact ⟨sec, rfl⟩

/-! ## Runs -/

theorem relocatable_of_load {objsrc : List Byte} {place : Nat → Word} {cells : Nat → Nat → Word}
    {m : Memory} (h : load objsrc place cells m = .ok (obj, mem)) : Relocatable obj := by
  unfold load at h
  cases hread : readObject objsrc place m with
  | error fault =>
    rw [hread] at h
    cases h
  | ok read =>
    obtain ⟨obj₁, mem₁⟩ := read
    rw [hread] at h
    change (defined (offsetsToAddresses obj₁) >>= _) = Except.ok (obj, mem) at h
    cases haddressed : offsetsToAddresses obj₁ with
    | none =>
      rw [haddressed] at h
      cases h
    | some obj₂ =>
      rw [haddressed] at h
      change (storeAddends cells 0 obj₂ >>= _) = Except.ok (obj, mem) at h
      cases hstored : storeAddends cells 0 obj₂ with
      | error fault =>
        rw [hstored] at h
        cases h
      | ok obj₃ =>
        rw [hstored] at h
        change (doRelocations obj₃ mem₁ >>= _) = Except.ok (obj, mem) at h
        cases hmem : doRelocations obj₃ mem₁ with
        | error fault =>
          rw [hmem] at h
          cases h
        | ok mem₂ =>
          rw [hmem] at h
          cases h
          exact relocatable_of_doRelocations hmem

theorem mutateBindings_ok (h : mutateBindings updates obj mem = .ok (obj', mem')) :
    mutateSyms obj mem updates = some obj' ∧ doRelocations obj' mem = .ok mem' := by
  unfold mutateBindings at h
  cases hsyms : mutateSyms obj mem updates with
  | none =>
    rw [hsyms] at h
    cases h
  | some obj₁ =>
    rw [hsyms] at h
    change (doRelocations obj₁ mem >>= _) = Except.ok (obj', mem') at h
    cases hmem : doRelocations obj₁ mem with
    | error fault =>
      rw [hmem] at h
      cases h
    | ok mem₁ =>
      rw [hmem] at h
      cases h
      exact ⟨rfl, hmem⟩

theorem relocatable_of_mutateAll (hobj : Relocatable obj) {calls : List Updates}
    (h : mutateAll calls obj mem = .ok (obj', mem')) : Relocatable obj' := by
  induction calls generalizing obj mem with
  | nil =>
    cases h
    exact hobj
  | cons updates calls ih =>
    unfold mutateAll at h
    cases hcall : mutateBindings updates obj mem with
    | error fault =>
      rw [hcall] at h
      cases h
    | ok out =>
      rw [hcall] at h
      exact ih (relocatable_of_doRelocations (mutateBindings_ok hcall).2) h

theorem mutateBindings_handler (hobj : Relocatable obj) (updates : Updates) (mem : Memory) :
    mutateBindings updates obj mem ≠ .error .handler ↔
      (NamesThere obj → NewAddressesFit obj mem updates) := by
  unfold mutateBindings
  cases hsyms : mutateSyms obj mem updates with
  | none =>
    have hnames : ¬ NamesThere obj := by
      rw [← @mutateSyms_isSome obj mem updates, hsyms]
      exact nofun
    exact iff_of_true nofun fun h => absurd h hnames
  | some obj' =>
    have hnames : NamesThere obj := mutateSyms_isSome.mp ⟨obj', hsyms⟩
    have hsettled : ∀ e ∈ obj'.entries, Settled obj' e := by
      rw [(sameTables_mutateSyms hsyms).entries_eq]
      exact fun e he => settled_of_sameTables (sameTables_mutateSyms hsyms) (hobj e he).1
    obtain ⟨hok, hhandler⟩ := doRelocations_of_settled hsettled mem
    rw [fits_mutateSyms hobj hsyms] at hok hhandler
    rw [forall_prop_of_true hnames]
    show (doRelocations obj' mem >>= fun mem => Except.ok (obj', mem)) ≠ _ ↔ _
    by_cases hfit : NewAddressesFit obj mem updates
    · obtain ⟨mem', hmem'⟩ := hok hfit
      rw [hmem']
      exact iff_of_true nofun hfit
    · rw [hhandler hfit]
      exact iff_of_false (fun h => h rfl) hfit

/-- After any calls of `mutate-bindings` on an object that `load` has come back with, another
one does not jump to its handler if and only if, as far as the symbols have names at all, the
values for the new addresses are in the ranges of their relocations. -/
theorem mutateBindings_handler_iff {objsrc : List Byte} {place : Nat → Word}
    {cells : Nat → Nat → Word} {m : Memory} (hload : load objsrc place cells m = .ok (obj, mem))
    {calls : List Updates} (hcalls : mutateAll calls obj mem = .ok (obj', mem'))
    (updates : Updates) : mutateBindings updates obj' mem' ≠ .error .handler ↔
      (NamesThere obj' → NewAddressesFit obj' mem' updates) :=
  mutateBindings_handler (relocatable_of_mutateAll (relocatable_of_load hload) hcalls) updates mem'

/-! ## An address that does not fit -/

def oneUpdate (name : List Byte) (address : Word) : Updates where
  bindings := [⟨name, address⟩]
  distinct := List.nodup_singleton _

theorem load_smallFile : ∃ obj mem,
    load (smallFile 3 0) smallPlace (fun _ _ => 0) (fun _ => 0) = .ok (obj, mem) := by
  have hok : (load (smallFile 3 0) smallPlace (fun _ _ => 0) (fun _ => 0)).toOption.isSome =
      true := by decide +kernel
  cases h : load (smallFile 3 0) smallPlace (fun _ _ => 0) (fun _ => 0) with
  | error fault =>
    rw [h] at hok
    cases hok
  | ok loaded => exact ⟨loaded.1, loaded.2, rfl⟩

theorem mutateBindings_handler_iff_smallFile : ∃ obj mem,
    load (smallFile 3 0) smallPlace (fun _ _ => 0) (fun _ => 0) = .ok (obj, mem) ∧
      (mutateBindings (oneUpdate [0x61] 0x12) obj mem ≠ .error .handler ↔
        (NamesThere obj → NewAddressesFit obj mem (oneUpdate [0x61] 0x12))) := by
  obtain ⟨obj, mem, hload⟩ := load_smallFile
  have hcalls : mutateAll [] obj mem = .ok (obj, mem) := rfl
  exact ⟨obj, mem, hload, mutateBindings_handler_iff hload hcalls _⟩

def takesHandler : Except Fault (Object × Memory) → Bool
  | .error .handler => true
  | _ => false

theorem eq_of_takesHandler {r : Except Fault (Object × Memory)} (h : takesHandler r = true) :
    r = .error .handler := by
  cases r with
  | ok _ => cases h
  | error fault =>
    cases fault with
    | handler => rfl
    | undefined => cases h

/-- The field of one byte cannot have the address `0x1234`. -/
theorem mutateBindings_jumps :
    ¬ ∀ (objsrc : List Byte) (place : Nat → Word) (cells : Nat → Nat → Word) (m : Memory)
      (obj : Object) (mem : Memory), load objsrc place cells m = .ok (obj, mem) →
      ∀ updates, mutateBindings updates obj mem ≠ .error .handler := by
  intro h
  obtain ⟨obj, mem, hload⟩ := load_smallFile
  have hjumps : ((load (smallFile 3 0) smallPlace (fun _ _ => 0) (fun _ => 0)).toOption.map
      fun loaded => takesHandler (mutateBindings (oneUpdate [0x61] 0x1234) loaded.1 loaded.2)) =
        some true := by decide +kernel
  have hcall := h _ _ _ _ obj mem hload (oneUpdate [0x61] 0x1234)
  rw [hload] at hjumps
  exact hcall (eq_of_takesHandler (Option.some.inj hjumps))

end L2.SelfHost.ObjectFile
