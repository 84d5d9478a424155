import L2.Bootstrap.Relocations

/-!
# What a name is resolved to

`evaluate_files` keeps one list of bindings.  The objects it loads add the bindings that
they define, in every round `mutate_bindings` gives the list to every object, and a symbol
that is a macro is looked up in the list.  The look-up takes the first binding of a name,
while the updates are done in order, so that an undefined symbol has the address of the last
one.  The two agree when the first and the last binding of the name have the same address
(`evaluateFiles_agrees_iff`).
-/

namespace L2.Bootstrap.ObjectFile

open X86 (Word Byte Memory)

/-! ## The bindings of an object -/

/-- The string at an address. -/
def cString (mem : Memory) : Nat → Word → List Byte
  | 0, _ => []
  | n + 1, a => if mem a = 0 then [] else mem a :: cString mem n (a + 1)

def Sym.isMutable (sym : Sym) : Bool := sym.stShndx = SHN_UNDEF ∨ sym.stShndx = SHN_COMMON

def Sym.isVisible (sym : Sym) : Bool := sym.bind = STB_GLOBAL ∨ sym.bind = STB_WEAK

/-- `bindings`, where each binding is put before those found so far. -/
def bindings (flag : Bool) (obj : Object) (mem : Memory) : Option (List Binding) :=
  obj.foldlM (fun syms sec =>
    if sec.shType = SHT_SYMTAB then
      (sec.syms.drop 1).foldlM (fun syms sym =>
        if sym.isMutable = flag ∧ sym.isVisible then do
          let name ← nameOf obj sec.toShdr sym
          some (⟨cString mem (2 ^ 64) name, sym.stValue⟩ :: syms)
        else some syms) syms
    else some syms) []

def mutableBindings (obj : Object) (mem : Memory) : Option (List Binding) := bindings true obj mem

def immutableBindings (obj : Object) (mem : Memory) : Option (List Binding) :=
  bindings false obj mem

/-- The part of a name that `strcmp` looks at. -/
def text (name : List Byte) : List Byte := name.takeWhile (· ≠ 0)

/-- `strcmp` finds no difference between the name of the binding and the given one. -/
def Binding.isNamed (name : List Byte) (binding : Binding) : Bool := text binding.name = text name

/-- `binding_equals` -/
def bindingEquals (a b : Binding) : Bool := b.isNamed a.name

/-- The case of `preprocessed_expression_address` for a symbol. -/
def preprocessedExpressionAddress (bindings : List Binding) (name : List Byte) : Option Word :=
  (bindings.find? (·.isNamed name)).map Binding.address

/-! ## The rounds -/

/-- An object file and the addresses that its sections are given. -/
structure Source where
  objsrc : List Byte
  place : Nat → Word

/-- A call of `mutate_bindings`: the bindings, the memory and the object that it gets, and
the object that it leaves. -/
structure Call where
  bindings : List Binding
  mem : Memory
  before : Object
  after : Object

structure State where
  objects : List Object
  bindings : List Binding
  mem : Memory
  calls : List Call

/-- Loads an object and adds the bindings that it defines. -/
def State.add (s : State) (source : Source) : Option State := do
  let (obj, mem) ← load source.objsrc source.place s.mem
  let defined ← immutableBindings obj mem
  some { s with objects := s.objects ++ [obj], bindings := s.bindings ++ defined, mem }

def mutateObjects (bindings : List Binding) :
    List Object → Memory → Option (List Call × Memory)
  | [], mem => some ([], mem)
  | obj :: objs, mem => do
    let (obj', mem') ← mutateBindings bindings obj mem
    let (calls, mem'') ← mutateObjects bindings objs mem'
    some (⟨bindings, mem, obj, obj'⟩ :: calls, mem'')

/-- Gives every object the bindings that there are. -/
def State.mutate (s : State) : Option State := do
  let (calls, mem) ← mutateObjects s.bindings s.objects s.mem
  some { s with objects := calls.map Call.after, mem, calls := s.calls ++ calls }

/-- `load_program_and_mutate`, for the object that a program is compiled to. -/
def State.loadProgramAndMutate (s : State) (source : Source) : Option State := do
  let (obj, mem) ← load source.objsrc source.place s.mem
  let undefined ← mutableBindings obj mem
  if undefined.all fun missing => s.bindings.any (bindingEquals missing) then
    let (obj', mem') ← mutateBindings s.bindings obj mem
    some { s with mem := mem', calls := s.calls ++ [⟨s.bindings, mem, obj, obj'⟩] }
  else none

/-- What happens while meta expressions are expanded: code runs, and a program that is
needed is compiled and loaded. -/
inductive Expansion where
  | ran (mem : Memory)
  | compiled (source : Source)

def State.expand (s : State) : Expansion → Option State
  | .ran mem => some { s with mem }
  | .compiled source => s.loadProgramAndMutate source

/-- The object that the thunks of a round are compiled to, and what the expansion of its
meta expressions does. -/
structure Round where
  program : Source
  expansions : List Expansion

def State.round (s : State) (round : Round) : Option State := do
  let s ← s.add round.program
  let s ← s.mutate
  round.expansions.foldlM State.expand s

/-- `evaluate_files`, from the bindings that are there before. -/
def evaluateFiles (bindings : List Binding) (mem : Memory) (files : List Source)
    (rounds : List Round) : Option State := do
  let s ← files.foldlM State.add ⟨[], bindings, mem, []⟩
  rounds.foldlM State.round s

/-- The symbol `j` of section `i` is one that `mutate_bindings` gives an address, and its
name is the given one. -/
def UndefinedReference (obj : Object) (mem : Memory) (name : List Byte) (i j : Nat) : Prop :=
  ∃ sec sym p, obj[i]? = some sec ∧ sec.shType = SHT_SYMTAB ∧ sec.syms[j]? = some sym ∧ 0 < j ∧
    sym.isMutable ∧ sym.isVisible ∧ nameOf obj sec.toShdr sym = some p ∧ strcmp mem p name

/-- The address that a macro of some name is found at is the one that undefined symbols of
this name get. -/
def Call.Agrees (call : Call) : Prop :=
  ∀ name i j, UndefinedReference call.before call.mem name i j →
    ∀ address, preprocessedExpressionAddress call.bindings name = some address →
      (call.after.sym i j).map Sym.stValue = some address

/-- For every undefined symbol the first and the last binding of its name have the same
address. -/
def Call.FirstIsLast (call : Call) : Prop :=
  ∀ name i j, UndefinedReference call.before call.mem name i j →
    ((call.bindings.filter (·.isNamed name)).head?).map Binding.address =
      ((call.bindings.filter (·.isNamed name)).getLast?).map Binding.address

/-! ## Names -/

theorem text_cons (c : Byte) (name : List Byte) :
    text (c :: name) = if c = 0 then [] else c :: text name := by
  unfold text
  rw [List.takeWhile_cons]
  by_cases hc : c = 0 <;> simp [hc]

theorem strcmp_cons (mem : Memory) (p : Word) (c : Byte) (name : List Byte) :
    strcmp mem p (c :: name) ↔ mem p = c ∧ (c = 0 ∨ strcmp mem (p + 1) name) := by
  rw [strcmp, decide_eq_true_eq]

theorem strcmp_of_zero {mem : Memory} {p : Word} (hzero : mem p = 0) (name : List Byte) :
    strcmp mem p name ↔ text name = [] := by
  cases name with
  | nil => exact ⟨fun _ => rfl, fun _ => decide_eq_true hzero⟩
  | cons c name =>
    rw [strcmp_cons, text_cons, hzero]
    by_cases hc : c = 0
    · rw [if_pos hc]
      exact ⟨fun _ => rfl, fun _ => ⟨hc.symm, .inl hc⟩⟩
    · rw [if_neg hc]
      exact ⟨fun h => absurd h.1.symm hc, fun h => absurd h (List.cons_ne_nil _ _)⟩

/-- Two names are found at one address when they have the same text. -/
theorem strcmp_iff_text {mem : Memory} {p : Word} {a : List Byte} (ha : strcmp mem p a)
    (b : List Byte) : strcmp mem p b ↔ text b = text a := by
  induction a generalizing p b with
  | nil => exact strcmp_of_zero (of_decide_eq_true ha) b
  | cons d a ih =>
    obtain ⟨hd, hrest⟩ := (strcmp_cons mem p d a).mp ha
    by_cases hzero : d = 0
    · rw [strcmp_of_zero (hd.trans hzero), text_cons, if_pos hzero]
    · have hnext : strcmp mem (p + 1) a := hrest.resolve_left hzero
      rw [text_cons, if_neg hzero]
      cases b with
      | nil =>
        have hne : ¬ strcmp mem p [] := fun h => hzero (hd.symm.trans (of_decide_eq_true h))
        exact iff_of_false hne (List.cons_ne_nil _ _).symm
      | cons c b =>
        rw [strcmp_cons, text_cons, hd]
        by_cases hc : c = 0
        · rw [if_pos hc]
          exact iff_of_false (fun h => hzero (h.1.trans hc)) (List.cons_ne_nil _ _).symm
        · rw [if_neg hc, ih hnext, List.cons.injEq, or_iff_right hc, eq_comm (a := c)]

/-! ## Symbols -/

variable {mem : Memory} {obj obj' : Object}

/-- No update is for a symbol that is defined. -/
theorem assign_of_defined {sym : Sym} (h : ¬ sym.isMutable) (mem : Memory) (name : Word)
    (updates : List Binding) : assign mem name updates sym = sym := by
  have hfilter : updates.filter (·.updates mem name sym) = [] := by
    apply List.filter_eq_nil_iff.mpr
    intro update _ hupdates
    exact h (decide_eq_true (of_decide_eq_true hupdates).2.1)
  unfold assign
  rw [hfilter]
  rfl

/-- The updates with the name of a symbol are for it if it is undefined and visible. -/
theorem assign_of_undefined {sym : Sym} (hmutable : sym.isMutable) (hvisible : sym.isVisible)
    {p : Word} {name : List Byte} (hname : strcmp mem p name) (updates : List Binding) :
    (assign mem p updates sym).stValue =
      ((updates.filter (·.isNamed name)).getLast?.map Binding.address).getD sym.stValue := by
  have hfilter : ∀ update : Binding, update.updates mem p sym = update.isNamed name := by
    intro update
    rw [Bool.eq_iff_iff]
    unfold Binding.updates Binding.isNamed
    rw [decide_eq_true_eq, decide_eq_true_eq, strcmp_iff_text hname]
    exact and_iff_left ⟨of_decide_eq_true hmutable, of_decide_eq_true hvisible⟩
  unfold assign
  simp only [hfilter]

/-- One update does to a symbol what `assign` says. -/
theorem mutateSyms_sym {update : Binding} (h : mutateSyms obj mem update = some obj')
    {i j : Nat} {sec : Section} (hsec : obj[i]? = some sec) :
    ∃ sec', obj'[i]? = some sec' ∧ SameHeader sec sec' ∧
      (sec.shType = SHT_SYMTAB → 0 < j → ∀ sym, sec.syms[j]? = some sym → ∀ p,
        nameOf obj sec.toShdr sym = some p →
          sec'.syms[j]? = some (assign mem p [update] sym)) := by
  have hrel := forall₂_getElem? (forall₂_of_mapM h) i
  rw [hsec] at hrel
  generalize obj'[i]? = section' at hrel
  cases hrel with
  | @some _ sec' hdone =>
    refine ⟨sec', rfl, ?_⟩
    by_cases htab : sec.shType = SHT_SYMTAB
    · rw [if_pos htab] at hdone
      obtain ⟨syms, hsyms, hdone⟩ := Option.bind_eq_some_iff.mp hdone
      cases hdone
      refine ⟨⟨rfl, rfl⟩, ?_⟩
      intro _ hj sym hsym p hp
      obtain ⟨j, rfl⟩ := Nat.exists_eq_add_of_lt hj
      rw [Nat.zero_add] at hsym ⊢
      have hdropped : (sec.syms.drop 1)[j]? = some sym := by
        rw [List.getElem?_drop, Nat.add_comm]
        exact hsym
      have hrel := forall₂_getElem? (forall₂_of_mapM hsyms) j
      rw [hdropped] at hrel
      generalize hout : syms[j]? = out at hrel
      cases hrel with
      | @some _ sym' hmutated =>
        unfold mutateSym at hmutated
        rw [hp] at hmutated
        have hsym' : assign mem p [update] sym = sym' := by
          rw [assign_singleton]
          exact Option.some.inj hmutated
        have hlength : (sec.syms.take 1).length = 1 := by
          rw [List.length_take]
          have := (List.getElem?_eq_some_iff.mp hsym).1
          omega
        show (sec.syms.take 1 ++ syms)[j + 1]? = _
        rw [List.getElem?_append_right (by omega), hlength, Nat.add_sub_cancel, hout, hsym']
    · rw [if_neg htab] at hdone
      cases hdone
      exact ⟨⟨rfl, rfl⟩, fun htab' => absurd htab' htab⟩

theorem nameOf_mutateSyms {update : Binding} (h : mutateSyms obj mem update = some obj')
    {shdr : Shdr} {sym : Sym} {p : Word} (hp : nameOf obj shdr sym = some p) (v : Word) :
    nameOf obj' shdr { sym with stValue := v } = some p := by
  unfold nameOf at hp ⊢
  obtain ⟨strings, hstrings, hp⟩ := Option.bind_eq_some_iff.mp hp
  obtain ⟨strings', hstrings', ⟨-, hseg⟩, -⟩ := mutateSyms_sym (j := 0) h hstrings
  rw [hstrings']
  show some (strings'.seg + _) = _
  rw [hseg]
  exact hp

/-- The updates together do to a symbol what `assign` says. -/
theorem foldlM_mutateSyms_sym {updates : List Binding}
    (h : updates.foldlM (fun obj update => mutateSyms obj mem update) obj = some obj')
    {i j : Nat} {sec : Section} {sym : Sym} {p : Word} (hsec : obj[i]? = some sec)
    (htab : sec.shType = SHT_SYMTAB) (hj : 0 < j) (hsym : sec.syms[j]? = some sym)
    (hp : nameOf obj sec.toShdr sym = some p) :
    obj'.sym i j = some (assign mem p updates sym) := by
  induction updates generalizing obj sec sym with
  | nil =>
    obtain rfl := Option.some.inj h
    show obj[i]?.bind _ = some sym
    rw [hsec]
    exact hsym
  | cons update updates ih =>
    rw [List.foldlM_cons] at h
    obtain ⟨obj₁, h₁, h⟩ := Option.bind_eq_some_iff.mp h
    obtain ⟨sec₁, hsec₁, ⟨hshdr, -⟩, hsyms⟩ := mutateSyms_sym (j := j) h₁ hsec
    have hsym₁ := hsyms htab hj sym hsym p hp
    have hname : nameOf obj₁ sec₁.toShdr (assign mem p [update] sym) = some p := by
      rw [hshdr]
      exact nameOf_mutateSyms h₁ hp _
    rw [ih h hsec₁ (by rw [hshdr]; exact htab) hsym₁ hname, assign_append]
    rfl

/-- The value of an undefined symbol after `mutate_bindings`: the address of the last
binding of its name. -/
theorem mutateBindings_sym {updates : List Binding} {mem' : Memory}
    (h : mutateBindings updates obj mem = some (obj', mem')) {name : List Byte} {i j : Nat}
    (href : UndefinedReference obj mem name i j) :
    ∃ old, (obj'.sym i j).map Sym.stValue =
      some ((((updates.filter (·.isNamed name)).getLast?).map Binding.address).getD old) := by
  obtain ⟨sec, sym, p, hsec, htab, hsym, hj, hmutable, hvisible, hp, hname⟩ := href
  unfold mutateBindings at h
  obtain ⟨obj₁, hupdates, h⟩ := Option.bind_eq_some_iff.mp h
  obtain ⟨mem₁, -, h⟩ := Option.bind_eq_some_iff.mp h
  cases h
  have hfilter : updates.filter (·.updates mem p sym) = updates.filter (·.isNamed name) := by
    apply List.filter_congr
    intro update _
    rw [Bool.eq_iff_iff]
    unfold Binding.updates Binding.isNamed
    rw [decide_eq_true_eq, decide_eq_true_eq, strcmp_iff_text hname]
    exact and_iff_left ⟨of_decide_eq_true hmutable, of_decide_eq_true hvisible⟩
  refine ⟨sym.stValue, ?_⟩
  rw [foldlM_mutateSyms_sym hupdates hsec htab hj hsym hp, ← hfilter]
  rfl

/-! ## Calls -/

/-- A call is one that `mutate_bindings` has come back from. -/
def Call.Done (call : Call) : Prop :=
  ∃ mem', mutateBindings call.bindings call.before call.mem = some (call.after, mem')

theorem Call.Done.agrees_iff {call : Call} (h : call.Done) :
    call.Agrees ↔ call.FirstIsLast := by
  obtain ⟨mem', h⟩ := h
  apply forall_congr'
  intro name
  apply forall_congr'
  intro i
  apply forall_congr'
  intro j
  apply imp_congr_right
  intro href
  obtain ⟨old, hvalue⟩ := mutateBindings_sym h href
  unfold preprocessedExpressionAddress
  rw [hvalue, ← List.head?_filter]
  generalize call.bindings.filter (·.isNamed name) = matching
  cases matching with
  | nil => simp
  | cons first rest =>
    rw [List.getLast?_eq_getLast_of_ne_nil (List.cons_ne_nil first rest)]
    show (∀ address, some first.address = some address → some _ = some address) ↔
      some first.address = some _
    constructor
    · exact fun hall => (hall _ rfl).symm
    · rintro hsame address ⟨⟩
      exact hsame.symm

theorem mutateObjects_done {bindings : List Binding} {objs : List Object} {mem mem' : Memory}
    {calls : List Call} (h : mutateObjects bindings objs mem = some (calls, mem')) :
    ∀ call ∈ calls, call.Done := by
  induction objs generalizing mem calls with
  | nil =>
    cases h
    exact fun _ hcall => absurd hcall List.not_mem_nil
  | cons obj objs ih =>
    unfold mutateObjects at h
    obtain ⟨⟨obj', mem₁⟩, hobj, h⟩ := Option.bind_eq_some_iff.mp h
    obtain ⟨⟨rest, mem₂⟩, hrest, h⟩ := Option.bind_eq_some_iff.mp h
    cases h
    exact List.forall_mem_cons.mpr ⟨⟨mem₁, hobj⟩, ih hrest⟩

/-- Every call so far is one that `mutate_bindings` has come back from. -/
def State.Done (s : State) : Prop := ∀ call ∈ s.calls, call.Done

variable {s s' : State}

theorem State.Done.add (hs : s.Done) {source : Source} (h : s.add source = some s') :
    s'.Done := by
  unfold State.add at h
  obtain ⟨⟨obj, mem⟩, -, h⟩ := Option.bind_eq_some_iff.mp h
  obtain ⟨defined, -, h⟩ := Option.bind_eq_some_iff.mp h
  cases h
  exact hs

theorem State.Done.mutate (hs : s.Done) (h : s.mutate = some s') : s'.Done := by
  unfold State.mutate at h
  obtain ⟨⟨calls, mem⟩, hcalls, h⟩ := Option.bind_eq_some_iff.mp h
  cases h
  exact List.forall_mem_append.mpr ⟨hs, mutateObjects_done hcalls⟩

theorem State.Done.expand (hs : s.Done) {expansion : Expansion}
    (h : s.expand expansion = some s') : s'.Done := by
  cases expansion with
  | ran mem =>
    cases h
    exact hs
  | compiled source =>
    unfold State.expand State.loadProgramAndMutate at h
    obtain ⟨⟨obj, mem⟩, -, h⟩ := Option.bind_eq_some_iff.mp h
    obtain ⟨undefined, -, h⟩ := Option.bind_eq_some_iff.mp h
    dsimp only at h
    split at h
    · obtain ⟨⟨obj', mem'⟩, hcall, h⟩ := Option.bind_eq_some_iff.mp h
      cases h
      exact List.forall_mem_append.mpr ⟨hs, List.forall_mem_singleton.mpr ⟨mem', hcall⟩⟩
    · cases h

/-- What every step keeps is kept by a run of them. -/
theorem State.Done.foldlM {α : Type} {step : State → α → Option State}
    (hstep : ∀ {s s' : State} {a : α}, s.Done → step s a = some s' → s'.Done) {as : List α}
    (hs : s.Done) (h : as.foldlM step s = some s') : s'.Done := by
  induction as generalizing s with
  | nil =>
    cases h
    exact hs
  | cons a as ih =>
    rw [List.foldlM_cons] at h
    obtain ⟨s₁, h₁, h⟩ := Option.bind_eq_some_iff.mp h
    exact ih (hstep hs h₁) h

theorem State.Done.round (hs : s.Done) {round : Round} (h : s.round round = some s') :
    s'.Done := by
  unfold State.round at h
  obtain ⟨s₁, hadd, h⟩ := Option.bind_eq_some_iff.mp h
  obtain ⟨s₂, hmutate, h⟩ := Option.bind_eq_some_iff.mp h
  exact ((hs.add hadd).mutate hmutate).foldlM (fun hs => hs.expand) h

theorem evaluateFiles_done {bindings : List Binding} {mem : Memory} {files : List Source}
    {rounds : List Round} (h : evaluateFiles bindings mem files rounds = some s) : s.Done := by
  unfold evaluateFiles at h
  obtain ⟨s₁, hfiles, h⟩ := Option.bind_eq_some_iff.mp h
  have hstart : State.Done ⟨[], bindings, mem, []⟩ := fun _ hcall => absurd hcall List.not_mem_nil
  exact (hstart.foldlM (fun hs => hs.add) hfiles).foldlM (fun hs => hs.round) h

/-- In every call of `mutate_bindings` that `evaluate_files` makes, the undefined symbols get
the addresses at which macros of their names are found if and only if the first and the last
binding of each of the names have the same address. -/
theorem evaluateFiles_agrees_iff {bindings : List Binding} {mem : Memory} {files : List Source}
    {rounds : List Round} (h : evaluateFiles bindings mem files rounds = some s) :
    ∀ call ∈ s.calls, call.Agrees ↔ call.FirstIsLast :=
  fun call hcall => (evaluateFiles_done h call hcall).agrees_iff

/-! ## A name that two files define -/

/-- A file that defines the function `a`, which returns at once. -/
def definingFile : List Byte :=
  [headerBytes 4, shdrBytes 0 0 0 0 0 0, shdrBytes 2 320 48 2 0 24, shdrBytes 3 368 3 0 0 0,
    shdrBytes 1 371 1 0 0 0,
    zeros 24, X86.bytesOf 4 1, [0x10, 0], X86.bytesOf 2 3, zeros 16, [0, 0x61, 0], [0xC3]].flatten

/-- The addresses of the sections of the file number `i`. -/
def filePlace (i : Nat) (sec : Nat) : Word := BitVec.ofNat 64 (0x10000 * (i + 1) + 0x1000 * sec)

/-- The file is loaded `n` times before a program that uses `a`. -/
def evaluateTwice (n : Nat) : Option State :=
  evaluateFiles [] (fun _ => 0) ((List.range n).map fun i => ⟨definingFile, filePlace i⟩)
    [⟨⟨smallFile 3 0, filePlace n⟩, []⟩]

theorem evaluateFiles_agrees_iff_twice : ∃ s, evaluateTwice 2 = some s ∧
    ∀ call ∈ s.calls, call.Agrees ↔ call.FirstIsLast := by
  have hsome : (evaluateTwice 2).isSome = true := by decide +kernel
  obtain ⟨s, hs⟩ := Option.isSome_iff_exists.mp hsome
  exact ⟨s, hs, evaluateFiles_agrees_iff hs⟩

/-- A macro `a` is the function of the first file, and the program calls the one of the
second. -/
theorem evaluateFiles_disagrees :
    ¬ ∀ (bindings : List Binding) (mem : Memory) (files : List Source) (rounds : List Round)
      (s : State), evaluateFiles bindings mem files rounds = some s →
      ∀ call ∈ s.calls, call.Agrees := by
  intro h
  have hcall : ((evaluateTwice 2).bind fun s => s.calls[2]?.bind fun call =>
      call.before[1]?.bind fun sec => sec.syms[1]?.bind fun sym =>
        (nameOf call.before sec.toShdr sym).map fun p =>
          ([decide (sec.shType = SHT_SYMTAB), sym.isMutable, sym.isVisible,
            strcmp call.mem p [0x61]], preprocessedExpressionAddress call.bindings [0x61],
            (call.after.sym 1 1).map Sym.stValue)) =
      some ([true, true, true, true], some 0x13000, some 0x23000) := by decide +kernel
  obtain ⟨s, hs, hcall⟩ := Option.bind_eq_some_iff.mp hcall
  obtain ⟨call, hmem, hcall⟩ := Option.bind_eq_some_iff.mp hcall
  obtain ⟨sec, hsec, hcall⟩ := Option.bind_eq_some_iff.mp hcall
  obtain ⟨sym, hsym, hcall⟩ := Option.bind_eq_some_iff.mp hcall
  obtain ⟨p, hp, hcall⟩ := Option.map_eq_some_iff.mp hcall
  simp only [Prod.mk.injEq, List.cons.injEq, decide_eq_true_eq, and_true] at hcall
  obtain ⟨⟨htab, hmutable, hvisible, hname⟩, hfirst, hlast⟩ := hcall
  have href : UndefinedReference call.before call.mem [0x61] 1 1 :=
    ⟨sec, sym, p, hsec, htab, hsym, Nat.one_pos, hmutable, hvisible, hp, hname⟩
  have hagrees := h _ _ _ _ s hs call (List.mem_of_getElem? hmem) _ _ _ href _ hfirst
  rw [hlast] at hagrees
  simp at hagrees

end L2.Bootstrap.ObjectFile
