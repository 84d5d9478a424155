import L2.Bootstrap.LinkSymbols
import L2.SelfHost.HashTable

/-!
# Linking symbols in the self-hosted compiler

`link-symbols` on hash tables.  Every construct puts its bindings in the table that the
calls below it share, and removes them by their names afterwards.  Each call gives the
tables back with the values that they had under each key (`linkSymbols_restores`), so that
a symbol finds what it would find in the lists of the bootstrap compiler
(`linkSymbols_agrees`).
-/

namespace L2.SelfHost

open Scope (Name Binding Expr parameterBindings continuationBindings withBindings)

/-- `hash-str`, on the characters of the string.  No proof looks into it. -/
@[irreducible] def hashStr (str : String) : Nat :=
  (str.toList.foldl (fun (h : BitVec 64) ch =>
    let h := (h <<< 4) + BitVec.ofNat 64 ch.toNat
    let g := h &&& 0xF0000000
    let h := if g ≠ 0 then h ^^^ (g >>> 24) else h
    h &&& ~~~g) 0).toNat

abbrev BindingTable := HashTable hashStr Binding

/-- `bndg-name`: a binding without a name has the empty string. -/
def bndgName (bndg : Binding) : String := bndg.name.elim "" Subtype.val

def put (bndg : Binding) (table : BindingTable) : BindingTable :=
  table.htPut (bndgName bndg) bndg

def remove (bndg : Binding) (table : BindingTable) : BindingTable :=
  table.htRemove (bndgName bndg)

/-- The loop that puts the bindings of a construct. -/
def putAll (bndgs : List Binding) (table : BindingTable) : BindingTable :=
  bndgs.foldl (fun table u => put u table) table

/-- The loop that removes bindings, in the order in which they were put. -/
def removeAll (bndgs : List Binding) (table : BindingTable) : BindingTable :=
  bndgs.foldl (fun table u => remove u table) table

/-- The tables that the calls share. -/
structure Tables where
  undefinedBindings : BindingTable
  staticBindings : BindingTable
  dynamicBindings : BindingTable

/-- A change of the table `bindings`. -/
def Tables.modify (staticStorage : Bool) (f : BindingTable → BindingTable) (t : Tables) : Tables :=
  if staticStorage then { t with staticBindings := f t.staticBindings }
  else { t with dynamicBindings := f t.dynamicBindings }

@[simp] theorem Tables.modify_true (f : BindingTable → BindingTable) (t : Tables) :
    t.modify true f = { t with staticBindings := f t.staticBindings } := rfl

@[simp] theorem Tables.modify_false (f : BindingTable → BindingTable) (t : Tables) :
    t.modify false f = { t with dynamicBindings := f t.dynamicBindings } := rfl

/-- The binding that `assign-binding` assigns, if it does. -/
def assignBinding (name : Name) (bindings : BindingTable) : Option Binding :=
  bindings.htContains name.val

/-- The case of a symbol that has no binding yet. -/
def linkSymbol (staticStorage : Bool) (name : Name) (t : Tables) : Binding × Tables :=
  match if staticStorage then none else assignBinding name t.dynamicBindings with
  | some bndg => (bndg, t)
  | none => match assignBinding name t.staticBindings with
    | some bndg => (bndg, t)
    | none => match assignBinding name t.undefinedBindings with
      | some bndg => (bndg, t)
      | none =>
        let bndg := .undefined name
        (bndg, { t with undefinedBindings := put bndg t.undefinedBindings })

mutual

def linkSymbols (staticStorage : Bool) (t : Tables) : Expr → Expr × Tables
  | .literal value => (.literal value, t)
  | .linked bndg => (.linked bndg, t)
  | .symbol name =>
    let (bndg, t) := linkSymbol staticStorage name t
    (.linked bndg, t)
  | .function id reference parameters expression =>
    let bndg := .reference reference .function id
    let dynamicBindings :=
      putAll (parameterBindings .function id parameters) (.htCreate hashStr Binding)
    let (expression, inner) := linkSymbols false
      ⟨t.undefinedBindings, put bndg t.staticBindings, dynamicBindings⟩ expression
    (.function id reference parameters expression,
      ⟨inner.undefinedBindings, remove bndg inner.staticBindings, t.dynamicBindings⟩)
  | .continuation id reference parameters expression =>
    let bndg := .reference reference .continuation id
    let bndgs := parameterBindings .continuation id parameters
    let t := (t.modify staticStorage (put bndg)).modify staticStorage (putAll bndgs)
    let (expression, t) := linkSymbols staticStorage t expression
    let t := (t.modify staticStorage (removeAll bndgs)).modify staticStorage (remove bndg)
    (.continuation id reference parameters expression, t)
  | .withExpr id reference expression =>
    let bndg := .reference reference .withExpr id
    let bndgs := parameterBindings .withExpr id [none]
    let t := (t.modify staticStorage (put bndg)).modify staticStorage (putAll bndgs)
    let (expression, t) := linkSymbols staticStorage t expression
    let t := (t.modify staticStorage (removeAll bndgs)).modify staticStorage (remove bndg)
    (.withExpr id reference expression, t)
  | .storage id reference arguments =>
    let bndg := .reference reference .storage id
    let (arguments, t) := linkArguments staticStorage (t.modify staticStorage (put bndg)) arguments
    (.storage id reference arguments, t.modify staticStorage (remove bndg))
  | .ifExpr condition consequent alternate =>
    let (condition, t) := linkSymbols staticStorage t condition
    let (consequent, t) := linkSymbols staticStorage t consequent
    let (alternate, t) := linkSymbols staticStorage t alternate
    (.ifExpr condition consequent alternate, t)
  | .invoke reference arguments =>
    let (reference, t) := linkSymbols staticStorage t reference
    let (arguments, t) := linkArguments staticStorage t arguments
    (.invoke reference arguments, t)
  | .jump id reference arguments =>
    let (reference, t) := linkSymbols staticStorage t reference
    let (arguments, t) := linkArguments staticStorage t arguments
    (.jump id reference arguments, t)
  | .constrain expression =>
    let (expression, t) := linkSymbols staticStorage t expression
    (.constrain expression, t)

def linkArguments (staticStorage : Bool) (t : Tables) : List Expr → List Expr × Tables
  | [] => ([], t)
  | u :: arguments =>
    let (u, t) := linkSymbols staticStorage t u
    let (arguments, t) := linkArguments staticStorage t arguments
    (u :: arguments, t)

end

/-- `global-binding-augs-of` -/
def globalBindingAugsOf (exprs : List Expr) : BindingTable :=
  exprs.foldl (fun bindingAugs t =>
    match t with
    | .function id reference _ _ => put (.reference reference .function id) bindingAugs
    | .storage id reference _ => put (.reference reference .storage id) bindingAugs
    | _ => bindingAugs) (.htCreate hashStr Binding)

/-! ## What the tables hold -/

/-- Two tables that hold the same values, in the same order, under every key. -/
def SameValues (table table' : BindingTable) : Prop :=
  ∀ key, table.valuesOf key = table'.valuesOf key

/-- A table holds the bindings of an environment list, under each name in their order. -/
def Holds (table : BindingTable) (bindings : List Binding) : Prop :=
  ∀ key, table.valuesOf key = bindings.filter (fun bndg => bndgName bndg = key)

theorem SameValues.refl (table : BindingTable) : SameValues table table := fun _ => rfl

theorem SameValues.trans {s t u : BindingTable} (h : SameValues s t) (h' : SameValues t u) :
    SameValues s u := fun key => (h key).trans (h' key)

theorem SameValues.holds {table table' : BindingTable} {bindings : List Binding}
    (h : SameValues table table') (h' : Holds table' bindings) : Holds table bindings :=
  fun key => (h key).trans (h' key)

theorem valuesOf_put (bndg : Binding) (table : BindingTable) (key : String) :
    (put bndg table).valuesOf key =
      if bndgName bndg = key then bndg :: table.valuesOf key else table.valuesOf key :=
  HashTable.valuesOf_htPut (bndgName bndg) bndg table key

/-- What is put on top of the values of a key is taken off again by as many removals. -/
theorem valuesOf_removeAll (bndgs : List Binding) (table : BindingTable) (key : String) :
    (removeAll bndgs table).valuesOf key =
      (table.valuesOf key).drop (bndgs.countP (fun bndg => bndgName bndg = key)) := by
  induction bndgs generalizing table with
  | nil => rfl
  | cons bndg bndgs ih =>
    show (removeAll bndgs (remove bndg table)).valuesOf key = _
    rw [ih]
    unfold remove
    rw [HashTable.valuesOf_htRemove]
    by_cases h : bndgName bndg = key
    · rw [if_pos h, List.countP_cons_of_pos (by simpa using h), List.drop_tail]
    · rw [if_neg h, List.countP_cons_of_neg (by simpa using h)]

theorem valuesOf_putAll (bndgs : List Binding) (table : BindingTable) (key : String) :
    (putAll bndgs table).valuesOf key =
      bndgs.reverse.filter (fun bndg => bndgName bndg = key) ++ table.valuesOf key := by
  induction bndgs generalizing table with
  | nil => rfl
  | cons bndg bndgs ih =>
    show (putAll bndgs (put bndg table)).valuesOf key = _
    rw [ih, valuesOf_put, List.reverse_cons, List.filter_append, List.append_assoc]
    by_cases h : bndgName bndg = key <;> simp [h]

/-- The removals of a construct undo its puts, also when several of its bindings have one
name and the oldest is asked for first. -/
theorem removeAll_putAll {bndgs : List Binding} {table inner : BindingTable}
    (h : SameValues inner (putAll bndgs table)) : SameValues (removeAll bndgs inner) table := by
  intro key
  rw [valuesOf_removeAll, h key, valuesOf_putAll]
  apply List.drop_left'
  rw [← List.countP_eq_length_filter, List.countP_reverse]

theorem remove_put {bndg : Binding} {table inner : BindingTable}
    (h : SameValues inner (put bndg table)) : SameValues (remove bndg inner) table := by
  have hall : SameValues (removeAll [bndg] inner) table := removeAll_putAll h
  exact hall

theorem holds_htCreate : Holds (.htCreate hashStr Binding) [] := fun key =>
  HashTable.valuesOf_htCreate key

theorem Holds.put {table : BindingTable} {bindings : List Binding} (h : Holds table bindings)
    (bndg : Binding) : Holds (put bndg table) (bndg :: bindings) := by
  intro key
  rw [valuesOf_put, h key]
  by_cases hkey : bndgName bndg = key <;> simp [hkey]

theorem Holds.putAll {table : BindingTable} {bindings : List Binding} (h : Holds table bindings)
    (bndgs : List Binding) : Holds (putAll bndgs table)
      (Bootstrap.prependBindings bndgs bindings) := by
  induction bndgs generalizing table bindings with
  | nil => exact h
  | cons bndg bndgs ih => exact ih (h.put bndg)

/-- The name of a token is no name of an anonymous binding. -/
theorem bndgName_eq_iff (bndg : Binding) (name : Name) :
    bndgName bndg = name.val ↔ bndg.name = some name := by
  unfold bndgName
  cases hname : bndg.name with
  | none => exact iff_of_false (fun h => name.property h.symm) (by simp)
  | some other => simp [Subtype.ext_iff]

/-- The newest binding of a name in the table is the first one in the list. -/
theorem Holds.assignBinding {table : BindingTable} {bindings : List Binding}
    (h : Holds table bindings) (name : Name) :
    assignBinding name table = Bootstrap.assignBinding name bindings := by
  unfold SelfHost.assignBinding Bootstrap.assignBinding
  rw [HashTable.htContains_eq, h name.val, List.head?_filter]
  simp only [bndgName_eq_iff]

/-! ## The tables after a call -/

/-- The static and the dynamic table hold what they held. -/
structure Restored (t t' : Tables) : Prop where
  staticBindings : SameValues t.staticBindings t'.staticBindings
  dynamicBindings : SameValues t.dynamicBindings t'.dynamicBindings

theorem Restored.refl (t : Tables) : Restored t t := ⟨.refl _, .refl _⟩

theorem Restored.trans {s t u : Tables} (h : Restored s t) (h' : Restored t u) : Restored s u :=
  ⟨h.staticBindings.trans h'.staticBindings, h.dynamicBindings.trans h'.dynamicBindings⟩

theorem Restored.modify {staticStorage : Bool} {f g : BindingTable → BindingTable}
    {t inner : Tables}
    (hfg : ∀ {table inner}, SameValues inner (f table) → SameValues (g inner) table)
    (h : Restored inner (t.modify staticStorage f)) :
    Restored (inner.modify staticStorage g) t := by
  cases staticStorage with
  | true =>
    rw [Tables.modify_true] at h ⊢
    exact ⟨hfg h.staticBindings, h.dynamicBindings⟩
  | false =>
    rw [Tables.modify_false] at h ⊢
    exact ⟨h.staticBindings, hfg h.dynamicBindings⟩

theorem linkSymbol_restores (staticStorage : Bool) (name : Name) (t : Tables) :
    Restored (linkSymbol staticStorage name t).2 t := by
  unfold linkSymbol
  split
  · exact .refl t
  · split
    · exact .refl t
    · split
      · exact .refl t
      · exact ⟨.refl _, .refl _⟩

mutual

theorem linkSymbols_restored (staticStorage : Bool) (t : Tables) :
    ∀ e : Expr, Restored (linkSymbols staticStorage t e).2 t
  | .literal _ => .refl t
  | .linked _ => .refl t
  | .symbol name => linkSymbol_restores staticStorage name t
  | .function _ _ _ expression =>
    ⟨remove_put (linkSymbols_restored false _ expression).staticBindings, .refl _⟩
  | .continuation _ _ _ expression =>
    .modify remove_put (.modify removeAll_putAll (linkSymbols_restored staticStorage _ expression))
  | .withExpr _ _ expression =>
    .modify remove_put (.modify removeAll_putAll (linkSymbols_restored staticStorage _ expression))
  | .storage _ _ arguments =>
    .modify remove_put (linkArguments_restored staticStorage _ arguments)
  | .ifExpr condition consequent alternate =>
    .trans (linkSymbols_restored staticStorage _ alternate) <|
      .trans (linkSymbols_restored staticStorage _ consequent)
        (linkSymbols_restored staticStorage t condition)
  | .invoke reference arguments =>
    .trans (linkArguments_restored staticStorage _ arguments)
      (linkSymbols_restored staticStorage t reference)
  | .jump _ reference arguments =>
    .trans (linkArguments_restored staticStorage _ arguments)
      (linkSymbols_restored staticStorage t reference)
  | .constrain expression => linkSymbols_restored staticStorage t expression

theorem linkArguments_restored (staticStorage : Bool) (t : Tables) :
    ∀ arguments : List Expr, Restored (linkArguments staticStorage t arguments).2 t
  | [] => .refl t
  | u :: arguments =>
    .trans (linkArguments_restored staticStorage _ arguments)
      (linkSymbols_restored staticStorage t u)

end

/-! ## The same binders -/

/-- The tables hold what the bootstrap compiler has in its lists.  Outside every function
it has no dynamic bindings, and the table of these is not looked at. -/
structure Corresponds (staticStorage : Bool) (t : Tables) (undefinedBindings : List Binding)
    (env : Bootstrap.Environment) : Prop where
  undefinedBindings : Holds t.undefinedBindings undefinedBindings
  staticBindings : Holds t.staticBindings env.staticBindings
  dynamicBindings :
    if staticStorage then env.dynamicBindings = [] else Holds t.dynamicBindings env.dynamicBindings

namespace Corresponds

variable {staticStorage : Bool} {t inner : Tables} {undefinedBindings inner' : List Binding}
  {env : Bootstrap.Environment}

/-- A call leaves a state in which the next one finds the same. -/
theorem after (h : Corresponds staticStorage t undefinedBindings env) (hr : Restored inner t)
    (hu : Holds inner.undefinedBindings inner') : Corresponds staticStorage inner inner' env where
  undefinedBindings := hu
  staticBindings := hr.staticBindings.holds h.staticBindings
  dynamicBindings := by
    have hd := h.dynamicBindings
    cases staticStorage with
    | true => exact hd
    | false => exact hr.dynamicBindings.holds hd

/-- What a construct puts into the table `bindings` is what is prepended to `*bindings`. -/
theorem extend (h : Corresponds staticStorage t undefinedBindings env) (bndgs : List Binding) :
    Corresponds staticStorage (t.modify staticStorage (putAll bndgs)) undefinedBindings
      (env.extend staticStorage bndgs) := by
  have hd := h.dynamicBindings
  cases staticStorage with
  | true =>
    rw [Tables.modify_true, Bootstrap.Environment.extend_true]
    exact ⟨h.undefinedBindings, h.staticBindings.putAll bndgs, hd⟩
  | false =>
    rw [Tables.modify_false, Bootstrap.Environment.extend_false]
    exact ⟨h.undefinedBindings, h.staticBindings, Holds.putAll hd bndgs⟩

/-- The reference and the parameters are put one after the other. -/
theorem extend_reference (h : Corresponds staticStorage t undefinedBindings env)
    (bndg : Binding) (bndgs : List Binding) :
    Corresponds staticStorage
      ((t.modify staticStorage (put bndg)).modify staticStorage (putAll bndgs))
      undefinedBindings (env.extend staticStorage (bndg :: bndgs)) := by
  have hd := h.dynamicBindings
  cases staticStorage with
  | true =>
    rw [Tables.modify_true, Tables.modify_true, Bootstrap.Environment.extend_true]
    exact ⟨h.undefinedBindings, (h.staticBindings.put bndg).putAll bndgs, hd⟩
  | false =>
    rw [Tables.modify_false, Tables.modify_false, Bootstrap.Environment.extend_false]
    exact ⟨h.undefinedBindings, h.staticBindings, Holds.putAll (Holds.put hd bndg) bndgs⟩

/-- The calls of `compile-program`, outside every function. -/
theorem outside {globalBindings : List Binding}
    (hundefined : Holds t.undefinedBindings undefinedBindings)
    (hglobal : Holds t.staticBindings globalBindings) :
    Corresponds true t undefinedBindings ⟨globalBindings, []⟩ where
  undefinedBindings := hundefined
  staticBindings := hglobal
  dynamicBindings := by
    rw [if_pos rfl]

theorem enter (h : Corresponds staticStorage t undefinedBindings env) (bndg : Binding)
    (parameters : List Binding) :
    Corresponds false
      ⟨t.undefinedBindings, put bndg t.staticBindings,
        putAll parameters (.htCreate hashStr Binding)⟩
      undefinedBindings (env.enter bndg parameters) :=
  ⟨h.undefinedBindings, h.staticBindings.put bndg, holds_htCreate.putAll parameters⟩

end Corresponds

/-- What both calls answer: the same expression, and undefined bindings that correspond. -/
structure SameAnswer {α : Type} (answer : α × Tables) (answer' : α × List Binding) : Prop where
  expression : answer.1 = answer'.1
  undefinedBindings : Holds answer.2.undefinedBindings answer'.2

theorem linkSymbol_same {staticStorage : Bool} {t : Tables} {undefinedBindings : List Binding}
    {env : Bootstrap.Environment} (name : Name)
    (h : Corresponds staticStorage t undefinedBindings env) :
    SameAnswer (linkSymbol staticStorage name t)
      (Bootstrap.linkSymbol name undefinedBindings env) := by
  have hdynamic : (if staticStorage then none else assignBinding name t.dynamicBindings) =
      Bootstrap.assignBinding name env.dynamicBindings := by
    have hd := h.dynamicBindings
    cases staticStorage with
    | true =>
      rw [if_pos rfl] at hd
      rw [hd]
      rfl
    | false => exact Holds.assignBinding hd name
  unfold linkSymbol Bootstrap.linkSymbol
  rw [hdynamic, h.staticBindings.assignBinding, h.undefinedBindings.assignBinding]
  cases Bootstrap.assignBinding name env.dynamicBindings with
  | some bndg => exact ⟨rfl, h.undefinedBindings⟩
  | none => cases Bootstrap.assignBinding name env.staticBindings with
    | some bndg => exact ⟨rfl, h.undefinedBindings⟩
    | none => cases Bootstrap.assignBinding name undefinedBindings with
      | some bndg => exact ⟨rfl, h.undefinedBindings⟩
      | none => exact ⟨rfl, h.undefinedBindings.put _⟩

/-- The construct around an answer is built from it. -/
theorem SameAnswer.map {α β : Type} {answer : α × Tables} {answer' : α × List Binding}
    (h : SameAnswer answer answer') (f : α → β) {t : Tables}
    (ht : t.undefinedBindings = answer.2.undefinedBindings) :
    SameAnswer (f answer.1, t) (f answer'.1, answer'.2) where
  expression := congrArg f h.expression
  undefinedBindings := by
    rw [ht]
    exact h.undefinedBindings

theorem modify_undefinedBindings (staticStorage : Bool) (f : BindingTable → BindingTable)
    (t : Tables) : (t.modify staticStorage f).undefinedBindings = t.undefinedBindings := by
  cases staticStorage <;> rfl

mutual

theorem linkSymbols_same {staticStorage : Bool} {t : Tables} {undefinedBindings : List Binding}
    {env : Bootstrap.Environment} (h : Corresponds staticStorage t undefinedBindings env) :
    ∀ e : Expr, SameAnswer (linkSymbols staticStorage t e)
      (Bootstrap.linkSymbols staticStorage undefinedBindings env e)
  | .literal _ => ⟨rfl, h.undefinedBindings⟩
  | .linked _ => ⟨rfl, h.undefinedBindings⟩
  | .symbol name => (linkSymbol_same name h).map Expr.linked rfl
  | .function id reference parameters expression =>
    (linkSymbols_same (h.enter _ _) expression).map (Expr.function id reference parameters) rfl
  | .continuation id reference parameters expression =>
    (linkSymbols_same (h.extend_reference _ _) expression).map
      (Expr.continuation id reference parameters) (by simp only [modify_undefinedBindings])
  | .withExpr id reference expression =>
    (linkSymbols_same (h.extend_reference _ _) expression).map
      (Expr.withExpr id reference) (by simp only [modify_undefinedBindings])
  | .storage id reference arguments =>
    (linkArguments_same (h.extend [.reference reference .storage id]) arguments).map
      (Expr.storage id reference) (modify_undefinedBindings _ _ _)
  | .ifExpr condition consequent alternate => by
    have hcondition := linkSymbols_same h condition
    have h₁ := h.after (linkSymbols_restored _ _ _) hcondition.undefinedBindings
    have hconsequent := linkSymbols_same h₁ consequent
    have h₂ := h₁.after (linkSymbols_restored _ _ _) hconsequent.undefinedBindings
    have halternate := linkSymbols_same h₂ alternate
    refine ⟨?_, halternate.undefinedBindings⟩
    show Expr.ifExpr _ _ _ = Expr.ifExpr _ _ _
    rw [hcondition.expression, hconsequent.expression, halternate.expression]
  | .invoke reference arguments => by
    have hreference := linkSymbols_same h reference
    have harguments := linkArguments_same
      (h.after (linkSymbols_restored _ _ _) hreference.undefinedBindings) arguments
    refine ⟨?_, harguments.undefinedBindings⟩
    show Expr.invoke _ _ = Expr.invoke _ _
    rw [hreference.expression, harguments.expression]
  | .jump id reference arguments => by
    have hreference := linkSymbols_same h reference
    have harguments := linkArguments_same
      (h.after (linkSymbols_restored _ _ _) hreference.undefinedBindings) arguments
    refine ⟨?_, harguments.undefinedBindings⟩
    show Expr.jump _ _ _ = Expr.jump _ _ _
    rw [hreference.expression, harguments.expression]
  | .constrain expression => (linkSymbols_same h expression).map Expr.constrain rfl

theorem linkArguments_same {staticStorage : Bool} {t : Tables}
    {undefinedBindings : List Binding} {env : Bootstrap.Environment}
    (h : Corresponds staticStorage t undefinedBindings env) :
    ∀ arguments : List Expr, SameAnswer (linkArguments staticStorage t arguments)
      (Bootstrap.linkArguments staticStorage undefinedBindings env arguments)
  | [] => ⟨rfl, h.undefinedBindings⟩
  | u :: arguments => by
    have hu := linkSymbols_same h u
    have harguments := linkArguments_same
      (h.after (linkSymbols_restored _ _ _) hu.undefinedBindings) arguments
    refine ⟨?_, harguments.undefinedBindings⟩
    show _ :: _ = _ :: _
    rw [hu.expression, harguments.expression]

end

/-- The global bindings are put in the order in which the bootstrap compiler prepends
them. -/
theorem globalBindingAugsOf_holds (exprs : List Expr) :
    Holds (globalBindingAugsOf exprs) (Bootstrap.globalBindingAugsOf exprs) := by
  unfold globalBindingAugsOf Bootstrap.globalBindingAugsOf
  have hfold : ∀ {table : BindingTable} {bindings : List Binding}, Holds table bindings →
      Holds
        (exprs.foldl (fun bindingAugs t =>
          match t with
          | .function id reference _ _ => put (.reference reference .function id) bindingAugs
          | .storage id reference _ => put (.reference reference .storage id) bindingAugs
          | _ => bindingAugs) table)
        (exprs.foldl (fun bindingAugs t =>
          match t with
          | .function id reference _ _ => .reference reference .function id :: bindingAugs
          | .storage id reference _ => .reference reference .storage id :: bindingAugs
          | _ => bindingAugs) bindings) := by
    induction exprs with
    | nil => exact id
    | cons t exprs ih =>
      intro table bindings h
      apply ih
      cases t <;> first | exact h | exact h.put _
  exact hfold holds_htCreate

/-- The linking in the loop of `compile-program`. -/
def linkProgram (exprs : List Expr) (dynamicBindings : BindingTable) : List Expr × Tables :=
  linkArguments true
    ⟨.htCreate hashStr Binding, globalBindingAugsOf exprs, dynamicBindings⟩ exprs

/-- Both compilers link a program alike, and find the same names undefined. -/
theorem linkProgram_same (exprs : List Expr) (dynamicBindings : BindingTable) :
    SameAnswer (linkProgram exprs dynamicBindings) (Bootstrap.linkProgram exprs) :=
  linkArguments_same (.outside holds_htCreate (globalBindingAugsOf_holds exprs)) exprs

/-- `link-symbols` with mutable tables does what `link_symbols` does with lists.  A call
that is made as `compile-program` makes it, with any global bindings and any undefined ones,
binds every symbol to the same binder and leaves the same undefined bindings; and every call
of `link-symbols` whatsoever, at any depth, gives the static and the dynamic table back with
the values they held under each key. -/
theorem linkSymbols_agrees (e : Expr) (t : Tables) (undefinedBindings globalBindings : List Binding)
    (hundefined : Holds t.undefinedBindings undefinedBindings)
    (hglobal : Holds t.staticBindings globalBindings) :
    (linkSymbols true t e).1 =
        (Bootstrap.linkSymbols true undefinedBindings ⟨globalBindings, []⟩ e).1 ∧
      Holds (linkSymbols true t e).2.undefinedBindings
        (Bootstrap.linkSymbols true undefinedBindings ⟨globalBindings, []⟩ e).2 ∧
      ∀ (staticStorage : Bool) (tables : Tables) (inner : Expr),
        Restored (linkSymbols staticStorage tables inner).2 tables := by
  have hsame := linkSymbols_same (.outside hundefined hglobal) e
  exact ⟨hsame.expression, hsame.undefinedBindings, linkSymbols_restored⟩

theorem k_nonempty : "k" ≠ "" := by decide

theorem f_nonempty : "f" ≠ "" := by decide

theorem g_nonempty : "g" ≠ "" := by decide

/-- `(with k (function f (k) [k g]))` next to a function `g`. -/
def shadowing : Expr :=
  .withExpr 0 (some ⟨"k", k_nonempty⟩) <|
    .function 1 (some ⟨"f", f_nonempty⟩) [some ⟨"k", k_nonempty⟩] <|
      .invoke (.symbol ⟨"k", k_nonempty⟩) [.symbol ⟨"g", g_nonempty⟩]

/-- The function `g` alone among the global bindings. -/
def globalFunction : Binding := .reference (some ⟨"g", g_nonempty⟩) .function 2

theorem linkSymbols_agrees_shadowing :
    let t : Tables := ⟨.htCreate hashStr Binding, put globalFunction (.htCreate hashStr Binding),
      .htCreate hashStr Binding⟩
    (linkSymbols true t shadowing).1 =
        (Bootstrap.linkSymbols true [] ⟨[globalFunction], []⟩ shadowing).1 ∧
      Holds (linkSymbols true t shadowing).2.undefinedBindings
        (Bootstrap.linkSymbols true [] ⟨[globalFunction], []⟩ shadowing).2 ∧
      ∀ (staticStorage : Bool) (tables : Tables) (inner : Expr),
        Restored (linkSymbols staticStorage tables inner).2 tables :=
  linkSymbols_agrees shadowing _ [] [globalFunction] holds_htCreate
    (holds_htCreate.put globalFunction)

end L2.SelfHost
