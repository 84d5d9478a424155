import L2.Bootstrap.BuildExpression

/-!
# Evaluating files

The loop of `evaluate_files`: bind the functions among the expressions, expand the meta
expressions among them, go on with what the expansions made.  A meta expression whose
expansion meets an undefined symbol is skipped, and as the next round only gets the new
expressions it is never tried again.  So the loop ends after two rounds at the latest
(`evaluateFiles_cases`), and what is bound then is what the first round bound and made
(`mem_finalBindings_iff`).

A macro is what the function bound to a name computes; how the functions are compiled and
run is not modelled.  Nothing keeps two functions from having the same name.
-/

namespace L2.Bootstrap

abbrev Macro := List Fragment → Fragment

inductive EvaluateFault where
  /-- `throw_undefined_symbol` -/
  | undefinedSymbol (name : Token)
  | build (fault : BuildFault)
  | exhausted

/-! ## Bindings -/

/-- The list of bindings: names with the macros that are at their addresses. -/
abbrev MacroBindings := List (Token × Macro)

def names (bindings : MacroBindings) : List Token := bindings.map Prod.fst

/-- The macro at the first binding of a name. -/
def firstBinding (bindings : MacroBindings) (name : Token) : Option Macro :=
  (bindings.find? (·.1 = name)).map Prod.snd

/-- The macro at the last binding of a name, which is the one that `mutate_bindings` leaves. -/
def lastBinding (bindings : MacroBindings) : Token → Option Macro := firstBinding bindings.reverse

/-- The macros that function expressions compute, and the macro that an expression which is no
symbol evaluates to: the meta expressions in it are expanded with the first bindings of names,
and it is linked with the last ones. -/
structure Macros where
  function : Source → Macro
  container : (Token → Option Macro) → (Token → Option Macro) → Source →
    Except EvaluateFault Macro

variable (macros : Macros)

def preprocessedExpressionAddress (bindings : MacroBindings) :
    Source → Except EvaluateFault Macro
  | .symbol name =>
    match firstBinding bindings name with
    | some macro' => .ok macro'
    | none => .error (.undefinedSymbol name)
  | s => macros.container (firstBinding bindings) (lastBinding bindings) s

/-! ## The loop -/

/-- The expression that a macro answers. -/
def buildAnswer (fragment : Fragment) : Except EvaluateFault Source :=
  match buildExpression fragment with
  | .ok s => .ok s
  | .error fault => .error (.build fault)

/-- What a macro answers is expanded in turn.  The signature of a constrain expression is
made by a macro too. -/
def vgenerateMetas (bindings : MacroBindings) : Nat → Source → Except EvaluateFault Source
  | 0, _ => .error .exhausted
  | n + 1, .metaExpr reference fragment => do
    let macro' ← preprocessedExpressionAddress macros bindings reference
    let s ← buildAnswer (macro' fragment.tail)
    vgenerateMetas bindings n s
  | _ + 1, .constrain expression reference => do
    let _ ← preprocessedExpressionAddress macros bindings reference
    .ok (.constrain expression reference)
  | _ + 1, s => .ok s

def functionName? : Source → Option Token
  | .function reference _ _ => some reference
  | _ => none

/-- The binding of the thunk for a function. -/
def thunk? (s : Source) : Option (Token × Macro) :=
  (functionName? s).map fun name => (name, macros.function s)

/-- The thunks of `generate_metaprogram`, in the order in which `immutable_bindings` lists them
when they have been loaded: the last one comes first. -/
def generateMetaprogram (exprs : List Source) : MacroBindings :=
  (exprs.filterMap (thunk? macros)).reverse

/-- The bindings that a round expands with. -/
def roundBindings (bindings : MacroBindings) (allExprs : List Source) : MacroBindings :=
  bindings ++ generateMetaprogram macros allExprs

def isMeta : Source → Bool
  | .metaExpr _ _ => true
  | _ => false

def tryGenerateMetas (n : Nat) (bindings : MacroBindings) (extension : List Source) :
    List Source → Except EvaluateFault (List Source)
  | [] => .ok extension
  | s :: exprs =>
    if isMeta s then
      match vgenerateMetas macros bindings n s with
      | .ok out => tryGenerateMetas n bindings (out :: extension) exprs
      | .error (.undefinedSymbol _) => tryGenerateMetas n bindings extension exprs
      | .error fault => .error fault
    else tryGenerateMetas n bindings extension exprs

/-- A round of the loop: its expressions, the bindings after their functions were added,
and the expressions that it made. -/
structure Round where
  allExprs : List Source
  bindings : MacroBindings
  extension : List Source

/-- The rounds of the loop; `n` bounds their number and the depth of the expansions. -/
def evaluateRounds (n : Nat) :
    Nat → MacroBindings → List Source → Except EvaluateFault (List Round)
  | 0, _, _ => .error .exhausted
  | k + 1, bindings, allExprs => do
    let bindings := roundBindings macros bindings allExprs
    let extension ← tryGenerateMetas macros n bindings [] allExprs
    let round : Round := ⟨allExprs, bindings, extension⟩
    if extension.isEmpty then .ok [round]
    else do
      let rounds ← evaluateRounds n k bindings extension
      .ok (round :: rounds)

def evaluateFiles (n : Nat) (bindings : MacroBindings) (allExprs : List Source) :
    Except EvaluateFault (List Round) :=
  evaluateRounds macros n n bindings allExprs

/-- The bindings at the end. -/
def finalBindings (rounds : List Round) : MacroBindings :=
  (rounds.getLast?.map Round.bindings).getD []

/-! ## First bindings -/

theorem firstBinding_append (l l' : MacroBindings) (name : Token) :
    firstBinding (l ++ l') name = (firstBinding l name).or (firstBinding l' name) := by
  unfold firstBinding
  rw [List.find?_append]
  cases l.find? (·.1 = name) <;> rfl

theorem firstBinding_eq_none_iff {bindings : MacroBindings} {name : Token} :
    firstBinding bindings name = none ↔ name ∉ names bindings := by
  unfold firstBinding names
  rw [Option.map_eq_none_iff, List.find?_eq_none, List.mem_map]
  constructor
  · rintro h ⟨binding, hmem, hname⟩
    exact h binding hmem (decide_eq_true hname)
  · intro h binding hmem hname
    exact h ⟨binding, hmem, of_decide_eq_true hname⟩

theorem firstBinding_cons (binding : Token × Macro) (l : MacroBindings) (name : Token) :
    firstBinding (binding :: l) name =
      if binding.1 = name then some binding.2 else firstBinding l name := by
  unfold firstBinding
  rw [List.find?_cons]
  by_cases h : binding.1 = name <;> simp [h]

/-- Where a name has one binding, this is the one that is found. -/
theorem firstBinding_eq_some_iff {bindings : MacroBindings} (h : (names bindings).Nodup)
    {name : Token} {macro' : Macro} :
    firstBinding bindings name = some macro' ↔ (name, macro') ∈ bindings := by
  induction bindings with
  | nil => exact iff_of_false nofun List.not_mem_nil
  | cons binding l ih =>
    obtain ⟨hnot, hl⟩ := List.nodup_cons.mp h
    rw [firstBinding_cons, List.mem_cons]
    by_cases hname : binding.1 = name
    · rw [if_pos hname, Option.some.injEq]
      subst hname
      constructor
      · rintro rfl
        exact .inl rfl
      · rintro (heq | hmem)
        · exact (congrArg Prod.snd heq).symm
        · exact absurd (List.mem_map_of_mem hmem) hnot
    · rw [if_neg hname, ih hl]
      refine ⟨.inr, fun hmem => hmem.resolve_left ?_⟩
      rintro rfl
      exact hname rfl

theorem firstBinding_perm {l l' : MacroBindings} (h : (names l).Nodup) (hperm : l'.Perm l) :
    firstBinding l' = firstBinding l := by
  funext name
  have h' : (names l').Nodup := (hperm.map Prod.fst).nodup_iff.mpr h
  apply Option.ext
  intro macro'
  rw [firstBinding_eq_some_iff h, firstBinding_eq_some_iff h', hperm.mem_iff]

theorem fst_thunk? (s : Source) : (thunk? macros s).map Prod.fst = functionName? s := by
  unfold thunk?
  cases functionName? s <;> rfl

theorem names_generateMetaprogram (exprs : List Source) :
    names (generateMetaprogram macros exprs) = (exprs.filterMap functionName?).reverse := by
  unfold names generateMetaprogram
  rw [List.map_reverse, List.map_filterMap]
  simp only [fst_thunk?]

theorem mem_names_append {l l' : MacroBindings} {name : Token} :
    name ∈ names (l ++ l') ↔ name ∈ names l ∨ name ∈ names l' := by
  unfold names
  rw [List.map_append, List.mem_append]

theorem mem_names_roundBindings {bindings : MacroBindings} {exprs : List Source} {name : Token} :
    name ∈ names (roundBindings macros bindings exprs) ↔
      name ∈ names bindings ∨ name ∈ exprs.filterMap functionName? := by
  unfold roundBindings
  rw [mem_names_append, names_generateMetaprogram, List.mem_reverse]

/-- The names that are bound at the start do not depend on the order of the sources. -/
theorem names_roundBindings_perm {bindings : MacroBindings} {exprs exprs' : List Source}
    (hperm : exprs'.Perm exprs) (name : Token) :
    name ∈ names (roundBindings macros bindings exprs') ↔
      name ∈ names (roundBindings macros bindings exprs) := by
  rw [mem_names_roundBindings, mem_names_roundBindings, (hperm.filterMap functionName?).mem_iff]

/-- If no two functions have one name, neither do the macros. -/
theorem preprocessedExpressionAddress_perm {bindings : MacroBindings}
    {exprs exprs' : List Source} (hperm : exprs'.Perm exprs)
    (hnodup : (exprs.filterMap functionName?).Nodup) :
    preprocessedExpressionAddress macros (roundBindings macros bindings exprs') =
      preprocessedExpressionAddress macros (roundBindings macros bindings exprs) := by
  have hnames : (names (generateMetaprogram macros exprs)).Nodup := by
    rw [names_generateMetaprogram, List.nodup_reverse]
    exact hnodup
  have hthunks : (generateMetaprogram macros exprs').Perm (generateMetaprogram macros exprs) :=
    (List.reverse_perm _).trans ((hperm.filterMap (thunk? macros)).trans (List.reverse_perm _).symm)
  have hfirst : firstBinding (roundBindings macros bindings exprs') =
      firstBinding (roundBindings macros bindings exprs) := by
    funext name
    unfold roundBindings
    rw [firstBinding_append, firstBinding_append, firstBinding_perm hnames hthunks]
  have hreverse : (generateMetaprogram macros exprs).reverse.Perm
      (generateMetaprogram macros exprs) := List.reverse_perm _
  have hlast : lastBinding (roundBindings macros bindings exprs') =
      lastBinding (roundBindings macros bindings exprs) := by
    funext name
    unfold lastBinding roundBindings
    rw [List.reverse_append, List.reverse_append, firstBinding_append, firstBinding_append,
      firstBinding_perm hnames hreverse,
      firstBinding_perm hnames ((List.reverse_perm _).trans hthunks)]
  funext s
  cases s with
  | symbol name =>
    show (match firstBinding _ name with | some _ => _ | none => _) = _
    rw [hfirst]
    rfl
  | _ =>
    show macros.container _ _ _ = macros.container _ _ _
    rw [hfirst, hlast]

/-! ## Expansions -/

theorem except_bind_ok {ε α β : Type} {x : Except ε α} {f : α → Except ε β} {b : β}
    (h : (x >>= f) = .ok b) : ∃ a, x = .ok a ∧ f a = .ok b := by
  cases x with
  | error e => exact absurd h (by simp [bind, Except.bind])
  | ok a => exact ⟨a, rfl, h⟩

/-- An expansion ends with an expression that is no meta expression. -/
theorem isMeta_vgenerateMetas {bindings : MacroBindings} {n : Nat} {s out : Source}
    (h : vgenerateMetas macros bindings n s = .ok out) : isMeta out = false := by
  induction n generalizing s with
  | zero => exact absurd h (by simp [vgenerateMetas])
  | succ n ih =>
    cases s with
    | metaExpr reference fragment =>
      obtain ⟨macro', -, h⟩ := except_bind_ok h
      obtain ⟨s, -, h⟩ := except_bind_ok h
      exact ih h
    | constrain expression reference =>
      obtain ⟨macro', -, h⟩ := except_bind_ok h
      rw [← Except.ok.inj h]
      rfl
    | _ =>
      rw [← Except.ok.inj h]
      rfl

/-- What an expression expands to: the macro is applied to the arguments, and its answer is
expanded in turn. -/
inductive ExpandsTo (bindings : MacroBindings) : Source → Source → Prop
  | metaExpr {reference : Source} {fragment : List Fragment} {macro' : Macro} {s out : Source} :
      preprocessedExpressionAddress macros bindings reference = .ok macro' →
      buildAnswer (macro' fragment.tail) = .ok s → ExpandsTo bindings s out →
      ExpandsTo bindings (.metaExpr reference fragment) out
  | constrain {expression reference : Source} {macro' : Macro} :
      preprocessedExpressionAddress macros bindings reference = .ok macro' →
      ExpandsTo bindings (.constrain expression reference) (.constrain expression reference)
  | plain {s : Source} : isMeta s = false →
      (∀ expression reference, s ≠ .constrain expression reference) → ExpandsTo bindings s s

theorem expandsTo_of_vgenerateMetas {bindings : MacroBindings} {n : Nat} {s out : Source}
    (h : vgenerateMetas macros bindings n s = .ok out) : ExpandsTo macros bindings s out := by
  induction n generalizing s with
  | zero => exact absurd h (by simp [vgenerateMetas])
  | succ n ih =>
    cases s with
    | metaExpr reference fragment =>
      obtain ⟨macro', haddress, h⟩ := except_bind_ok h
      obtain ⟨s, hs, h⟩ := except_bind_ok h
      exact .metaExpr haddress hs (ih h)
    | constrain expression reference =>
      obtain ⟨macro', haddress, h⟩ := except_bind_ok h
      rw [← Except.ok.inj h]
      exact .constrain haddress
    | _ =>
      rw [← Except.ok.inj h]
      exact .plain rfl nofun

theorem vgenerateMetas_of_expandsTo {bindings : MacroBindings} {s out : Source}
    (h : ExpandsTo macros bindings s out) :
    ∃ n, vgenerateMetas macros bindings n s = .ok out := by
  induction h with
  | metaExpr haddress hs _ ih =>
    obtain ⟨n, hn⟩ := ih
    refine ⟨n + 1, ?_⟩
    rw [vgenerateMetas, haddress]
    show (buildAnswer _ >>= _) = _
    rw [hs]
    exact hn
  | constrain haddress =>
    refine ⟨1, ?_⟩
    rw [vgenerateMetas, haddress]
    rfl
  | @plain s hmeta hconstrain =>
    refine ⟨1, ?_⟩
    cases s with
    | metaExpr reference fragment => exact absurd hmeta (by simp [isMeta])
    | constrain expression reference => exact absurd rfl (hconstrain expression reference)
    | _ => rfl

/-- The macro of a meta expression that expands is bound. -/
theorem mem_names_of_expandsTo {bindings : MacroBindings} {name : Token}
    {fragment : List Fragment} {out : Source}
    (h : ExpandsTo macros bindings (.metaExpr (.symbol name) fragment) out) :
    name ∈ names bindings := by
  cases h with
  | metaExpr haddress _ _ =>
    by_contra hname
    rw [preprocessedExpressionAddress, firstBinding_eq_none_iff.mpr hname] at haddress
    exact absurd haddress (by simp)
  | plain hmeta _ => exact absurd hmeta (by simp [isMeta])

/-- With more steps allowed, the outcome is the same. -/
theorem vgenerateMetas_mono {bindings : MacroBindings} {n m : Nat} (hle : n ≤ m) {s : Source}
    (h : vgenerateMetas macros bindings n s ≠ .error .exhausted) :
    vgenerateMetas macros bindings m s = vgenerateMetas macros bindings n s := by
  induction n generalizing m s with
  | zero => exact absurd rfl h
  | succ n ih =>
    obtain ⟨m, rfl⟩ : ∃ k, m = k + 1 := ⟨m - 1, by omega⟩
    cases s with
    | metaExpr reference fragment =>
      rw [vgenerateMetas] at h ⊢
      rw [vgenerateMetas]
      cases haddress : preprocessedExpressionAddress macros bindings reference with
      | error fault => rfl
      | ok macro' =>
        rw [haddress] at h
        show (buildAnswer _ >>= _) = (buildAnswer _ >>= _)
        have h : (buildAnswer (macro' fragment.tail) >>= vgenerateMetas macros bindings n) ≠
          .error .exhausted := h
        cases hs : buildAnswer (macro' fragment.tail) with
        | error fault => rfl
        | ok s =>
          rw [hs] at h
          exact ih (Nat.le_of_succ_le_succ hle) h
    | _ => rfl

/-- The expansion of an expression fails at most for an undefined symbol. -/
def ExpansionEnds (bindings : MacroBindings) (n : Nat) (s : Source) : Prop :=
  ∀ fault, vgenerateMetas macros bindings n s = .error fault →
    ∃ name, fault = .undefinedSymbol name

theorem ExpansionEnds.mono {bindings : MacroBindings} {n m : Nat} (hle : n ≤ m) {s : Source}
    (h : ExpansionEnds macros bindings n s) : ExpansionEnds macros bindings m s := by
  intro fault hfault
  rw [vgenerateMetas_mono macros hle] at hfault
  · exact h fault hfault
  · intro hexhausted
    obtain ⟨name, hname⟩ := h _ hexhausted
    exact absurd hname (by simp)

/-- Where the expansion ends, it has what the expression expands to. -/
theorem ExpansionEnds.vgenerateMetas_iff {bindings : MacroBindings} {n : Nat} {s : Source}
    (h : ExpansionEnds macros bindings n s) (out : Source) :
    vgenerateMetas macros bindings n s = .ok out ↔ ExpandsTo macros bindings s out := by
  refine ⟨expandsTo_of_vgenerateMetas macros, fun hexpands => ?_⟩
  obtain ⟨m, hm⟩ := vgenerateMetas_of_expandsTo macros hexpands
  have hends : vgenerateMetas macros bindings n s ≠ .error .exhausted := by
    intro hexhausted
    obtain ⟨name, hname⟩ := h _ hexhausted
    exact absurd hname (by simp)
  have hmok : vgenerateMetas macros bindings m s ≠ .error .exhausted := by
    rw [hm]
    exact nofun
  rw [← vgenerateMetas_mono macros (Nat.le_max_left n m) hends,
    vgenerateMetas_mono macros (Nat.le_max_right n m) hmok]
  exact hm

/-! ## One round -/

/-- The expansions that `try_generate_metas` returns. -/
def Expands (n : Nat) (bindings : MacroBindings) (exprs : List Source) (out : Source) : Prop :=
  ∃ s ∈ exprs, isMeta s ∧ vgenerateMetas macros bindings n s = .ok out

/-- No expansion fails but for an undefined symbol. -/
def Harmless (n : Nat) (bindings : MacroBindings) (exprs : List Source) : Prop :=
  ∀ s ∈ exprs, isMeta s → ExpansionEnds macros bindings n s

theorem expands_cons {n : Nat} {bindings : MacroBindings} {s out : Source} {exprs : List Source} :
    Expands macros n bindings (s :: exprs) out ↔
      (isMeta s ∧ vgenerateMetas macros bindings n s = .ok out) ∨
        Expands macros n bindings exprs out := by
  unfold Expands
  simp only [List.mem_cons, exists_eq_or_imp]

theorem harmless_cons {n : Nat} {bindings : MacroBindings} {s : Source} {exprs : List Source} :
    Harmless macros n bindings (s :: exprs) ↔
      (isMeta s → ExpansionEnds macros bindings n s) ∧ Harmless macros n bindings exprs :=
  List.forall_mem_cons

/-- An expression is passed over if it is no meta expression or meets an undefined symbol. -/
theorem tryGenerateMetas_skip {n : Nat} {bindings : MacroBindings} {s : Source}
    (h : isMeta s = true →
      ∃ name, vgenerateMetas macros bindings n s = .error (.undefinedSymbol name))
    (extension exprs : List Source) :
    tryGenerateMetas macros n bindings extension (s :: exprs) =
      tryGenerateMetas macros n bindings extension exprs := by
  rw [tryGenerateMetas]
  by_cases hmeta : isMeta s = true
  · obtain ⟨name, hname⟩ := h hmeta
    rw [if_pos hmeta, hname]
  · rw [if_neg hmeta]

/-- What one call returns, and when it returns. -/
theorem tryGenerateMetas_spec (n : Nat) (bindings : MacroBindings) (exprs extension : List Source) :
    (Harmless macros n bindings exprs →
      ∃ result, tryGenerateMetas macros n bindings extension exprs = .ok result) ∧
    ∀ result, tryGenerateMetas macros n bindings extension exprs = .ok result →
      Harmless macros n bindings exprs ∧
      ∀ out, out ∈ result ↔ out ∈ extension ∨ Expands macros n bindings exprs out := by
  induction exprs generalizing extension with
  | nil =>
    refine ⟨fun _ => ⟨extension, rfl⟩, fun result h => ⟨?_, fun out => ?_⟩⟩
    · intro s hs
      exact absurd hs List.not_mem_nil
    · rw [← Except.ok.inj h]
      exact (or_iff_left fun ⟨s, hs, _⟩ => List.not_mem_nil hs).symm
  | cons s exprs ih =>
    rw [harmless_cons]
    simp only [expands_cons]
    by_cases hskip : isMeta s = true →
        ∃ name, vgenerateMetas macros bindings n s = .error (.undefinedSymbol name)
    · rw [tryGenerateMetas_skip macros hskip]
      obtain ⟨hreturns, hresult⟩ := ih extension
      refine ⟨fun h => hreturns h.2, fun result h => ?_⟩
      obtain ⟨hharmless, hmem⟩ := hresult result h
      refine ⟨⟨?_, hharmless⟩, ?_⟩
      · intro hmeta fault hfault
        obtain ⟨name, hname⟩ := hskip hmeta
        rw [hname] at hfault
        exact ⟨name, (Except.error.inj hfault).symm⟩
      · intro out
        have hnot : ¬ (isMeta s = true ∧ vgenerateMetas macros bindings n s = .ok out) := by
          rintro ⟨hmeta, hout⟩
          obtain ⟨name, hname⟩ := hskip hmeta
          rw [hname] at hout
          exact absurd hout (by simp)
        rw [hmem out, or_iff_right hnot]
    · obtain ⟨hmeta, hdefined⟩ := Classical.not_imp.mp hskip
      rw [tryGenerateMetas, if_pos hmeta]
      cases hs : vgenerateMetas macros bindings n s with
      | ok made =>
        obtain ⟨hreturns, hresult⟩ := ih (made :: extension)
        refine ⟨fun h => hreturns h.2, fun result h => ?_⟩
        obtain ⟨hharmless, hmem⟩ := hresult result h
        refine ⟨⟨?_, hharmless⟩, ?_⟩
        · intro _ fault hfault
          rw [hs] at hfault
          exact absurd hfault (by simp)
        · intro out
          rw [hmem out, List.mem_cons, Except.ok.injEq, eq_comm (a := made), or_assoc]
          simp only [hmeta, true_and]
          exact or_left_comm
      | error fault =>
        have hfault : ∀ name, fault ≠ .undefinedSymbol name := by
          rintro name rfl
          exact hdefined ⟨name, hs⟩
        refine ⟨?_, ?_⟩
        · rintro ⟨hends, -⟩
          obtain ⟨name, hname⟩ := hends hmeta fault hs
          exact absurd hname (hfault name)
        · intro result h
          cases fault with
          | undefinedSymbol name => exact absurd rfl (hfault name)
          | build | exhausted => exact absurd h (by simp)

/-- There is nothing to do where no meta expressions are. -/
theorem tryGenerateMetas_of_noMeta {n : Nat} {bindings : MacroBindings} {exprs : List Source}
    (extension : List Source) (h : ∀ s ∈ exprs, isMeta s = false) :
    tryGenerateMetas macros n bindings extension exprs = .ok extension := by
  induction exprs with
  | nil => rfl
  | cons s exprs ih =>
    unfold tryGenerateMetas
    rw [h s List.mem_cons_self]
    exact ih fun x hx => h x (List.mem_cons_of_mem s hx)

/-! ## The loop -/

theorem evaluateRounds_succ {n k : Nat} {bindings : MacroBindings} {exprs extension : List Source}
    (h : tryGenerateMetas macros n (roundBindings macros bindings exprs) [] exprs =
      .ok extension) :
    evaluateRounds macros n (k + 1) bindings exprs =
      if extension.isEmpty then
        .ok [⟨exprs, roundBindings macros bindings exprs, extension⟩]
      else (evaluateRounds macros n k (roundBindings macros bindings exprs) extension).map
        (⟨exprs, roundBindings macros bindings exprs, extension⟩ :: ·) := by
  rw [evaluateRounds, h]
  simp only [bind, Except.bind]
  split
  · rfl
  · cases evaluateRounds macros n k (roundBindings macros bindings exprs) extension <;> rfl

/-- A round without meta expressions is the last. -/
theorem evaluateRounds_of_noMeta {n : Nat} (k : Nat) (bindings : MacroBindings)
    {exprs : List Source} (h : ∀ s ∈ exprs, isMeta s = false) :
    evaluateRounds macros n (k + 1) bindings exprs =
      .ok [⟨exprs, roundBindings macros bindings exprs, []⟩] := by
  rw [evaluateRounds_succ macros (tryGenerateMetas_of_noMeta macros [] h)]
  rfl

/-- The expansions of the first round, with nothing left to expand among them. -/
theorem isMeta_of_mem_extension {n : Nat} {bindings : MacroBindings} {exprs extension : List Source}
    (h : tryGenerateMetas macros n bindings [] exprs = .ok extension) :
    ∀ s ∈ extension, isMeta s = false := by
  intro s hs
  rcases (((tryGenerateMetas_spec macros n bindings exprs []).2 extension h).2 s).mp hs with
    hnil | ⟨x, -, -, hx⟩
  · exact absurd hnil List.not_mem_nil
  · exact isMeta_vgenerateMetas macros hx

/-- The loop ends in the first round that makes nothing, which is the first or the second. -/
theorem evaluateFiles_cases {n : Nat} {bindings : MacroBindings} {exprs : List Source}
    {rounds : List Round} (h : evaluateFiles macros n bindings exprs = .ok rounds) :
    ∃ extension,
      tryGenerateMetas macros n (roundBindings macros bindings exprs) [] exprs = .ok extension ∧
      (extension = [] ∧ rounds = [⟨exprs, roundBindings macros bindings exprs, []⟩] ∨
        extension ≠ [] ∧
        rounds =
          [⟨exprs, roundBindings macros bindings exprs, extension⟩,
            ⟨extension, roundBindings macros (roundBindings macros bindings exprs) extension,
              []⟩]) := by
  unfold evaluateFiles at h
  cases n with
  | zero => exact absurd h (by simp [evaluateRounds])
  | succ n =>
    cases hextension : tryGenerateMetas macros (n + 1) (roundBindings macros bindings exprs) []
        exprs with
    | error fault =>
      rw [evaluateRounds] at h
      dsimp only at h
      rw [hextension] at h
      exact absurd h (by simp [bind, Except.bind])
    | ok extension =>
      refine ⟨extension, rfl, ?_⟩
      rw [evaluateRounds_succ macros hextension] at h
      by_cases hempty : extension = []
      · subst hempty
        exact Or.inl ⟨rfl, (Except.ok.inj h).symm⟩
      · rw [if_neg (by simpa using hempty)] at h
        cases n with
        | zero => exact absurd h (by simp [evaluateRounds, Except.map])
        | succ n =>
          rw [evaluateRounds_of_noMeta macros n _
            (isMeta_of_mem_extension macros hextension)] at h
          exact Or.inr ⟨hempty, (Except.ok.inj h).symm⟩

/-- The loop ends: all it takes is that the expansions do. -/
theorem evaluateFiles_ends {n : Nat} (hn : 2 ≤ n) {bindings : MacroBindings} {exprs : List Source}
    (h : Harmless macros n (roundBindings macros bindings exprs) exprs) :
    ∃ rounds, evaluateFiles macros n bindings exprs = .ok rounds := by
  obtain ⟨extension, hextension⟩ := (tryGenerateMetas_spec macros n _ exprs []).1 h
  obtain ⟨k, rfl⟩ := Nat.exists_eq_add_of_le' hn
  unfold evaluateFiles
  rw [evaluateRounds_succ macros hextension]
  split
  · exact ⟨_, rfl⟩
  · rw [evaluateRounds_of_noMeta macros k _ (isMeta_of_mem_extension macros hextension)]
    exact ⟨_, rfl⟩

/-- What is bound at the end: what the first round expanded with, and the functions that its
expansions made. -/
theorem mem_finalBindings_iff {n : Nat} {bindings : MacroBindings} {exprs : List Source}
    {rounds : List Round} (h : evaluateFiles macros n bindings exprs = .ok rounds) (name : Token) :
    name ∈ names (finalBindings rounds) ↔
      name ∈ names (roundBindings macros bindings exprs) ∨
        ∃ out, Expands macros n (roundBindings macros bindings exprs) exprs out ∧
          functionName? out = some name := by
  obtain ⟨extension, hextension, hrounds⟩ := evaluateFiles_cases macros h
  have hmem := ((tryGenerateMetas_spec macros n _ exprs []).2 extension hextension).2
  have hfinal : finalBindings rounds =
      roundBindings macros (roundBindings macros bindings exprs) extension := by
    rcases hrounds with ⟨rfl, rfl⟩ | ⟨-, rfl⟩
    · exact (List.append_nil _).symm
    · rfl
  have hexpands : ∀ out, out ∈ extension ↔
      Expands macros n (roundBindings macros bindings exprs) exprs out := by
    intro out
    rw [hmem out]
    exact or_iff_right List.not_mem_nil
  rw [hfinal, mem_names_roundBindings, List.mem_filterMap]
  simp only [hexpands]

end L2.Bootstrap
