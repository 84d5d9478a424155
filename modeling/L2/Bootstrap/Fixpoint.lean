import L2.Bootstrap.EvaluateFiles

/-!
# The fixpoint of evaluating files

The comment of the loop in `evaluate_files` says that it is repeated for the functions that the
expansions create.  What failed in the first round is not tried again, and of two functions with
one name the macro is the one that `immutable_bindings` lists first: the loop reaches the fixpoint
where the sources are settled at once (`evaluateFiles_fixpoint_iff`).
-/

namespace L2.Bootstrap

variable (macros : Macros)

/-- In every order of the sources the loop ends, with the same names bound. -/
def OrderFree (bindings : MacroBindings) (exprs : List Source) (rounds : List Round) : Prop :=
  ∀ exprs', exprs'.Perm exprs →
    ∃ m rounds', evaluateFiles macros m bindings exprs' = .ok rounds' ∧
      ∀ name, name ∈ names (finalBindings rounds') ↔ name ∈ names (finalBindings rounds)

/-- What the comment of the loop describes: at its end every meta expression whose macro is
bound is expanded, and every function that the expansions made is bound; the names that are
bound do not depend on the order of the sources. -/
structure Fixpoint (bindings : MacroBindings) (exprs : List Source) (rounds : List Round) :
    Prop where
  expanded : ∀ round ∈ rounds, ∀ name fragment,
    .metaExpr (.symbol name) fragment ∈ round.allExprs → name ∈ names (finalBindings rounds) →
    ∃ out ∈ round.extension,
      ExpandsTo macros round.bindings (.metaExpr (.symbol name) fragment) out
  bound : ∀ round ∈ rounds, ∀ out ∈ round.extension, ∀ name, functionName? out = some name →
    name ∈ names (finalBindings rounds)
  orderFree : OrderFree macros bindings exprs rounds

/-- One of the meta expressions expands to a function of the name. -/
def Makes (bindings : MacroBindings) (exprs : List Source) (name : Token) : Prop :=
  ∃ s ∈ exprs, isMeta s ∧
    ∃ out, ExpandsTo macros bindings s out ∧ functionName? out = some name

/-- The meta expressions among the sources use no macro but those of the given bindings and of
the functions among the sources, and where several of these functions have one name it does not
matter which one is taken. -/
structure SettledAtOnce (bindings : MacroBindings) (exprs : List Source) : Prop where
  bound : ∀ name fragment, .metaExpr (.symbol name) fragment ∈ exprs →
    name ∈ names (roundBindings macros bindings exprs) →
    ∃ out, ExpandsTo macros (roundBindings macros bindings exprs)
      (.metaExpr (.symbol name) fragment) out
  unbound : ∀ name fragment, .metaExpr (.symbol name) fragment ∈ exprs →
    name ∉ names (roundBindings macros bindings exprs) →
    ¬ Makes macros (roundBindings macros bindings exprs) exprs name
  ends : ∀ exprs', exprs'.Perm exprs → ∀ s ∈ exprs, isMeta s →
    ∃ m, ExpansionEnds macros (roundBindings macros bindings exprs') m s
  makes : ∀ exprs', exprs'.Perm exprs → ∀ name,
    name ∉ names (roundBindings macros bindings exprs) →
    (Makes macros (roundBindings macros bindings exprs') exprs name ↔
      Makes macros (roundBindings macros bindings exprs) exprs name)

/-- The expansions of a run that ended make what the meta expressions expand to. -/
theorem makes_iff {n : Nat} {bindings : MacroBindings} {exprs : List Source}
    (h : Harmless macros n bindings exprs) (name : Token) :
    (∃ out, Expands macros n bindings exprs out ∧ functionName? out = some name) ↔
      Makes macros bindings exprs name := by
  constructor
  · rintro ⟨out, ⟨s, hs, hmeta, hout⟩, hname⟩
    exact ⟨s, hs, hmeta, out, expandsTo_of_vgenerateMetas macros hout, hname⟩
  · rintro ⟨s, hs, hmeta, out, hout, hname⟩
    exact ⟨out, ⟨s, hs, hmeta, ((h s hs hmeta).vgenerateMetas_iff macros out).mpr hout⟩, hname⟩

theorem makes_perm {bindings : MacroBindings} {exprs exprs' : List Source}
    (hperm : exprs'.Perm exprs) (name : Token) :
    Makes macros bindings exprs' name ↔ Makes macros bindings exprs name := by
  unfold Makes
  simp only [hperm.mem_iff]

/-- What ended fails at most for undefined symbols. -/
theorem harmless_of_evaluateFiles {n : Nat} {bindings : MacroBindings} {exprs : List Source}
    {rounds : List Round} (h : evaluateFiles macros n bindings exprs = .ok rounds) :
    Harmless macros n (roundBindings macros bindings exprs) exprs := by
  obtain ⟨extension, hextension, -⟩ := evaluateFiles_cases macros h
  exact ((tryGenerateMetas_spec macros n _ exprs []).2 extension hextension).1

/-- The names that are bound at the end, by the sources alone. -/
theorem mem_finalBindings_iff_makes {n : Nat} {bindings : MacroBindings} {exprs : List Source}
    {rounds : List Round} (h : evaluateFiles macros n bindings exprs = .ok rounds) (name : Token) :
    name ∈ names (finalBindings rounds) ↔
      name ∈ names (roundBindings macros bindings exprs) ∨
        Makes macros (roundBindings macros bindings exprs) exprs name := by
  rw [mem_finalBindings_iff macros h, makes_iff macros (harmless_of_evaluateFiles macros h)]

/-- Finitely many expansions that end do so within one number of steps. -/
theorem exists_harmless {bindings : MacroBindings} {exprs : List Source}
    (h : ∀ s ∈ exprs, isMeta s → ∃ m, ExpansionEnds macros bindings m s) :
    ∃ m, 2 ≤ m ∧ Harmless macros m bindings exprs := by
  induction exprs with
  | nil => exact ⟨2, le_refl 2, fun s hs => absurd hs List.not_mem_nil⟩
  | cons s exprs ih =>
    obtain ⟨m, htwo, hm⟩ := ih fun x hx => h x (List.mem_cons_of_mem s hx)
    by_cases hmeta : isMeta s = true
    · obtain ⟨k, hk⟩ := h s List.mem_cons_self hmeta
      refine ⟨max m k, by omega, ?_⟩
      intro x hx hxmeta
      rcases List.mem_cons.mp hx with rfl | hx'
      · exact hk.mono macros (Nat.le_max_right m k)
      · exact (hm x hx' hxmeta).mono macros (Nat.le_max_left m k)
    · refine ⟨m, htwo, ?_⟩
      intro x hx hxmeta
      rcases List.mem_cons.mp hx with rfl | hx'
      · exact absurd hxmeta hmeta
      · exact hm x hx' hxmeta

/-- In which orders the loop ends, with which names bound. -/
theorem orderFree_iff {n : Nat} {bindings : MacroBindings} {exprs exprs' : List Source}
    {rounds : List Round} (h : evaluateFiles macros n bindings exprs = .ok rounds)
    (hperm : exprs'.Perm exprs) :
    (∃ m rounds', evaluateFiles macros m bindings exprs' = .ok rounds' ∧
      ∀ name, name ∈ names (finalBindings rounds') ↔ name ∈ names (finalBindings rounds)) ↔
    (∀ s ∈ exprs, isMeta s → ∃ m, ExpansionEnds macros (roundBindings macros bindings exprs') m s) ∧
      ∀ name, name ∉ names (roundBindings macros bindings exprs) →
        (Makes macros (roundBindings macros bindings exprs') exprs name ↔
          Makes macros (roundBindings macros bindings exprs) exprs name) := by
  have hfinal : ∀ {m rounds'}, evaluateFiles macros m bindings exprs' = .ok rounds' → ∀ name,
      name ∈ names (finalBindings rounds') ↔
        name ∈ names (roundBindings macros bindings exprs) ∨
          Makes macros (roundBindings macros bindings exprs') exprs name := by
    intro m rounds' h' name
    rw [mem_finalBindings_iff_makes macros h', names_roundBindings_perm macros hperm,
      makes_perm macros hperm]
  constructor
  · rintro ⟨m, rounds', h', hsame⟩
    constructor
    · intro s hs hmeta
      exact ⟨m, harmless_of_evaluateFiles macros h' s (hperm.mem_iff.mpr hs) hmeta⟩
    · intro name hname
      have hiff := hsame name
      rw [hfinal h', mem_finalBindings_iff_makes macros h] at hiff
      rwa [or_iff_right hname, or_iff_right hname] at hiff
  · rintro ⟨hends, hmakes⟩
    obtain ⟨m, htwo, hm⟩ := exists_harmless macros fun s hs hmeta =>
      hends s (hperm.mem_iff.mp hs) hmeta
    obtain ⟨rounds', h'⟩ := evaluateFiles_ends macros htwo hm
    refine ⟨m, rounds', h', ?_⟩
    intro name
    rw [hfinal h', mem_finalBindings_iff_makes macros h]
    by_cases hname : name ∈ names (roundBindings macros bindings exprs)
    · exact iff_of_true (.inl hname) (.inl hname)
    · rw [or_iff_right hname, or_iff_right hname]
      exact hmakes name hname

theorem vgenerateMetas_congr {b b' : MacroBindings}
    (h : preprocessedExpressionAddress macros b = preprocessedExpressionAddress macros b') :
    vgenerateMetas macros b = vgenerateMetas macros b' := by
  funext n s
  induction n generalizing s with
  | zero => rfl
  | succ n ih => cases s <;> simp only [vgenerateMetas, h, ih]

/-- Without two functions of one name, no order of the sources makes a difference. -/
theorem orderFree_of_nodup {n : Nat} {bindings : MacroBindings} {exprs : List Source}
    {rounds : List Round} (h : evaluateFiles macros n bindings exprs = .ok rounds)
    (hnodup : (exprs.filterMap functionName?).Nodup) : OrderFree macros bindings exprs rounds := by
  intro exprs' hperm
  have hsame : vgenerateMetas macros (roundBindings macros bindings exprs') =
      vgenerateMetas macros (roundBindings macros bindings exprs) :=
    vgenerateMetas_congr macros (preprocessedExpressionAddress_perm macros hperm hnodup)
  have hexpands : ∀ s out, ExpandsTo macros (roundBindings macros bindings exprs') s out ↔
      ExpandsTo macros (roundBindings macros bindings exprs) s out := by
    intro s out
    constructor
    · intro hout
      obtain ⟨m, hm⟩ := vgenerateMetas_of_expandsTo macros hout
      rw [hsame] at hm
      exact expandsTo_of_vgenerateMetas macros hm
    · intro hout
      obtain ⟨m, hm⟩ := vgenerateMetas_of_expandsTo macros hout
      rw [← hsame] at hm
      exact expandsTo_of_vgenerateMetas macros hm
  rw [orderFree_iff macros h hperm]
  constructor
  · intro s hs hmeta
    refine ⟨n, ?_⟩
    unfold ExpansionEnds
    rw [hsame]
    exact harmless_of_evaluateFiles macros h s hs hmeta
  · intro name _
    unfold Makes
    simp only [hexpands]

/-- The round that has meta expressions is the first. -/
theorem first_of_isMeta {n : Nat} {bindings : MacroBindings} {exprs : List Source}
    {rounds : List Round} (h : evaluateFiles macros n bindings exprs = .ok rounds) {round : Round}
    (hround : round ∈ rounds) {s : Source} (hs : s ∈ round.allExprs) (hmeta : isMeta s = true) :
    round.allExprs = exprs ∧ round.bindings = roundBindings macros bindings exprs ∧
      ∀ out, out ∈ round.extension ↔
        Expands macros n (roundBindings macros bindings exprs) exprs out := by
  obtain ⟨extension, hextension, hrounds⟩ := evaluateFiles_cases macros h
  have hmem : ∀ out, out ∈ extension ↔
      Expands macros n (roundBindings macros bindings exprs) exprs out := by
    intro out
    rw [((tryGenerateMetas_spec macros n _ exprs []).2 extension hextension).2 out]
    exact or_iff_right List.not_mem_nil
  rcases hrounds with ⟨rfl, rfl⟩ | ⟨-, rfl⟩
  · rw [List.mem_singleton.mp hround]
    exact ⟨rfl, rfl, hmem⟩
  · rcases List.mem_cons.mp hround with rfl | hlast
    · exact ⟨rfl, rfl, hmem⟩
    · rw [List.mem_singleton.mp hlast] at hs
      exact absurd hmeta (by simp [isMeta_of_mem_extension macros hextension s hs])

theorem exists_first {n : Nat} {bindings : MacroBindings} {exprs : List Source}
    {rounds : List Round} (h : evaluateFiles macros n bindings exprs = .ok rounds) :
    ∃ round ∈ rounds, round.allExprs = exprs ∧
      round.bindings = roundBindings macros bindings exprs := by
  obtain ⟨extension, -, hrounds⟩ := evaluateFiles_cases macros h
  rcases hrounds with ⟨rfl, rfl⟩ | ⟨-, rfl⟩
  · exact ⟨_, List.mem_cons_self, rfl, rfl⟩
  · exact ⟨_, List.mem_cons_self, rfl, rfl⟩

/-- The functions that a round made are bound at the end. -/
theorem bound_of_mem_extension {n : Nat} {bindings : MacroBindings} {exprs : List Source}
    {rounds : List Round} (h : evaluateFiles macros n bindings exprs = .ok rounds) {round : Round}
    (hround : round ∈ rounds) {out : Source} (hout : out ∈ round.extension) {name : Token}
    (hname : functionName? out = some name) : name ∈ names (finalBindings rounds) := by
  rw [mem_finalBindings_iff macros h]
  obtain ⟨extension, hextension, hrounds⟩ := evaluateFiles_cases macros h
  have hmem := ((tryGenerateMetas_spec macros n _ exprs []).2 extension hextension).2
  rcases hrounds with ⟨rfl, rfl⟩ | ⟨-, rfl⟩
  · rw [List.mem_singleton.mp hround] at hout
    exact absurd hout List.not_mem_nil
  · rcases List.mem_cons.mp hround with rfl | hlast
    · exact .inr ⟨out, ((hmem out).mp hout).resolve_left List.not_mem_nil, hname⟩
    · rw [List.mem_singleton.mp hlast] at hout
      exact absurd hout List.not_mem_nil

theorem settledAtOnce_of_fixpoint {n : Nat} {bindings : MacroBindings} {exprs : List Source}
    {rounds : List Round} (h : evaluateFiles macros n bindings exprs = .ok rounds)
    (hfix : Fixpoint macros bindings exprs rounds) : SettledAtOnce macros bindings exprs := by
  obtain ⟨round, hround, hexprs, hbindings⟩ := exists_first macros h
  have hexpanded : ∀ name fragment, .metaExpr (.symbol name) fragment ∈ exprs →
      name ∈ names (finalBindings rounds) → ∃ out, ExpandsTo macros
        (roundBindings macros bindings exprs) (.metaExpr (.symbol name) fragment) out := by
    intro name fragment hmeta hfinal
    rw [← hexprs] at hmeta
    obtain ⟨out, -, hout⟩ := hfix.expanded round hround name fragment hmeta hfinal
    rw [hbindings] at hout
    exact ⟨out, hout⟩
  refine ⟨?_, ?_, ?_, ?_⟩
  · intro name fragment hmeta hname
    exact hexpanded name fragment hmeta
      ((mem_finalBindings_iff_makes macros h name).mpr (.inl hname))
  · intro name fragment hmeta hname hmakes
    obtain ⟨out, hout⟩ := hexpanded name fragment hmeta
      ((mem_finalBindings_iff_makes macros h name).mpr (.inr hmakes))
    exact hname (mem_names_of_expandsTo macros hout)
  · intro exprs' hperm
    exact ((orderFree_iff macros h hperm).mp (hfix.orderFree exprs' hperm)).1
  · intro exprs' hperm
    exact ((orderFree_iff macros h hperm).mp (hfix.orderFree exprs' hperm)).2

theorem fixpoint_of_settledAtOnce {n : Nat} {bindings : MacroBindings} {exprs : List Source}
    {rounds : List Round} (h : evaluateFiles macros n bindings exprs = .ok rounds)
    (hsettled : SettledAtOnce macros bindings exprs) : Fixpoint macros bindings exprs rounds := by
  refine ⟨?_, ?_, ?_⟩
  · intro round hround name fragment hmeta hfinal
    obtain ⟨hexprs, hbindings, hextension⟩ := first_of_isMeta macros h hround hmeta rfl
    rw [hexprs] at hmeta
    rw [hbindings]
    by_cases hname : name ∈ names (roundBindings macros bindings exprs)
    · obtain ⟨out, hout⟩ := hsettled.bound name fragment hmeta hname
      refine ⟨out, (hextension out).mpr ⟨_, hmeta, rfl, ?_⟩, hout⟩
      have hharmless := harmless_of_evaluateFiles macros h _ hmeta rfl
      exact (hharmless.vgenerateMetas_iff macros out).mpr hout
    · have hmakes := ((mem_finalBindings_iff_makes macros h name).mp hfinal).resolve_left hname
      exact absurd hmakes (hsettled.unbound name fragment hmeta hname)
  · intro round hround out hout name hname
    exact bound_of_mem_extension macros h hround hout hname
  · intro exprs' hperm
    rw [orderFree_iff macros h hperm]
    exact ⟨hsettled.ends exprs' hperm, hsettled.makes exprs' hperm⟩

def mkName : Token := ⟨['m', 'k'], by simp⟩

def lateName : Token := ⟨['l', 'a', 't', 'e'], by simp⟩

/-- `(function name () mk)` -/
def functionFragment (name : Token) : Fragment :=
  .node [.atom ⟨Keyword.functionWord.chars, by decide⟩, .atom name, .node [], .atom mkName]

/-- The macro of a function with a symbol as its body answers `(function symbol () mk)`. -/
def lateMacros : Macros where
  function
    | .function _ _ (.symbol name), _ => functionFragment name
    | _, _ => functionFragment mkName
  container _ _ _ := .error .exhausted

/-- `(mk) (function mk () late)` -/
def earlySources : List Source :=
  [.metaExpr (.symbol mkName) [.atom mkName], .function mkName [] (.symbol lateName)]

def earlyRounds : List Round :=
  let made : List Source := [.function lateName [] (.symbol mkName)]
  let first := roundBindings lateMacros [] earlySources
  [⟨earlySources, first, made⟩, ⟨made, roundBindings lateMacros first made, []⟩]

theorem evaluateFiles_earlySources :
    evaluateFiles lateMacros 2 [] earlySources = .ok earlyRounds := rfl

theorem expandsTo_earlySources :
    ExpandsTo lateMacros (roundBindings lateMacros [] earlySources)
      (.metaExpr (.symbol mkName) [.atom mkName]) (.function lateName [] (.symbol mkName)) :=
  expandsTo_of_vgenerateMetas (n := 2) lateMacros rfl

/-- `(late)` before what makes `late` -/
def lateSources : List Source :=
  .metaExpr (.symbol lateName) [.atom lateName] :: earlySources

/-- `(function mk () mk)` after the other function `mk` -/
def twiceSources : List Source := earlySources ++ [.function mkName [] (.symbol mkName)]

end L2.Bootstrap
