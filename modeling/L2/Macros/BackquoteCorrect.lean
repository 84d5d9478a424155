import L2.Macros.Backquote
import Mathlib.Data.List.Nodup

/-!
# What backquote builds

The expression that `bq-aux` makes has the value that the template stands for.  The induction is
on the cases of `bq-aux`; what it needs of the variable map is that it only grows, so that each
variable keeps the identifier that it was given where it was met first.
-/

namespace L2.Macros

open Datum (list token)

variable {t : Datum} {σ : Type} {rt : Runtime σ} {env : Env} {θ : Nat → Option Datum}

/-! ## The variable map -/

theorem quoteVar_lookup (v : Nat) (m : Names) :
    (quoteVar v m).2.map.lookup v = some (quoteVar v m).1 := by
  cases h : m.map.lookup v with
  | none => simp [quoteVar, h]
  | some d => simp [quoteVar, h]

theorem lookup_quoteVar {u v : Nat} {m : Names} {d : Datum} (h : m.map.lookup u = some d) :
    (quoteVar v m).2.map.lookup u = some d := by
  cases hv : m.map.lookup v with
  | none =>
    have hne : (u == v) = false := by
      refine beq_eq_false_iff_ne.mpr fun e => ?_
      rw [e, hv] at h
      exact absurd h (by simp)
    simp [quoteVar, hv, List.lookup_cons, hne, h]
  | some d' => simp [quoteVar, hv, h]

theorem Quotes.lookup_mono {level : Nat} {s code : Datum} {m m' : Names} {u : Nat} {d : Datum}
    (h : Quotes t level s m code m') : m.map.lookup u = some d → m'.map.lookup u = some d := by
  induction h with
  | emt => exact id
  | var => exact lookup_quoteVar
  | char => exact id
  | word => exact id
  | unquote _ => exact id
  | call _ _ ih => exact ih
  | token _ ih => exact ih
  | cell _ _ _ _ iha ihb => exact fun hu => ihb (iha hu)

theorem keys_quoteVar (u v : Nat) (m : Names) :
    u ∈ (quoteVar v m).2.map.map Prod.fst ↔ u ∈ m.map.map Prod.fst ∨ u = v := by
  cases hv : m.map.lookup v with
  | none => simp [quoteVar, hv, or_comm]
  | some d =>
    have hmem : v ∈ m.map.map Prod.fst := by
      rw [List.lookup_eq_some_iff] at hv
      obtain ⟨l₁, l₂, hl, _⟩ := hv
      simp [hl]
    simp only [quoteVar, hv]
    constructor
    · exact Or.inl
    · intro h
      rcases h with h | h
      · exact h
      · rw [h]
        exact hmem

/-- The map gets the variables that occur in the template. -/
theorem Quotes.mem_keys {level : Nat} {s code : Datum} {m m' : Names} {u : Nat}
    (h : Quotes t level s m code m') :
    u ∈ m'.map.map Prod.fst ↔ u ∈ m.map.map Prod.fst ∨ Occurs u level s := by
  induction h with
  | emt =>
    refine ⟨Or.inl, fun h => h.resolve_right fun hocc => ?_⟩
    cases hocc with
    | call hbang _ => exact absurd hbang Bool.false_ne_true
  | @var level v m =>
    rw [keys_quoteVar]
    refine or_congr_right ⟨fun e => e ▸ .var, fun hocc => ?_⟩
    cases hocc with
    | var => rfl
    | call hbang _ => exact absurd hbang Bool.false_ne_true
  | char =>
    refine ⟨Or.inl, fun h => h.resolve_right fun hocc => ?_⟩
    cases hocc with
    | call hbang _ => exact absurd hbang Bool.false_ne_true
  | word =>
    refine ⟨Or.inl, fun h => h.resolve_right fun hocc => ?_⟩
    cases hocc with
    | call hbang _ => exact absurd hbang Bool.false_ne_true
  | unquote hcomma =>
    refine ⟨Or.inl, fun h => h.resolve_right fun hocc => ?_⟩
    cases hocc with
    | call hbang _ => exact absurd (headedBy_unique hbang hcomma) (by decide)
    | fst _ hkept _ => exact absurd rfl (hkept.2 hcomma)
    | rst hkept _ => exact absurd rfl (hkept.2 hcomma)
  | call hbang _ ih =>
    rw [ih]
    refine or_congr_right ⟨fun hocc => .call hbang hocc, fun hocc => ?_⟩
    cases hocc with
    | call _ hocc => exact hocc
    | fst _ hkept _ => exact absurd (hbang.symm.trans hkept.1) (by decide)
    | rst hkept _ => exact absurd (hbang.symm.trans hkept.1) (by decide)
  | @token level ch b m code m' _ ih =>
    rw [ih]
    have hkept : Kept level (.cons (.char ch) b) :=
      ⟨rfl, fun h => absurd h Bool.false_ne_true⟩
    refine or_congr_right ⟨fun hocc => .rst hkept hocc, fun hocc => ?_⟩
    cases hocc with
    | call hbang _ => exact absurd hbang Bool.false_ne_true
    | fst htoken _ _ => exact absurd htoken.symm Bool.false_ne_true
    | rst _ hocc => exact hocc
  | cell htoken hkept _ _ iha ihb =>
    rw [ihb, iha, or_assoc]
    refine or_congr_right ⟨fun hocc => ?_, fun hocc => ?_⟩
    · rcases hocc with hocc | hocc
      · exact .fst htoken hkept hocc
      · exact .rst hkept hocc
    · cases hocc with
      | call hbang _ => exact absurd (hbang.symm.trans hkept.1) (by decide)
      | fst _ _ hocc => exact Or.inl hocc
      | rst _ hocc => exact Or.inr hocc

theorem Occurs.mem_vars {v level : Nat} {s : Datum} (h : Occurs v level s) : v ∈ s.vars := by
  induction h with
  | var => exact List.mem_singleton_self v
  | @call level s _ _ ih =>
    cases s with
    | cons a b =>
      cases b with
      | cons f c => exact List.mem_append_right _ (List.mem_append_right _ ih)
      | _ => exact List.mem_append_right _ ih
    | _ => exact ih
  | fst _ _ _ ih => exact List.mem_append_left _ ih
  | rst _ _ ih => exact List.mem_append_right _ ih

theorem not_occurs {v level : Nat} {s : Datum} (h : s.vars = []) : ¬ Occurs v level s := by
  intro hocc
  have hmem := hocc.mem_vars
  rw [h] at hmem
  exact absurd hmem List.not_mem_nil

/-! ## The value of the expression -/

/-- The identifiers of the map have the values that `θ` gives their variables. -/
def Agrees (env : Env) (θ : Nat → Option Datum) (m : Names) : Prop :=
  ∀ v d, m.map.lookup v = some d → ∃ x, x ≠ [] ∧ d = token x ∧ env x = θ v

/-- An invocation of `lst` makes a cell. -/
theorem evaluates_lst_iff (hdef : Defining rt env) {a b v : Datum} {c c' : Cells σ} :
    Evaluates rt env (list [token invokeName, token lstName, a, b, t]) c v c' ↔
      ∃ u c₁ w c₂ r, Evaluates rt env a c u c₁ ∧ Evaluates rt env b c₁ w c₂ ∧
        Evaluates rt env t c₂ r c' ∧ v = .cons u w := by
  obtain ⟨lst, hlst, hcons⟩ := hdef.lst
  rw [evaluates_invoke_iff]
  constructor
  · intro h
    obtain ⟨vs, c₃, g, c₄, hargs, hg, hcall⟩ := h
    rw [evaluates_token_iff (by decide), hlst, Option.some.injEq] at hg
    obtain ⟨u, c₁, vs₁, ha, hargs, hvs⟩ := evaluatesAll_cons_iff.mp hargs
    obtain ⟨w, c₂, vs₂, hb, hargs, hvs₁⟩ := evaluatesAll_cons_iff.mp hargs
    obtain ⟨r, c₅, vs₃, ht, hargs, hvs₂⟩ := evaluatesAll_cons_iff.mp hargs
    have hnil := evaluatesAll_nil_iff.mp hargs
    rw [hvs, hvs₁, hvs₂, hnil.1, ← hg.1, hcons] at hcall
    rw [← hnil.2, ← hg.2, ← hcall.2] at ht
    exact ⟨u, c₁, w, c₂, r, ha, hb, ht, hcall.1⟩
  · intro h
    obtain ⟨u, c₁, w, c₂, r, ha, hb, ht, hv⟩ := h
    refine ⟨[u, w, r], c', lst, c', .cons ha (.cons hb (.cons ht .nil)), ?_, ?_⟩
    · exact (evaluates_token_iff (by decide)).mpr ⟨hlst, rfl⟩
    · exact (hcons u w r c' v c').mpr ⟨hv, rfl⟩

theorem not_evaluates_word {n : Nat} {v : Datum} {c c' : Cells σ} :
    ¬ Evaluates rt env (.word n) c v c' := by
  intro h
  obtain ⟨a, b, hab⟩ := h.exists_cons
  exact nomatch hab

/-- Nothing but a list has a second element that is an expression. -/
theorem Evaluates.of_fst {b v : Datum} {c c' : Cells σ} (h : Evaluates rt env b.fst c v c') :
    ∃ x rest, b = .cons x rest := by
  cases b with
  | cons x rest => exact ⟨x, rest, rfl⟩
  | _ =>
    obtain ⟨a, b, hab⟩ := h.exists_cons
    exact nomatch hab

theorem evaluates_iff_fills (hdef : Defining rt env) {level : Nat} {s code : Datum} {m m' : Names}
    (h : Quotes t level s m code m') : Agrees env θ m' → ∀ {c v c'},
      Evaluates rt env code c v c' ↔ Fills rt env t θ level s c v c' := by
  induction h with
  | emt =>
    intro _ c v c'
    rw [evaluates_token_iff (by decide), hdef.emt, Option.some.injEq]
    constructor
    · intro h
      rw [← h.1, h.2]
      exact .emt
    · intro h
      cases h
      exact ⟨rfl, rfl⟩
  | @var level u m =>
    intro hm c v c'
    obtain ⟨x, hx, hcode, henv⟩ := hm u _ (quoteVar_lookup u m)
    rw [hcode, evaluates_token_iff hx, henv]
    constructor
    · intro h
      rw [h.2]
      exact .var h.1
    · intro h
      cases h with
      | var hu => exact ⟨hu, rfl⟩
  | char => exact fun _ => ⟨fun h => absurd h not_evaluates_word, fun h => nomatch h⟩
  | word => exact fun _ => ⟨fun h => absurd h not_evaluates_word, fun h => nomatch h⟩
  | unquote hcomma =>
    intro _ c v c'
    constructor
    · intro h
      obtain ⟨x, rest, hb⟩ := h.of_fst
      rw [hb] at hcomma h ⊢
      exact .unquote hcomma h
    · intro h
      cases h with
      | unquote _ h => exact h
      | call hbang _ _ _ _ => exact absurd (headedBy_unique hbang hcomma) (by decide)
      | token _ _ => exact absurd hcomma Bool.false_ne_true
      | cell _ hkept _ _ _ => exact absurd rfl (hkept.2 hcomma)
  | call hbang _ ih =>
    intro hm c v c'
    rw [evaluates_invoke_iff]
    constructor
    · intro h
      obtain ⟨vs, c₃, g, c₄, hargs, hg, hcall⟩ := h
      obtain ⟨u, c₁, vs₁, hcode, hargs, hvs⟩ := evaluatesAll_cons_iff.mp hargs
      obtain ⟨r, c₂, vs₂, ht, hargs, hvs₁⟩ := evaluatesAll_cons_iff.mp hargs
      have hnil := evaluatesAll_nil_iff.mp hargs
      rw [hvs, hvs₁, hnil.1] at hcall
      rw [hnil.2] at hg
      obtain ⟨f, rest, hb⟩ := hg.of_fst
      rw [hb] at hbang hg ih ⊢
      exact .call hbang ((ih hm).mp hcode) ht hg hcall
    · intro h
      cases h with
      | unquote hcomma _ => exact absurd (headedBy_unique hbang hcomma) (by decide)
      | call _ hrest ht hf hcall =>
        exact ⟨_, _, _, _, .cons ((ih hm).mpr hrest) (.cons ht .nil), hf, hcall⟩
      | token _ _ => exact absurd hbang Bool.false_ne_true
      | cell _ hkept _ _ _ => exact absurd (hbang.symm.trans hkept.1) (by decide)
  | @token level ch b m code m' _ ih =>
    intro hm c v c'
    rw [evaluates_lst_iff hdef]
    constructor
    · intro h
      obtain ⟨u, c₁, w, c₂, r, hchar, hcode, ht, hv⟩ := h
      rw [evaluates_token_iff (by simp), hdef.char, Option.some.injEq] at hchar
      rw [hchar.2] at hcode
      rw [hv, ← hchar.1]
      exact .token ((ih hm).mp hcode) ht
    · intro h
      cases h with
      | unquote hcomma _ => exact absurd hcomma Bool.false_ne_true
      | call hbang _ _ _ _ => exact absurd hbang Bool.false_ne_true
      | token hb ht =>
        refine ⟨_, _, _, _, _, ?_, (ih hm).mpr hb, ht, rfl⟩
        exact (evaluates_token_iff (by simp)).mpr ⟨hdef.char ch, rfl⟩
      | cell htoken _ _ _ _ => exact absurd htoken.symm Bool.false_ne_true
  | cell htoken hkept _ hqb iha ihb =>
    intro hm c v c'
    have hm₁ : Agrees env θ _ := fun u d hu => hm u d (hqb.lookup_mono hu)
    rw [evaluates_lst_iff hdef]
    constructor
    · intro h
      obtain ⟨u, c₁, w, c₂, r, ha, hb, ht, hv⟩ := h
      rw [hv]
      exact .cell htoken hkept ((iha hm₁).mp ha) ((ihb hm).mp hb) ht
    · intro h
      cases h with
      | unquote hcomma _ => exact absurd rfl (hkept.2 hcomma)
      | call hbang _ _ _ _ => exact absurd (hbang.symm.trans hkept.1) (by decide)
      | token _ _ => exact absurd htoken.symm Bool.false_ne_true
      | cell _ _ ha hb ht => exact ⟨_, _, _, _, _, (iha hm₁).mpr ha, (ihb hm).mpr hb, ht, rfl⟩

/-! ## Fresh variables -/

/-- Variables made one after the other, each in the buffer `t`. -/
inductive MakesVars (rt : Runtime σ) (env : Env) (t : Datum) :
    Nat → Cells σ → List Nat → Cells σ → Prop
  | nil {c} : MakesVars rt env t 0 c [] c
  | cons {n c r c₁ us c₂} : Evaluates rt env t c r c₁ →
      MakesVars rt env t n { c₁ with vars := c₁.vars + 1 } us c₂ →
      MakesVars rt env t (n + 1) c (c₁.vars :: us) c₂

theorem MakesVars.length {n : Nat} {c c' : Cells σ} {us : List Nat}
    (h : MakesVars rt env t n c us c') : us.length = n := by
  induction h with
  | nil => rfl
  | cons _ _ ih => rw [List.length_cons, ih]

/-- The variables are new. -/
theorem MakesVars.fresh {n : Nat} {c c' : Cells σ} {us : List Nat}
    (h : MakesVars rt env t n c us c') : us.Nodup ∧ ∀ u ∈ us, c.vars ≤ u := by
  induction h with
  | nil => exact ⟨List.nodup_nil, fun _ hu => absurd hu List.not_mem_nil⟩
  | @cons n c r c₁ us c₂ ht _ ih =>
    have hle : c.vars ≤ c₁.vars := ht.vars_le
    refine ⟨List.nodup_cons.mpr ⟨fun hmem => ?_, ih.1⟩, fun u hu => ?_⟩
    · have hlt : c₁.vars + 1 ≤ c₁.vars := ih.2 _ hmem
      omega
    · rcases List.mem_cons.mp hu with hu | hu
      · omega
      · have hlt : c₁.vars + 1 ≤ u := ih.2 u hu
        omega

/-- The arguments of the jump that backquote makes. -/
theorem MakesVars.evaluatesAll (hdef : Defining rt env) {n : Nat} {c c' : Cells σ} {us : List Nat}
    (h : MakesVars rt env t n c us c') :
    EvaluatesAll rt env (List.replicate n (list [token invokeName, token varName, t])) c
      (us.map .var) c' := by
  obtain ⟨var, hvar, hnew⟩ := hdef.var
  induction h with
  | nil => exact .nil
  | @cons n c r c₁ us c₂ ht _ ih =>
    have hname : Evaluates rt env (token varName) c₁ var c₁ :=
      (evaluates_token_iff (by decide)).mpr ⟨hvar, rfl⟩
    exact .cons (.invoke (.cons ht .nil) hname ((hnew r c₁ _ _).mpr ⟨rfl, rfl⟩)) ih

/-! ## The identifiers that backquote binds -/

theorem quoteName_inj {i j : Nat} (h : quoteName i = quoteName j) : i = j := by
  have hdigits : Nat.toDigits 10 i = Nat.toDigits 10 j := List.append_cancel_left h
  rw [← Nat.ofDigitChars_ten_toDigits (n := i), hdigits, Nat.ofDigitChars_ten_toDigits]

/-- The identifiers that the expression made by backquote binds. -/
def Reserved (x : List Char) : Prop :=
  x = bqReturnName ∨ x = bqContName ∨ ∃ count, x = quoteName count

theorem Reserved.head {x : List Char} (h : Reserved x) :
    x.head? = some 'b' ∨ x.head? = some 'q' := by
  rcases h with h | h | ⟨count, h⟩
  · exact Or.inl (h ▸ rfl)
  · exact Or.inl (h ▸ rfl)
  · exact Or.inr (h ▸ rfl)

/-- The meaning of `lst` and the like is kept where only reserved identifiers are bound. -/
theorem Defining.congr {env' : Env} (hdef : Defining rt env)
    (h : ∀ x, ¬ Reserved x → env' x = env x) : Defining rt env' := by
  have hkeep : ∀ {x : List Char}, x.head? ≠ some 'b' → x.head? ≠ some 'q' → env' x = env x :=
    fun hb hq => h _ fun hr => hr.head.elim hb hq
  constructor
  · rw [hkeep (by decide) (by decide)]
    exact hdef.emt
  · intro c
    rw [hkeep (by simp) (by simp)]
    exact hdef.char c
  · rw [hkeep (by decide) (by decide)]
    exact hdef.lst
  · rw [hkeep (by decide) (by decide)]
    exact hdef.var

/-- Each variable of the map has an identifier of its own, made from a value of the counter that
was reached. -/
structure Distinct (m : Names) (counts : List Nat) : Prop where
  keys : (m.map.map Prod.fst).Nodup
  names : m.map.map Prod.snd = counts.map fun count => token (quoteName count)
  nodup : counts.Nodup
  reached : ∀ count ∈ counts, count ≤ m.gentokCounter

theorem Distinct.quoteVar {m : Names} {counts : List Nat} (h : Distinct m counts) (v : Nat) :
    ∃ counts', Distinct (quoteVar v m).2 counts' := by
  cases hv : m.map.lookup v with
  | none =>
    refine ⟨(m.gentokCounter + 1) :: counts, ?_, ?_, ?_, ?_⟩
    · have hnew : v ∉ m.map.map Prod.fst := by
        intro hmem
        obtain ⟨p, hp, hpv⟩ := List.mem_map.mp hmem
        have hne := List.lookup_eq_none_iff.mp hv p hp
        simp [hpv] at hne
      simp only [L2.Macros.quoteVar, hv, List.map_cons]
      exact List.nodup_cons.mpr ⟨hnew, h.keys⟩
    · simp only [L2.Macros.quoteVar, hv, List.map_cons, h.names]
    · refine List.nodup_cons.mpr ⟨fun hmem => ?_, h.nodup⟩
      have hle := h.reached _ hmem
      omega
    · intro count hcount
      simp only [L2.Macros.quoteVar, hv]
      rcases List.mem_cons.mp hcount with hc | hc
      · omega
      · have hle := h.reached count hc
        omega
  | some d =>
    refine ⟨counts, ?_, ?_, h.nodup, fun count hcount => ?_⟩
    · simpa only [L2.Macros.quoteVar, hv] using h.keys
    · simpa only [L2.Macros.quoteVar, hv] using h.names
    · simp only [L2.Macros.quoteVar, hv]
      have hle := h.reached count hcount
      omega

theorem Quotes.distinct {level : Nat} {s code : Datum} {m m' : Names}
    (h : Quotes t level s m code m') :
    (∃ counts, Distinct m counts) → ∃ counts, Distinct m' counts := by
  induction h with
  | emt => exact id
  | @var level v m => exact fun hm => hm.elim fun _ hm => hm.quoteVar v
  | char => exact id
  | word => exact id
  | unquote _ => exact id
  | call _ _ ih => exact ih
  | token _ ih => exact ih
  | cell _ _ _ _ iha ihb => exact fun hm => ihb (iha hm)

theorem mapValues_eq (map : List (Nat × Datum)) : ∀ values,
    mapValues map values = (map.map Prod.snd).reverse ++ values := by
  induction map with
  | nil => intro values; rfl
  | cons p map ih =>
    intro values
    rw [mapValues, ih, List.map_cons, List.reverse_cons, List.append_assoc]
    rfl

/-- Each of the variables is mapped to the new one at its place. -/
def Renames (vars us : List Nat) (θ : Nat → Option Datum) : Prop :=
  ∀ (i v u : Nat), vars[i]? = some v → us[i]? = some u → θ v = some (.var u)

/-- Where the identifiers of the map are bound to new variables in the order in which they were
made, the map agrees with the renaming. -/
theorem Distinct.agrees {m : Names} {counts us : List Nat} (h : Distinct m counts)
    (hlen : us.length = m.map.length) (hθ : Renames (m.map.map Prod.fst).reverse us θ) :
    Agrees (env.bindAll (counts.map quoteName).reverse (us.map .var)) θ m := by
  have hcounts : counts.length = m.map.length := by
    have hnames := congrArg List.length h.names
    simpa using hnames.symm
  intro v d hlookup
  obtain ⟨l₁, l₂, hl, _⟩ := List.lookup_eq_some_iff.mp hlookup
  obtain ⟨j, hj⟩ := List.getElem?_of_mem (show (v, d) ∈ m.map by simp [hl])
  have hjlt : j < m.map.length := (List.getElem?_eq_some_iff.mp hj).1
  have hd : (counts.map fun count => token (quoteName count))[j]? = some d := by
    rw [← h.names, List.getElem?_map, hj]
    rfl
  rw [List.getElem?_map, Option.map_eq_some_iff] at hd
  obtain ⟨count, hcount, hd⟩ := hd
  -- The newest variable is first in the map and last among the arguments.
  have hi : m.map.length - 1 - (m.map.length - 1 - j) = j := by omega
  have hx : (counts.map quoteName).reverse[m.map.length - 1 - j]? = some (quoteName count) := by
    rw [List.getElem?_reverse (by simp only [List.length_map]; omega), List.length_map, hcounts, hi,
      List.getElem?_map, hcount]
    rfl
  have hv : (m.map.map Prod.fst).reverse[m.map.length - 1 - j]? = some v := by
    rw [List.getElem?_reverse (by simp only [List.length_map]; omega), List.length_map, hi,
      List.getElem?_map, hj]
    rfl
  obtain ⟨u, hu⟩ : ∃ u, us[m.map.length - 1 - j]? = some u :=
    ⟨_, List.getElem?_eq_getElem (by omega)⟩
  have hnodup : (counts.map quoteName).reverse.Nodup :=
    List.nodup_reverse.mpr (h.nodup.map fun _ _ => quoteName_inj)
  have hlens : (counts.map quoteName).reverse.length = (us.map Datum.var).length := by
    simp only [List.length_reverse, List.length_map]
    omega
  refine ⟨quoteName count, by simp [quoteName, quotePrefix], hd.symm, ?_⟩
  rw [hθ _ v u hv hu]
  exact Env.bindAll_get env hnodup hlens hx (by rw [List.getElem?_map, hu]; rfl)

/-! ## Backquote -/

/-- The scope of the expression inside of what backquote makes. -/
def bodyEnv (env : Env) (ret cont : Datum) (counts us : List Nat) : Env :=
  ((env.bind bqReturnName ret).bind bqContName cont).bindAll
    (counts.map quoteName).reverse (us.map .var)

section Body

variable {ret cont : Datum} {counts us : List Nat}

theorem notMem_quoteNames {x : List Char} (hx : x.head? ≠ some 'q') :
    x ∉ (counts.map quoteName).reverse := by
  intro hmem
  obtain ⟨count, _, hcount⟩ := List.mem_map.mp (List.mem_reverse.mp hmem)
  exact hx (hcount ▸ rfl)

theorem bodyEnv_return : bodyEnv env ret cont counts us bqReturnName = some ret := by
  rw [bodyEnv, Env.bindAll_of_notMem _ (notMem_quoteNames (by decide)),
    Env.bind_of_ne _ (by decide), Env.bind_self]

theorem bodyEnv_cont : bodyEnv env ret cont counts us bqContName = some cont := by
  rw [bodyEnv, Env.bindAll_of_notMem _ (notMem_quoteNames (by decide)), Env.bind_self]

theorem bodyEnv_of_not_reserved {x : List Char} (hx : ¬ Reserved x) :
    bodyEnv env ret cont counts us x = env x := by
  have hret : x ≠ bqReturnName := fun e => hx (Or.inl e)
  have hcont : x ≠ bqContName := fun e => hx (Or.inr (Or.inl e))
  have hquote : x ∉ (counts.map quoteName).reverse := by
    intro hmem
    obtain ⟨count, _, hcount⟩ := List.mem_map.mp (List.mem_reverse.mp hmem)
    exact hx (Or.inr (Or.inr ⟨count, hcount.symm⟩))
  rw [bodyEnv, Env.bindAll_of_notMem _ hquote, Env.bind_of_ne _ hcont, Env.bind_of_ne _ hret]

/-- What backquote makes evaluates its expression where the identifiers are bound. -/
theorem evaluates_backquote {s : Datum} {gentokCounter : Nat} {code : Datum} {m : Names}
    (hbq : bqAux t s 0 ⟨[], gentokCounter⟩ = (code, m)) (hdef : Defining rt env)
    (hdistinct : Distinct m counts) {c c₁ c₂ : Cells σ} {v : Datum}
    (hmakes : MakesVars rt (env.bind bqReturnName ret) t m.map.length c us c₁)
    (hcode : Evaluates rt (bodyEnv env ret cont counts us) code c₁ v c₂) :
    Evaluates rt env (backquote t s gentokCounter) c v c₂ := by
  have hkeep : ∀ x, ¬ Reserved x → env.bind bqReturnName ret x = env x :=
    fun x hx => Env.bind_of_ne ret fun e => hx (Or.inl e)
  have hargs := hmakes.evaluatesAll (hdef.congr hkeep)
  have hreturn : Evaluates rt (bodyEnv env ret cont counts us) (token bqReturnName) c₂ ret c₂ :=
    (evaluates_token_iff (by decide)).mpr ⟨bodyEnv_return, rfl⟩
  have hlen : (counts.map quoteName).reverse.length = (us.map Datum.var).length := by
    have hnames := congrArg List.length hdistinct.names
    simp only [List.length_map] at hnames
    simp only [List.length_reverse, List.length_map, hmakes.length, hnames]
  have hvalues : mapValues m.map [] = (counts.map quoteName).reverse.map token := by
    rw [mapValues_eq, hdistinct.names, List.append_nil, List.map_reverse, List.map_map]
    rfl
  have hjump := Jumps.enter hargs hlen (.jump (.cons hcode .nil) hreturn)
  rw [backquote, hbq]
  simp only [hvalues, List.map_const']
  exact .withJump hjump

end Body

/-- What `bq-aux` makes of a template without variables has the value of the filled template, and
what backquote makes of any template has that of the template filled where new variables stand for
its own. -/
theorem backquote_fills (rt : Runtime σ) (env : Env) (hdef : Defining rt env) (t s : Datum)
    (gentokCounter : Nat) :
    (∀ level, (∀ v, ¬ Occurs v level s) → ∀ c v c',
      Evaluates rt env (bqAux t s level ⟨[], gentokCounter⟩).1 c v c' ↔
        Fills rt env t (fun _ => none) level s c v c') ∧
    ∃ vars : List Nat, vars.Nodup ∧ (∀ v, v ∈ vars ↔ Occurs v 0 s) ∧
      ∀ (ret cont : Datum) (c : Cells σ) (us : List Nat) (c₁ : Cells σ),
        MakesVars rt (env.bind bqReturnName ret) t vars.length c us c₁ →
        us.Nodup ∧ (∀ u ∈ us, c.vars ≤ u) ∧
        ∃ env' : Env, (∀ x, ¬ Reserved x → env' x = env x) ∧
          env' bqReturnName = some ret ∧ env' bqContName = some cont ∧
          ∀ θ, Renames vars us θ → ∀ v c₂, Fills rt env' t θ 0 s c₁ v c₂ →
            Evaluates rt env (backquote t s gentokCounter) c v c₂ := by
  constructor
  · intro level hocc c v c'
    have hq := quotes_bqAux (t := t) s level ⟨[], gentokCounter⟩
    refine evaluates_iff_fills hdef hq fun u d hu => ?_
    obtain ⟨l₁, l₂, hl, _⟩ := List.lookup_eq_some_iff.mp hu
    have hkey := hq.mem_keys.mp (show u ∈ _ by rw [hl]; simp)
    exact absurd (hkey.resolve_left List.not_mem_nil) (hocc u)
  · have hq := quotes_bqAux (t := t) s 0 ⟨[], gentokCounter⟩
    obtain ⟨code, m, hbq⟩ : ∃ code m, bqAux t s 0 ⟨[], gentokCounter⟩ = (code, m) := ⟨_, _, rfl⟩
    rw [hbq] at hq
    obtain ⟨counts, hdistinct⟩ := hq.distinct
      ⟨[], List.nodup_nil, rfl, List.nodup_nil, fun _ h => absurd h List.not_mem_nil⟩
    refine ⟨(m.map.map Prod.fst).reverse, List.nodup_reverse.mpr hdistinct.keys, fun v => ?_, ?_⟩
    · rw [List.mem_reverse, hq.mem_keys]
      exact ⟨fun h => h.resolve_left List.not_mem_nil, Or.inr⟩
    intro ret cont c us c₁ hmakes
    rw [List.length_reverse, List.length_map] at hmakes
    have hkeep : ∀ x, ¬ Reserved x → bodyEnv env ret cont counts us x = env x :=
      fun _ hx => bodyEnv_of_not_reserved hx
    refine ⟨hmakes.fresh.1, hmakes.fresh.2, bodyEnv env ret cont counts us, hkeep, bodyEnv_return,
      bodyEnv_cont, fun θ hθ v c₂ hfills => ?_⟩
    have hagrees : Agrees (bodyEnv env ret cont counts us) θ m := hdistinct.agrees hmakes.length hθ
    have hcode : Evaluates rt (bodyEnv env ret cont counts us) code c₁ v c₂ :=
      (evaluates_iff_fills (hdef.congr hkeep) hq hagrees).mpr hfills
    exact evaluates_backquote hbq hdef hdistinct hmakes hcode

/-- Calls of `lst` and of `var`. -/
def listRuntime : Runtime Unit where
  call g vs c v c' := (∃ a b r, g = .word 1 ∧ vs = [a, b, r] ∧ v = .cons a b ∧ c' = c) ∨
    (∃ r, g = .word 2 ∧ vs = [r] ∧ v = .var c.vars ∧ c' = { c with vars := c.vars + 1 })
  other _ _ _ _ _ := False
  vars_le_call h := by
    rcases h with ⟨_, _, _, _, _, _, hc⟩ | ⟨_, _, _, _, hc⟩
    · exact hc ▸ Nat.le_refl _
    · exact hc ▸ Nat.le_succ _
  vars_le_other h := h.elim

/-- A scope with a buffer `r` and the value `x`, the list of `b`. -/
def listEnv : Env
  | ['e', 'm', 't'] => some .emt
  | ['l', 's', 't'] => some (.word 1)
  | ['v', 'a', 'r'] => some (.word 2)
  | ['-', c, '-'] => some (.char c)
  | ['r'] => some (.word 3)
  | ['x'] => some (list [token ['b']])
  | _ => none

theorem defining_listEnv : Defining listRuntime listEnv where
  emt := rfl
  char _ := rfl
  lst := ⟨.word 1, rfl, fun a b r c v c' => by simp [listRuntime]⟩
  var := ⟨.word 2, rfl, fun r c v c' => by simp [listRuntime]⟩

/-- The variable `7` twice, a quotation inside of the template with a comma of its own, and a comma
before the rest. -/
def nestedTemplate : Datum :=
  list [.var 7, .var 7, list [token [backquoteChar], list [token [','], token ['x']]], token [','],
    token ['x']]

theorem occurs_nestedTemplate {v : Nat} : Occurs v 0 nestedTemplate ↔ v = 7 := by
  constructor
  · intro hocc
    have hmem : v ∈ [7, 7] := hocc.mem_vars
    simpa using hmem
  · rintro rfl
    exact .fst rfl ⟨rfl, by decide⟩ .var

/-- The comma in `(a , x)` puts the list `x` in the place of the rest.  In `nestedTemplate` the
inner quotation stays what it is, and the variable becomes one new variable in both places. -/
theorem backquote_fills_nested :
    Evaluates listRuntime listEnv
      (bqAux (token ['r']) (list [token ['a'], token [','], token ['x']]) 0 ⟨[], 0⟩).1 ⟨0, ()⟩
      (list [token ['a'], token ['b']]) ⟨0, ()⟩ ∧
    Evaluates listRuntime listEnv (backquote (token ['r']) nestedTemplate 0) ⟨0, ()⟩
      (list [.var 0, .var 0, list [token [backquoteChar], list [token [','], token ['x']]],
        token ['b']]) ⟨1, ()⟩ := by
  have hname : ∀ {env : Env} {x v}, x ≠ [] → env x = some v → ∀ c : Cells Unit,
      Evaluates listRuntime env (token x) c v c := fun hx hv _ => .identifier hx hv
  constructor
  · have hbuffer : Evaluates listRuntime listEnv (token ['r']) ⟨0, ()⟩ (.word 3) ⟨0, ()⟩ :=
      hname (by decide) rfl _
    refine ((backquote_fills listRuntime listEnv defining_listEnv (token ['r'])
      (list [token ['a'], token [','], token ['x']]) 0).1 0 (fun v => ?_) _ _ _).mpr ?_
    · exact not_occurs (by decide)
    · refine .cell rfl ⟨rfl, by decide⟩ (.token .emt hbuffer) ?_ hbuffer
      exact .unquote rfl (hname (by decide) rfl _)
  · obtain ⟨vars, hnodup, hoccurs, hquote⟩ :=
      (backquote_fills listRuntime listEnv defining_listEnv (token ['r']) nestedTemplate 0).2
    have hvars : vars = [7] := by
      apply List.perm_singleton.mp
      rw [List.perm_ext_iff_of_nodup hnodup (List.nodup_singleton 7)]
      intro v
      rw [hoccurs, occurs_nestedTemplate, List.mem_singleton]
    subst hvars
    have hmakes : MakesVars listRuntime (listEnv.bind bqReturnName .emt) (token ['r']) 1 ⟨0, ()⟩
        [0] ⟨1, ()⟩ := .cons (hname (by decide) rfl ⟨0, ()⟩) .nil
    obtain ⟨-, -, env', hkeep, -, -, hfills⟩ := hquote .emt .emt ⟨0, ()⟩ [0] ⟨1, ()⟩ hmakes
    have hfree : ∀ c : Char, c ≠ 'b' → c ≠ 'q' → ¬ Reserved [c] := by
      intro c hb hq hreserved
      rcases hreserved.head with h | h
      · exact hb (Option.some.inj h)
      · exact hq (Option.some.inj h)
    have hbuffer : ∀ c : Cells Unit, Evaluates listRuntime env' (token ['r']) c (.word 3) c :=
      hname (by decide) (hkeep ['r'] (hfree 'r' (by decide) (by decide)))
    have hx : ∀ c : Cells Unit, Evaluates listRuntime env' (token ['x']) c (list [token ['b']]) c :=
      hname (by decide) (hkeep ['x'] (hfree 'x' (by decide) (by decide)))
    have htoken : ∀ {level : Nat} (ch : Char), Fills listRuntime env' (token ['r'])
        (fun _ => some (.var 0)) level (token [ch]) ⟨1, ()⟩ (token [ch]) ⟨1, ()⟩ :=
      fun _ => .token .emt (hbuffer _)
    -- the comma is one level below the inner backquote, so it is kept
    have hinner : Fills listRuntime env' (token ['r']) (fun _ => some (.var 0)) 1
        (list [token [','], token ['x']]) ⟨1, ()⟩ (list [token [','], token ['x']]) ⟨1, ()⟩ := by
      refine .cell rfl ⟨rfl, fun _ => Nat.one_ne_zero⟩ (htoken ',') ?_ (hbuffer _)
      exact .cell rfl ⟨rfl, by decide⟩ (htoken 'x') .emt (hbuffer _)
    apply hfills (fun _ => some (.var 0))
    · intro i v u _ hu
      have hu : u = 0 := List.mem_singleton.mp (List.mem_of_getElem? hu)
      rw [hu]
    · refine .cell rfl ⟨rfl, by decide⟩ (.var rfl) ?_ (hbuffer _)
      refine .cell rfl ⟨rfl, by decide⟩ (.var rfl) ?_ (hbuffer _)
      refine .cell rfl ⟨rfl, by decide⟩ ?_ (.unquote rfl (hx _)) (hbuffer _)
      refine .cell rfl ⟨rfl, by decide⟩ (htoken backquoteChar) ?_ (hbuffer _)
      exact .cell rfl ⟨rfl, by decide⟩ hinner .emt (hbuffer _)

end L2.Macros
