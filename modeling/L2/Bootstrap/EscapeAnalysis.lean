import L2.Bootstrap.Scoping

/-!
# Escape analysis

`escape_analysis` marks the continuations that are used otherwise than by jumping to them,
and lets each jump to a continuation known by its place in the program take the short way,
a relative jump.  Such a jump restores no register, so it has to stay in the function that
it is in.  It does exactly when its continuation is not one that `link_symbols` made
visible through the static bindings (`escapeProgram_keepsFrames_iff`).
-/

namespace L2.Bootstrap

open Scope

/-- The fields that `escape_analysis` sets: the continuations whose `escapes` is set, and
the jumps whose `short_circuit` is, with what it points to. -/
structure Marks where
  escapes : List ExprId
  shortCircuit : List (ExprId × ExprId)

/-- The `with` or continuation whose reference a binding is. -/
def targetOf : Binding → Option ExprId
  | .reference _ .continuation id => some id
  | .reference _ .withExpr id => some id
  | _ => none

/-- The `with` or continuation that an expression evaluates to a reference of. -/
def directTarget : Expr → Option ExprId
  | .linked bndg => targetOf bndg
  | .continuation id _ _ _ => some id
  | _ => none

def Marks.escape (escaping : Bool) (target : Option ExprId) (m : Marks) : Marks :=
  if escaping then { m with escapes := m.escapes ++ target.toList } else m

def Marks.setShortCircuit (jump : ExprId) (target : Option ExprId) (m : Marks) : Marks :=
  { m with shortCircuit := m.shortCircuit ++ target.toList.map (jump, ·) }

mutual

def escapeAnalysis (escaping : Bool) (m : Marks) : Expr → Marks
  | .literal _ => m
  | .symbol _ => m
  | .linked bndg => m.escape escaping (targetOf bndg)
  | .ifExpr condition consequent alternate =>
    escapeAnalysis true (escapeAnalysis true (escapeAnalysis true m condition) consequent) alternate
  | .function _ _ _ expression => escapeAnalysis true m expression
  | .continuation id _ _ expression => escapeAnalysis true (m.escape escaping (some id)) expression
  | .withExpr _ _ expression => escapeAnalysis true m expression
  | .storage _ _ arguments => escapeArguments m arguments
  | .invoke reference arguments => escapeArguments (escapeAnalysis true m reference) arguments
  | .jump id reference arguments =>
    escapeArguments
      (escapeAnalysis false (m.setShortCircuit id (directTarget reference)) reference) arguments
  | .constrain expression => escapeAnalysis true m expression

def escapeArguments (m : Marks) : List Expr → Marks
  | [] => m
  | t :: arguments => escapeArguments (escapeAnalysis true m t) arguments

end

/-- The escape analysis in the loop of `compile_program`. -/
def escapeProgram (exprs : List Expr) : Marks := escapeArguments ⟨[], []⟩ exprs

/-! ## What is marked -/

/-- A continuation that an occurrence lets escape. -/
def escapedBy (o : Occurrence) : Option ExprId :=
  if o.jumpedBy = none then directTarget o.expr else none

/-- The short circuit of the jump that an occurrence is the reference of. -/
def shortCircuitOf (o : Occurrence) : Option (ExprId × ExprId) :=
  o.jumpedBy.bind fun jump => (directTarget o.expr).map (jump, ·)

/-- The marks with those of some more occurrences. -/
def Marks.add (m : Marks) (escaping jumps : List Occurrence) : Marks where
  escapes := m.escapes ++ escaping.filterMap escapedBy
  shortCircuit := m.shortCircuit ++ jumps.filterMap shortCircuitOf

theorem Marks.add_add (m : Marks) (escaping jumps escaping' jumps' : List Occurrence) :
    (m.add escaping jumps).add escaping' jumps' =
      m.add (escaping ++ escaping') (jumps ++ jumps') := by
  simp [Marks.add, List.filterMap_append]

theorem Marks.add_nil (m : Marks) : m.add [] [] = m := by
  simp [Marks.add]

theorem escape_eq_add (m : Marks) (path : Path) (jumpedBy : Option ExprId) (e : Expr) :
    m.escape jumpedBy.isNone (directTarget e) = m.add [⟨path, jumpedBy, e⟩] [] := by
  cases jumpedBy with
  | none =>
    unfold Marks.escape Marks.add escapedBy
    rw [Option.isNone_none, if_pos rfl, List.filterMap_nil, List.append_nil]
    cases h : directTarget e <;> simp [h]
  | some jump =>
    unfold Marks.escape Marks.add escapedBy
    simp

theorem setShortCircuit_eq_add (m : Marks) (path : Path) (jump : ExprId) (reference : Expr) :
    m.setShortCircuit jump (directTarget reference) = m.add [] [⟨path, some jump, reference⟩] := by
  unfold Marks.setShortCircuit Marks.add shortCircuitOf
  cases h : directTarget reference <;> simp [h]

/-- What occurs strictly inside an expression. -/
def below (path : Path) (jumpedBy : Option ExprId) (e : Expr) : List Occurrence :=
  (occurrences path jumpedBy e).tail

theorem occurrences_eq_cons_below (path : Path) (jumpedBy : Option ExprId) (e : Expr) :
    occurrences path jumpedBy e = ⟨path, jumpedBy, e⟩ :: below path jumpedBy e := by
  unfold below
  rw [occurrences_eq]
  rfl

/-- An expression evaluated for its value is no reference of a jump. -/
theorem add_below (m : Marks) (l : List Occurrence) (path : Path) (e : Expr) :
    m.add l (below path none e) = m.add l (occurrences path none e) := by
  rw [occurrences_eq_cons_below]
  rfl

/-- An expression that refers to no continuation marks what is below it. -/
theorem add_around (m : Marks) {path : Path} {jumpedBy : Option ExprId} {e : Expr}
    {l : List Occurrence} (h : directTarget e = none)
    (hl : occurrences path jumpedBy e = ⟨path, jumpedBy, e⟩ :: l) :
    m.add l l = m.add (occurrences path jumpedBy e) (below path jumpedBy e) := by
  unfold below
  rw [hl]
  simp [Marks.add, escapedBy, h]

theorem escaping_value : true = (none : Option ExprId).isNone := rfl

theorem escaping_jumped (jump : ExprId) : false = (some jump).isNone := rfl

mutual

theorem escapeAnalysis_eq (m : Marks) (path : Path) (jumpedBy : Option ExprId) {escaping : Bool}
    (h : escaping = jumpedBy.isNone) : ∀ e : Expr,
    escapeAnalysis escaping m e = m.add (occurrences path jumpedBy e) (below path jumpedBy e)
  | .literal _ => (Marks.add_nil m).symm.trans (add_around m rfl rfl)
  | .symbol _ => (Marks.add_nil m).symm.trans (add_around m rfl rfl)
  | .linked bndg => by
    rw [h]
    exact escape_eq_add m path jumpedBy (.linked bndg)
  | .ifExpr condition consequent alternate => by
    show escapeAnalysis true (escapeAnalysis true (escapeAnalysis true m condition) consequent)
      alternate = _
    rw [escapeAnalysis_eq m path none escaping_value condition,
      escapeAnalysis_eq _ path none escaping_value consequent,
      escapeAnalysis_eq _ path none escaping_value alternate, add_below,
      add_below, add_below, Marks.add_add, Marks.add_add, ← List.append_assoc]
    exact add_around m rfl rfl
  | .function id reference parameters expression => by
    show escapeAnalysis true m expression = _
    rw [escapeAnalysis_eq m (⟨.function, id, reference, parameters⟩ :: path) none escaping_value
      expression, add_below]
    exact add_around m rfl rfl
  | .continuation id reference parameters expression => by
    rw [h]
    show escapeAnalysis true (m.escape jumpedBy.isNone (some id)) expression = _
    rw [escapeAnalysis_eq _ (⟨.continuation, id, reference, parameters⟩ :: path) none escaping_value
      expression, add_below]
    show (m.escape jumpedBy.isNone
      (directTarget (.continuation id reference parameters expression))).add _ _ = _
    rw [escape_eq_add m path, Marks.add_add]
    rfl
  | .withExpr id reference expression => by
    show escapeAnalysis true m expression = _
    rw [escapeAnalysis_eq m (⟨.withExpr, id, reference, [none]⟩ :: path) none escaping_value
      expression, add_below]
    exact add_around m rfl rfl
  | .storage id reference arguments => by
    show escapeArguments m arguments = _
    rw [escapeArguments_eq m (⟨.storage, id, reference, []⟩ :: path)]
    exact add_around m rfl rfl
  | .invoke reference arguments => by
    show escapeArguments (escapeAnalysis true m reference) arguments = _
    rw [escapeAnalysis_eq m path none escaping_value reference, escapeArguments_eq _ path,
      add_below, Marks.add_add]
    exact add_around m rfl rfl
  | .jump id reference arguments => by
    show escapeArguments (escapeAnalysis false
      (m.setShortCircuit id (directTarget reference)) reference) arguments = _
    rw [setShortCircuit_eq_add m path,
      escapeAnalysis_eq _ path (some id) (escaping_jumped id) reference,
      escapeArguments_eq _ path, Marks.add_add, Marks.add_add, List.nil_append,
      ← List.append_assoc, List.singleton_append, ← occurrences_eq_cons_below]
    exact add_around m rfl rfl
  | .constrain expression => by
    show escapeAnalysis true m expression = _
    rw [escapeAnalysis_eq m path none escaping_value expression, add_below]
    exact add_around m rfl rfl

theorem escapeArguments_eq (m : Marks) (path : Path) : ∀ arguments : List Expr,
    escapeArguments m arguments =
      m.add (argumentOccurrences path arguments) (argumentOccurrences path arguments)
  | [] => (Marks.add_nil m).symm
  | t :: arguments => by
    show escapeArguments (escapeAnalysis true m t) arguments = _
    rw [escapeAnalysis_eq m path none escaping_value t, escapeArguments_eq _ path, add_below,
      Marks.add_add]
    rfl

end

theorem mem_escapes_iff {exprs : List Expr} {t : ExprId} :
    t ∈ (escapeProgram exprs).escapes ↔
      ∃ o ∈ programOccurrences exprs, o.jumpedBy = none ∧ directTarget o.expr = some t := by
  unfold escapeProgram programOccurrences
  rw [escapeArguments_eq _ []]
  show t ∈ [] ++ _ ↔ _
  rw [List.nil_append, List.mem_filterMap]
  simp [escapedBy]

theorem mem_shortCircuit_iff {exprs : List Expr} {j t : ExprId} :
    (j, t) ∈ (escapeProgram exprs).shortCircuit ↔
      ∃ o ∈ programOccurrences exprs, o.jumpedBy = some j ∧ directTarget o.expr = some t := by
  unfold escapeProgram programOccurrences
  rw [escapeArguments_eq _ []]
  show (j, t) ∈ [] ++ _ ↔ _
  rw [List.nil_append, List.mem_filterMap]
  simp [shortCircuitOf, Option.bind_eq_some_iff]

/-! ## Where jumps and continuations lie -/

/-- The expression `id` lies in the body of the function `f`, or outside every function. -/
def LiesIn (exprs : List Expr) (id : ExprId) (f : Option ExprId) : Prop :=
  ∃ o ∈ programOccurrences exprs, o.expr.id? = some id ∧ o.path.frame = f

/-- Different expressions have different addresses. -/
def Distinct (exprs : List Expr) : Prop :=
  ((programOccurrences exprs).filterMap (fun o => o.expr.id?)).Nodup

theorem eq_of_nodup_filterMap {α β : Type*} {f : α → Option β} {l : List α}
    (h : (l.filterMap f).Nodup) {a b : α} {i : β} (ha : a ∈ l) (hb : b ∈ l)
    (hfa : f a = some i) (hfb : f b = some i) : a = b := by
  induction l with
  | nil => exact absurd ha List.not_mem_nil
  | cons c l ih =>
    have hmem : ∀ {x}, x ∈ l → f x = some i → i ∈ l.filterMap f :=
      fun hx hfx => List.mem_filterMap.mpr ⟨_, hx, hfx⟩
    rw [List.filterMap_cons] at h
    rcases List.mem_cons.mp ha with rfl | ha'
    · rw [hfa] at h
      rcases List.mem_cons.mp hb with rfl | hb'
      · rfl
      · exact absurd (hmem hb' hfb) (List.nodup_cons.mp h).1
    · rcases List.mem_cons.mp hb with rfl | hb'
      · rw [hfb] at h
        exact absurd (hmem ha' hfa) (List.nodup_cons.mp h).1
      · apply ih _ ha' hb'
        cases hc : f c with
        | none =>
          rw [hc] at h
          exact h
        | some j =>
          rw [hc] at h
          exact (List.nodup_cons.mp h).2

theorem LiesIn.unique {exprs : List Expr} (hd : Distinct exprs) {id : ExprId}
    {f g : Option ExprId} (hf : LiesIn exprs id f) (hg : LiesIn exprs id g) : f = g := by
  obtain ⟨o, ho, hoid, rfl⟩ := hf
  obtain ⟨x, hx, hxid, rfl⟩ := hg
  rw [eq_of_nodup_filterMap hd ho hx hoid hxid]

/-- The reference of a jump lies where the jump lies. -/
theorem liesIn_jumpedBy {exprs : List Expr} {o : Occurrence} {j : ExprId}
    (ho : o ∈ programOccurrences exprs) (hj : o.jumpedBy = some j) :
    LiesIn exprs j o.path.frame := by
  unfold programOccurrences at ho
  rw [argumentOccurrences_eq_flatMap] at ho
  obtain ⟨x, hx, hox⟩ := List.mem_flatMap.mp ho
  have hin : ∀ {y}, y ∈ occurrences x.path x.jumpedBy x.expr → y ∈ programOccurrences exprs := by
    intro y hy
    unfold programOccurrences
    rw [argumentOccurrences_eq_flatMap]
    exact List.mem_flatMap.mpr ⟨x, hx, hy⟩
  have hself : o = x ∨ ∃ y ∈ occurrences x.path x.jumpedBy x.expr,
      y.expr.id? = some j ∧ y.path = o.path := by
    refine occurrences_induction (P := fun x o => o.jumpedBy = some j → o = x ∨
      ∃ y ∈ occurrences x.path x.jumpedBy x.expr, y.expr.id? = some j ∧ y.path = o.path)
      (fun _ _ => Or.inl rfl) ?_ x.path x.jumpedBy x.expr hox hj
    intro path jumpedBy e c o hc _ ih hj
    rcases ih hj with rfl | ⟨y, hy, hyj, hypath⟩
    · -- the reference itself: the expression is the jump
      have hjump : o.path = path ∧ e.id? = some j := by
        have hvalue : ∀ {p : Path} {arguments : List Expr},
            o ∈ arguments.map (Occurrence.value p) → False := by
          intro p arguments hmem
          obtain ⟨u, -, rfl⟩ := List.mem_map.mp hmem
          exact absurd hj (by simp [Occurrence.value])
        cases e with
        | jump id reference arguments =>
          rcases List.mem_cons.mp hc with rfl | hmem
          · exact ⟨rfl, hj⟩
          · exact (hvalue hmem).elim
        | storage id reference arguments => exact (hvalue hc).elim
        | invoke reference arguments => exact (@hvalue _ (reference :: arguments) hc).elim
        | ifExpr condition consequent alternate =>
          exact (@hvalue _ [condition, consequent, alternate] hc).elim
        | literal _ | symbol _ | linked _ => exact absurd hc List.not_mem_nil
        | function _ _ _ expression | continuation _ _ _ expression | withExpr _ _ expression
        | constrain expression => exact (@hvalue _ [expression] hc).elim
      exact Or.inr ⟨⟨path, jumpedBy, e⟩, mem_occurrences_self path jumpedBy e, hjump.2,
        hjump.1.symm⟩
    · exact Or.inr ⟨y, mem_occurrences_of_mem_children hc hy, hyj, hypath⟩
  rcases hself with rfl | ⟨y, hy, hyj, hypath⟩
  · obtain ⟨u, -, rfl⟩ := List.mem_map.mp hx
    exact absurd hj (by simp [Occurrence.value])
  · exact ⟨y, hin hy, hyj, by rw [hypath]⟩

/-- A construct around an expression lies where its own path says. -/
theorem liesIn_construct {exprs : List Expr} {o : Occurrence} (ho : o ∈ programOccurrences exprs)
    {inner outer : Path} {c : Construct} (hpath : o.path = inner ++ c :: outer) :
    LiesIn exprs c.id outer.frame := by
  obtain ⟨y, hy, rfl, hc⟩ := exists_construct_of_mem_programOccurrences ho hpath
  exact ⟨y, hy, Expr.id?_of_construct? hc, rfl⟩

/-! ## Linked programs -/

theorem id?_bindSymbols (globals : List Binding) (path : Path) (e : Expr) :
    (bindSymbols globals path e).id? = e.id? := by
  cases e <;> rfl

theorem programOccurrences_bindArguments (globals : List Binding) (exprs : List Expr) :
    programOccurrences (bindArguments globals [] exprs) =
      (programOccurrences exprs).map (Occurrence.bind globals) :=
  argumentOccurrences_bindArguments globals [] exprs

theorem liesIn_bindArguments {globals : List Binding} {exprs : List Expr} {id : ExprId}
    {f : Option ExprId} :
    LiesIn (bindArguments globals [] exprs) id f ↔ LiesIn exprs id f := by
  unfold LiesIn
  rw [programOccurrences_bindArguments]
  simp only [List.mem_map, exists_exists_and_eq_and, Occurrence.bind, id?_bindSymbols]

theorem exists_of_targetOf {bndg : Binding} {t : ExprId} (h : targetOf bndg = some t) :
    ∃ name type, bndg = .reference name type t ∧ type ≠ .function := by
  cases bndg with
  | reference name type id =>
    cases type with
    | continuation | withExpr =>
      obtain rfl : id = t := Option.some.inj h
      exact ⟨name, _, rfl, BinderType.noConfusion⟩
    | function | storage => exact absurd h (by simp [targetOf])
  | parameter | undefined => exact absurd h (by simp [targetOf])

/-- Functions and storages are no targets of jumps. -/
theorem targetOf_globalBindingAugsOf (exprs : List Expr) :
    ∀ bndg ∈ globalBindingAugsOf exprs, targetOf bndg = none := by
  unfold globalBindingAugsOf
  refine List.foldlRecOn (motive := fun bindingAugs => ∀ bndg ∈ bindingAugs,
    targetOf bndg = none) exprs _ ?_ ?_
  · exact fun bndg hbndg => absurd hbndg List.not_mem_nil
  · intro bindingAugs ih t _ bndg hbndg
    cases t with
    | function | storage =>
      rcases List.mem_cons.mp hbndg with rfl | hmem
      · rfl
      · exact ih bndg hmem
    | _ => exact ih bndg hbndg

/-- Where a name that stands for a continuation was found. -/
theorem find?_of_targetOf_resolve {globals : List Binding} {path : Path} {name : Name} {t : ExprId}
    (h : targetOf (path.resolve globals name) = some t) :
    path.dynamicBindings.find? (fun bndg => bndg.name = some name) =
        some (path.resolve globals name) ∨
      (∀ bndg ∈ path.dynamicBindings, bndg.name ≠ some name) ∧
        (path.staticBindings globals).find? (fun bndg => bndg.name = some name) =
          some (path.resolve globals name) := by
  unfold Path.resolve at h ⊢
  rw [List.find?_append] at h ⊢
  cases hdynamic : path.dynamicBindings.find? (fun bndg => bndg.name = some name) with
  | some bndg => exact Or.inl rfl
  | none =>
    rw [hdynamic] at h
    refine Or.inr ⟨fun bndg hbndg => ?_, ?_⟩
    · simpa using List.find?_eq_none.mp hdynamic bndg hbndg
    · cases hstatic : (path.staticBindings globals).find? (fun bndg => bndg.name = some name) with
      | some bndg => rfl
      | none =>
        rw [hstatic] at h
        exact absurd h (by simp [targetOf])

/-- What is claimed of the marked program: a short-circuited jump lies in the function of
its target, and a continuation that does not escape is referred to by such jumps only. -/
structure KeepsFrames (exprs : List Expr) (m : Marks) : Prop where
  sameFunction : ∀ j t, (j, t) ∈ m.shortCircuit → ∃ f, LiesIn exprs j f ∧ LiesIn exprs t f
  onlyJumpedTo : ∀ o ∈ programOccurrences exprs, ∀ t, directTarget o.expr = some t →
    t ∉ m.escapes → ∃ j, o.jumpedBy = some j ∧ (j, t) ∈ m.shortCircuit

/-- The reference of a jump names no continuation from outside the function: a name that
is not bound between the jump and the function around it has an innermost static binding
that is no reference of a `with` or continuation.  (A symbol that came with a binding is to
have one from the same function.) -/
def ReferenceStays (exprs : List Expr) (o : Occurrence) : Prop :=
  match o.expr with
  | .symbol name =>
    o.path.frame ≠ none → (∀ bndg ∈ o.path.dynamicBindings, bndg.name ≠ some name) →
      ∀ bndg, (o.path.staticBindings (globalBindingAugsOf exprs)).find?
        (fun bndg => bndg.name = some name) = some bndg → targetOf bndg = none
  | .linked bndg => ∀ t, targetOf bndg = some t → LiesIn exprs t o.path.frame
  | _ => True

/-- The names in a program keep its jumps in their functions. -/
def JumpsStay (exprs : List Expr) : Prop :=
  ∀ o ∈ programOccurrences exprs, o.jumpedBy ≠ none → ReferenceStays exprs o

/-- A jump to a continuation that its name makes visible inside the function, or outside
every function, stays there. -/
theorem liesIn_of_resolve {exprs : List Expr} {o : Occurrence} {name : Name} {t : ExprId}
    (ho : o ∈ programOccurrences exprs) (hsymbol : o.expr = .symbol name)
    (hstays : ReferenceStays exprs o)
    (ht : targetOf (o.path.resolve (globalBindingAugsOf exprs) name) = some t) :
    LiesIn exprs t o.path.frame := by
  obtain ⟨other, type, hbndg, htype⟩ := exists_of_targetOf ht
  rcases find?_of_targetOf_resolve ht with hdynamic | ⟨hunbound, hstatic⟩
  · have hmem := List.mem_of_find?_eq_some hdynamic
    rw [hbndg] at hmem
    obtain ⟨inner, c, outer, hpath, -, rfl, -, hframe⟩ :=
      Path.exists_of_mem_dynamicBindings hmem
    rw [← hframe]
    exact liesIn_construct ho hpath
  · by_cases hframe : o.path.frame = none
    · have hmem := List.mem_of_find?_eq_some hstatic
      rw [hbndg] at hmem
      rcases Path.exists_of_mem_staticBindings htype hmem with hglobal |
        ⟨inner, c, outer, hpath, -, rfl, houter⟩
      · rw [← hbndg] at hglobal
        rw [targetOf_globalBindingAugsOf exprs _ hglobal] at ht
        exact absurd ht (by simp)
      · rw [hframe, ← houter]
        exact liesIn_construct ho hpath
    · unfold ReferenceStays at hstays
      rw [hsymbol] at hstays
      have hnone := hstays hframe hunbound _ hstatic
      rw [hnone] at ht
      exact absurd ht (by simp)

/-- A static name of a continuation leads out of the function. -/
theorem referenceStays_of_liesIn {exprs : List Expr} (hd : Distinct exprs) {o : Occurrence}
    {name : Name} (ho : o ∈ programOccurrences exprs) (hsymbol : o.expr = .symbol name)
    (hlies : ∀ t, targetOf (o.path.resolve (globalBindingAugsOf exprs) name) = some t →
      LiesIn exprs t o.path.frame) : ReferenceStays exprs o := by
  unfold ReferenceStays
  rw [hsymbol]
  intro hframe hunbound bndg hstatic
  by_contra htarget
  obtain ⟨t, ht⟩ := Option.ne_none_iff_exists'.mp htarget
  have hresolve : o.path.resolve (globalBindingAugsOf exprs) name = bndg := by
    unfold Path.resolve
    have hnone : o.path.dynamicBindings.find? (fun bndg => bndg.name = some name) = none := by
      rw [List.find?_eq_none]
      intro bndg hbndg
      simpa using hunbound bndg hbndg
    rw [List.find?_append, hnone, hstatic]
    rfl
  have hinside := hlies t (by rw [hresolve]; exact ht)
  obtain ⟨other, type, rfl, htype⟩ := exists_of_targetOf ht
  rcases Path.exists_of_mem_staticBindings htype (List.mem_of_find?_eq_some hstatic) with hglobal |
    ⟨inner, c, outer, hpath, -, rfl, houter⟩
  · rw [targetOf_globalBindingAugsOf exprs _ hglobal] at ht
    exact absurd ht (by simp)
  · have houtside := liesIn_construct ho hpath
    rw [houter] at houtside
    exact hframe (hinside.unique hd houtside)

/-- A jump whose reference is known by its place in the program. -/
theorem mem_shortCircuit_linkProgram {exprs : List Expr} {j t : ExprId} :
    (j, t) ∈ (escapeProgram (linkProgram exprs).1).shortCircuit ↔
      ∃ o ∈ programOccurrences exprs, o.jumpedBy = some j ∧
        directTarget (bindSymbols (globalBindingAugsOf exprs) o.path o.expr) = some t := by
  rw [mem_shortCircuit_iff, linkProgram_eq, programOccurrences_bindArguments]
  simp only [List.mem_map, exists_exists_and_eq_and, Occurrence.bind]

/-- Short-circuited jumps stay in their functions exactly when no jump in a function names
a `with` or continuation that surrounds the function: `link_symbols` makes these visible in
it when they stand outside every function, and `escape_analysis` does not look where they
stand. -/
theorem escapeProgram_keepsFrames_iff (exprs : List Expr) (hd : Distinct exprs) :
    KeepsFrames (linkProgram exprs).1 (escapeProgram (linkProgram exprs).1) ↔
      JumpsStay exprs := by
  constructor
  · intro h o ho hjumped
    obtain ⟨j, hj⟩ := Option.ne_none_iff_exists'.mp hjumped
    -- the jump shares its function with whatever its reference is bound to
    have hlies : ∀ t,
        directTarget (bindSymbols (globalBindingAugsOf exprs) o.path o.expr) = some t →
        LiesIn exprs t o.path.frame := by
      intro t ht
      obtain ⟨f, hjf, htf⟩ :=
        h.sameFunction j t (mem_shortCircuit_linkProgram.mpr ⟨o, ho, hj, ht⟩)
      rw [linkProgram_eq, liesIn_bindArguments] at hjf htf
      rw [(liesIn_jumpedBy ho hj).unique hd hjf]
      exact htf
    cases hexpr : o.expr with
    | symbol name =>
      rw [hexpr] at hlies
      exact referenceStays_of_liesIn hd ho hexpr hlies
    | linked bndg =>
      rw [hexpr] at hlies
      unfold ReferenceStays
      rw [hexpr]
      exact hlies
    | _ =>
      unfold ReferenceStays
      rw [hexpr]
      trivial
  · intro h
    constructor
    · intro j t hjt
      obtain ⟨o, ho, hj, ht⟩ := mem_shortCircuit_linkProgram.mp hjt
      refine ⟨o.path.frame, ?_⟩
      rw [linkProgram_eq, liesIn_bindArguments, liesIn_bindArguments]
      refine ⟨liesIn_jumpedBy ho hj, ?_⟩
      have hstays := h o ho (by rw [hj]; simp)
      cases hexpr : o.expr with
      | symbol name =>
        rw [hexpr] at ht
        exact liesIn_of_resolve ho hexpr hstays ht
      | linked bndg =>
        rw [hexpr] at ht
        unfold ReferenceStays at hstays
        rw [hexpr] at hstays
        exact hstays t ht
      | continuation id reference parameters expression =>
        rw [hexpr] at ht
        obtain rfl : id = t := Option.some.inj ht
        exact ⟨o, ho, by rw [hexpr]; rfl, rfl⟩
      | _ =>
        rw [hexpr] at ht
        exact absurd ht (by simp [bindSymbols, directTarget])
    · intro o ho t ht hescapes
      cases hj : o.jumpedBy with
      | none => exact absurd (mem_escapes_iff.mpr ⟨o, ho, hj, ht⟩) hescapes
      | some j => exact ⟨j, rfl, mem_shortCircuit_iff.mpr ⟨o, ho, hj, ht⟩⟩

/-- `(function f () (with k [(function g () {k (literal 0)})]))`, where `k` is dynamic and
`g` does not see it. -/
def insideFunction : List Expr :=
  [.function 0 (some ⟨"f", by decide⟩) [] <| .withExpr 1 (some ⟨"k", by decide⟩) <|
    .invoke (.function 2 (some ⟨"g", by decide⟩) [] <|
      .jump 3 (.symbol ⟨"k", by decide⟩) [.literal 0]) []]

theorem escapeProgram_keepsFrames_iff_insideFunction :
    KeepsFrames (linkProgram insideFunction).1 (escapeProgram (linkProgram insideFunction).1) ↔
      JumpsStay insideFunction :=
  escapeProgram_keepsFrames_iff insideFunction (by unfold Distinct; decide)

/-- `(with k [(function f () {k (literal 0)})])` -/
def outsideFunction : List Expr :=
  [.withExpr 0 (some ⟨"k", by decide⟩) <|
    .invoke (.function 1 (some ⟨"f", by decide⟩) [] <|
      .jump 2 (.symbol ⟨"k", by decide⟩) [.literal 0]) []]

/-- The jump in the function `f` is short-circuited to the `with` outside of it. -/
theorem not_keepsFrames_outsideFunction :
    ¬ KeepsFrames (linkProgram outsideFunction).1
      (escapeProgram (linkProgram outsideFunction).1) := by
  intro h
  obtain ⟨f, hjump, htarget⟩ := h.sameFunction 2 0 (by decide)
  have hinside : f = some 1 := by
    simpa [LiesIn, linkProgram, linkArguments, linkSymbols, outsideFunction, programOccurrences,
      argumentOccurrences, occurrences, Expr.id?, Expr.construct?, Path.frame, eq_comm] using hjump
  have houtside : f = none := by
    simpa [LiesIn, linkProgram, linkArguments, linkSymbols, outsideFunction, programOccurrences,
      argumentOccurrences, occurrences, Expr.id?, Expr.construct?, Path.frame, eq_comm] using
      htarget
  rw [hinside] at houtside
  exact absurd houtside (by simp)

end L2.Bootstrap
