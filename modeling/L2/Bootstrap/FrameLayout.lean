import L2.Bootstrap.Generator
import L2.Memory.Ranges

/-!
# Frame layout

`layout_frames` collects the bindings of a function body in the order in which it comes to
them and lays them out from the last one down, below the frame pointer.  What belongs to one
expression is collected without anything in between, so it is adjacent in the frame.  The
bindings at the top of a program are collected in the same way; `write_elf` lays them out
upwards, those of local scope before the others.
-/

namespace L2.Bootstrap

open X86 (Word)

/-- `WORD_SIZE` and `CONT_SIZE` -/
abbrev wordBytes : Nat := 8
abbrev contBytes : Nat := 7 * wordBytes

/-- `pad_size` -/
def padSize (x nearest : Nat) : Nat :=
  let rem := x % nearest
  x + if rem = 0 then 0 else nearest - rem

/-- The fields of bindings and functions that are written. -/
structure Layout where
  size : Bndg → Nat
  offset : Bndg → Int
  type : Bndg → BindingAugType
  bindingAugs : ExprId → List Bndg

namespace Layout

def setSize (st : Layout) (bndg : Bndg) (size : Nat) : Layout :=
  { st with size := Function.update st.size bndg size }

def setOffset (st : Layout) (bndg : Bndg) (offset : Int) : Layout :=
  { st with offset := Function.update st.offset bndg offset }

def setType (st : Layout) (bndg : Bndg) (type : BindingAugType) : Layout :=
  { st with type := Function.update st.type bndg type }

def setBindingAugs (st : Layout) (id : ExprId) (bndgs : List Bndg) : Layout :=
  { st with bindingAugs := Function.update st.bindingAugs id bndgs }

end Layout

/-- The list that is appended to, with the fields. -/
abbrev Collected := List Bndg × Layout

/-- The size of a binding is set and the binding is appended. -/
def collect (bndg : Bndg) (size : Nat) (s : Collected) : Collected :=
  (s.1 ++ [bndg], s.2.setSize bndg size)

/-- The loop over the parameters of a continuation. -/
def collectParameters (id : ExprId) (s : Collected) : List Symbol → Collected
  | [] => s
  | t :: parameters => collectParameters id (collect (.aug ⟨t, id⟩) wordBytes s) parameters

/-- The loop over the parameters of a function. -/
def parameterOffsets (id : ExprId) (parameterOffset : Int) (st : Layout) : List Symbol → Layout
  | [] => st
  | t :: parameters => parameterOffsets id (parameterOffset + wordBytes)
    (st.setOffset (.aug ⟨t, id⟩) parameterOffset) parameters

/-- The loop over the reversed list of the bindings of a function. -/
def bindingAugOffsets (bindingAugOffset : Int) (st : Layout) : List Bndg → Layout
  | [] => st
  | u :: us =>
    let bindingAugOffset := bindingAugOffset - padSize (st.size u) wordBytes
    bindingAugOffsets bindingAugOffset (st.setOffset u bindingAugOffset) us

section

variable (escapes : ExprId → Bool) (containsFlag : ExprId → ContainsFlag)

/-- The end of the case of continuations and `with` expressions. -/
def layoutContinuation (id : ExprId) (reference : Symbol) (parameters : List Symbol)
    (s : Collected) : Collected :=
  let s := if escapes id then collect (.aug ⟨reference, id⟩) contBytes s else s
  collectParameters id s parameters

/-- The end of the case of jumps and invokes with `n` arguments. -/
def layoutTempStorage (id : ExprId) (n : Nat) (s : Collected) : Collected :=
  let bndg := .tempStorage id
  let st := s.2.setSize bndg (wordBytes * n)
  match containsFlag id with
  | .withExpr => (s.1 ++ [bndg], st)
  | .jump => (s.1, st.setType bndg .nilStorage)
  | .none => (s.1, (st.setType bndg .topRelativeStorage).setOffset bndg 0)

/-- The end of the case of functions, with the list of its bindings. -/
def layoutFunction (id : ExprId) (parameters : List Symbol) (s : Collected) : Layout :=
  let st := s.2.setBindingAugs id s.1
  bindingAugOffsets 0 (parameterOffsets id (2 * wordBytes) st parameters) s.1.reverse

mutual

/-- `layout_frames` -/
def layoutFrames : Expr → Collected → Collected
  | .function id _ parameters expression, (bndgs, st) =>
    (bndgs, layoutFunction id parameters (layoutFrames expression (st.bindingAugs id, st)))
  | .continuation id reference parameters expression, s =>
    layoutContinuation escapes id reference parameters (layoutFrames expression s)
  | .withExpr id reference parameter expression, s =>
    layoutContinuation escapes id reference [parameter] (layoutFrames expression s)
  | .storage id reference arguments, s =>
    collect (.aug ⟨reference, id⟩) (arguments.length * wordBytes) (layoutArguments arguments s)
  | .jump id reference arguments, s | .invoke id reference arguments, s =>
    layoutTempStorage containsFlag id arguments.length
      (layoutArguments arguments (layoutFrames reference s))
  | .ifExpr _ condition consequent alternate, s =>
    layoutFrames alternate (layoutFrames consequent (layoutFrames condition s))
  | .constrain _ expression _, s => layoutFrames expression s
  | .literal _ _, s | .symbol _ _ _, s => s

def layoutArguments : List Expr → Collected → Collected
  | [], s => s
  | u :: arguments, s => layoutArguments arguments (layoutFrames u s)

end

/-- What `compile_program` does with it: the second component of the result is what is left
in the fields, the first the list `static_bindings`. -/
def layoutProgram (exprs : List Expr) (st : Layout) : Collected :=
  layoutArguments escapes containsFlag exprs ([], st)

end

/-- `get_current_offset` -/
def currentOffset (st : Layout) (id : ExprId) : Int :=
  ((st.bindingAugs id).head?.map st.offset).getD 0

/-! ## Static storage -/

/-- `global_binding_augs_of` -/
def globalBindingAugs (exprs : List Expr) : List Bndg :=
  exprs.filterMap fun
    | .function id reference _ _ | .storage id reference _ => some (.aug ⟨reference, id⟩)
    | _ => none

/-- A loop of `write_elf` over the static bindings, for those that `p` holds of, with
`bss_ptr`. -/
def writeStatic (p : Bndg → Bool) (bssPtr : Int) (st : Layout) : List Bndg → Int × Layout
  | [] => (bssPtr, st)
  | bndg :: bndgs =>
    if p bndg then
      writeStatic p (bssPtr + padSize (st.size bndg) wordBytes) (st.setOffset bndg bssPtr) bndgs
    else writeStatic p bssPtr st bndgs

/-- The offsets that `write_elf` gives to static bindings, where those of `globals` have global
scope.  All of them are defined. -/
def writeStatics (globals : List Bndg) (s : Collected) : Layout :=
  let r := writeStatic (fun bndg => bndg ∉ globals) 0 s.2 s.1
  (writeStatic (fun bndg => bndg ∈ globals) r.1 r.2 s.1).2

/-! ## What is in a frame -/

/-- The expression that a binding is of. -/
def Bndg.owner : Bndg → Option ExprId
  | aug bindingAug => some bindingAug.expression
  | contInstr expression | tempStorage expression => some expression
  | fresh _ => none

def Expr.isFunction : Expr → Bool
  | .function _ _ _ _ => true
  | _ => false

/-- The symbols that an expression introduces. -/
def Expr.symbols : Expr → List Symbol
  | .storage _ reference _ => [reference]
  | .function _ reference parameters _ | .continuation _ reference parameters _ =>
    reference :: parameters
  | .withExpr _ reference parameter _ => [reference, parameter]
  | _ => []

/-- The expressions, and the symbols that each of them introduces, are objects of their own. -/
structure DistinctSymbols (exprs : List Expr) : Prop where
  ids : (exprs.map Expr.id).Nodup
  symbols : ∀ e ∈ exprs, e.symbols.Nodup

mutual

/-- The expressions in the frame of the function around: those in a function are not. -/
def frameExpressions : Expr → List Expr
  | .ifExpr id condition consequent alternate =>
    frameExpressions condition ++ frameExpressions consequent ++ frameExpressions alternate ++
      [.ifExpr id condition consequent alternate]
  | .function id reference parameters expression => [.function id reference parameters expression]
  | .continuation id reference parameters expression =>
    frameExpressions expression ++ [.continuation id reference parameters expression]
  | .withExpr id reference parameter expression =>
    frameExpressions expression ++ [.withExpr id reference parameter expression]
  | .constrain id expression signature =>
    frameExpressions expression ++ [.constrain id expression signature]
  | .jump id reference arguments =>
    frameExpressions reference ++ frameArguments arguments ++ [.jump id reference arguments]
  | .invoke id reference arguments =>
    frameExpressions reference ++ frameArguments arguments ++ [.invoke id reference arguments]
  | .storage id reference arguments =>
    frameArguments arguments ++ [.storage id reference arguments]
  | .literal id value => [.literal id value]
  | .symbol id name bindingAug => [.symbol id name bindingAug]

def frameArguments : List Expr → List Expr
  | [] => []
  | e :: es => frameExpressions e ++ frameArguments es

end

section

variable (escapes : ExprId → Bool) (containsFlag : ExprId → ContainsFlag)

/-- What a continuation or a `with` expression has in the frame. -/
def bufferBindings (id : ExprId) (reference : Symbol) (parameters : List Symbol) :
    List (Bndg × Nat) :=
  (if escapes id then [(.aug ⟨reference, id⟩, contBytes)] else []) ++
    parameters.map fun t => (.aug ⟨t, id⟩, wordBytes)

/-- What a jump or an invoke has in the frame. -/
def argumentBindings (id : ExprId) (n : Nat) : List (Bndg × Nat) :=
  if containsFlag id = .withExpr then [(.tempStorage id, wordBytes * n)] else []

/-- What an expression has in the frame, with the sizes: cells, a buffer and parameters, or the
arguments of something that contains a `with` expression. -/
def ownBindings : Expr → List (Bndg × Nat)
  | .storage id reference arguments => [(.aug ⟨reference, id⟩, arguments.length * wordBytes)]
  | .continuation id reference parameters _ => bufferBindings escapes id reference parameters
  | .withExpr id reference parameter _ => bufferBindings escapes id reference [parameter]
  | .jump id _ arguments | .invoke id _ arguments =>
    argumentBindings containsFlag id arguments.length
  | _ => []

def bindingsOf (exprs : List Expr) : List (Bndg × Nat) :=
  exprs.flatMap (ownBindings escapes containsFlag)

/-- What is in the frame of a function with the body `e`. -/
def frameBindings (e : Expr) : List (Bndg × Nat) :=
  bindingsOf escapes containsFlag (frameExpressions e)

end

variable {escapes : ExprId → Bool} {containsFlag : ExprId → ContainsFlag}

theorem bindingsOf_append (es es' : List Expr) : bindingsOf escapes containsFlag (es ++ es') =
    bindingsOf escapes containsFlag es ++ bindingsOf escapes containsFlag es' :=
  List.flatMap_append

theorem bindingsOf_singleton (e : Expr) :
    bindingsOf escapes containsFlag [e] = ownBindings escapes containsFlag e :=
  List.append_nil _

theorem owner_ownBindings {e : Expr} {bn : Bndg × Nat}
    (h : bn ∈ ownBindings escapes containsFlag e) : bn.1.owner = some e.id := by
  have hcontinuation : ∀ id reference parameters,
      bn ∈ bufferBindings escapes id reference parameters → bn.1.owner = some id := by
    intro id reference parameters h
    rcases List.mem_append.mp h with h | h
    · split at h
      · rw [List.mem_singleton.mp h]
        rfl
      · exact absurd h List.not_mem_nil
    · obtain ⟨t, _, rfl⟩ := List.mem_map.mp h
      rfl
  have harguments : ∀ id n, bn ∈ argumentBindings containsFlag id n → bn.1.owner = some id := by
    intro id n h
    unfold argumentBindings at h
    split at h
    · rw [List.mem_singleton.mp h]
      rfl
    · exact absurd h List.not_mem_nil
  cases e with
  | storage id reference arguments =>
    rw [List.mem_singleton.mp h]
    rfl
  | continuation id reference parameters expression => exact hcontinuation _ _ _ h
  | withExpr id reference parameter expression => exact hcontinuation _ _ _ h
  | jump id reference arguments | invoke id reference arguments => exact harguments _ _ h
  | literal _ _ | symbol _ _ _ | function _ _ _ _ | ifExpr _ _ _ _ | constrain _ _ _ =>
    exact absurd h List.not_mem_nil

theorem isFunction_of_mem_ownBindings {e : Expr} {bn : Bndg × Nat}
    (h : bn ∈ ownBindings escapes containsFlag e) : e.isFunction = false := by
  cases e with
  | function _ _ _ _ => exact absurd h List.not_mem_nil
  | literal _ _ | symbol _ _ _ | storage _ _ _ | continuation _ _ _ _ | withExpr _ _ _ _
  | invoke _ _ _ | jump _ _ _ | ifExpr _ _ _ _ | constrain _ _ _ => rfl

theorem owner_bindingsOf {es : List Expr} {bn : Bndg × Nat}
    (h : bn ∈ bindingsOf escapes containsFlag es) :
    ∃ e ∈ es, e.isFunction = false ∧ bn.1.owner = some e.id := by
  obtain ⟨e, he, hbn⟩ := List.mem_flatMap.mp h
  exact ⟨e, he, isFunction_of_mem_ownBindings hbn, owner_ownBindings hbn⟩

theorem nodup_ownBindings {e : Expr} (h : e.symbols.Nodup) :
    ((ownBindings escapes containsFlag e).map Prod.fst).Nodup := by
  have hcontinuation : ∀ id reference parameters, (reference :: parameters).Nodup →
      ((bufferBindings escapes id reference parameters).map Prod.fst).Nodup := by
    intro id reference parameters h
    have hall : ((reference :: parameters).map fun t => Bndg.aug ⟨t, id⟩).Nodup := by
      apply h.map
      intro t t' htt
      exact congrArg BindingAug.symbol (Bndg.aug.inj htt)
    apply List.Sublist.nodup _ hall
    unfold bufferBindings
    rw [List.map_append, List.map_map]
    split
    · exact List.Sublist.refl _
    · exact List.sublist_cons_self _ _
  have harguments : ∀ id n, ((argumentBindings containsFlag id n).map Prod.fst).Nodup := by
    intro id n
    unfold argumentBindings
    split
    · exact List.nodup_singleton _
    · exact List.nodup_nil
  cases e with
  | storage id reference arguments => exact List.nodup_singleton _
  | continuation id reference parameters expression => exact hcontinuation _ _ _ h
  | withExpr id reference parameter expression => exact hcontinuation _ _ _ h
  | jump id reference arguments | invoke id reference arguments => exact harguments _ _
  | literal _ _ | symbol _ _ _ | function _ _ _ _ | ifExpr _ _ _ _ | constrain _ _ _ =>
    exact List.nodup_nil

theorem DistinctSymbols.sublist {es es' : List Expr} (h : DistinctSymbols es)
    (hs : es'.Sublist es) :
    DistinctSymbols es' :=
  ⟨(hs.map Expr.id).nodup h.ids, fun e he => h.symbols e (hs.subset he)⟩

theorem DistinctSymbols.nodup_bindingsOf {es : List Expr} (h : DistinctSymbols es) :
    ((bindingsOf escapes containsFlag es).map Prod.fst).Nodup := by
  induction es with
  | nil => exact List.nodup_nil
  | cons e es ih =>
    rw [show e :: es = [e] ++ es from rfl, bindingsOf_append, bindingsOf_singleton,
      List.map_append, List.nodup_append]
    refine ⟨nodup_ownBindings (h.symbols e List.mem_cons_self),
      ih (h.sublist (List.sublist_cons_self e es)), ?_⟩
    rintro b hb _ hb' rfl
    obtain ⟨bn, hbn, rfl⟩ := List.mem_map.mp hb
    obtain ⟨bn', hbn', heq⟩ := List.mem_map.mp hb'
    obtain ⟨e', he', _, howner⟩ := owner_bindingsOf hbn'
    rw [heq, owner_ownBindings hbn] at howner
    apply (List.nodup_cons.mp h.ids).1
    rw [Option.some.inj howner]
    exact List.mem_map_of_mem he'

mutual

theorem frameExpressions_sublist : ∀ e : Expr, (frameExpressions e).Sublist (visitExpressions e)
  | .ifExpr _ condition consequent alternate =>
    (((frameExpressions_sublist condition).append (frameExpressions_sublist consequent)).append
      (frameExpressions_sublist alternate)).append_right _
  | .function _ _ _ expression => List.sublist_append_right (visitExpressions expression) _
  | .continuation _ _ _ expression => (frameExpressions_sublist expression).append_right _
  | .withExpr _ _ _ expression => (frameExpressions_sublist expression).append_right _
  | .constrain _ expression _ => (frameExpressions_sublist expression).append_right _
  | .jump _ reference arguments | .invoke _ reference arguments =>
    ((frameExpressions_sublist reference).append (frameArguments_sublist arguments)).append_right _
  | .storage _ _ arguments => (frameArguments_sublist arguments).append_right _
  | .literal _ _ | .symbol _ _ _ => List.Sublist.refl _

theorem frameArguments_sublist : ∀ es : List Expr, (frameArguments es).Sublist (visitArguments es)
  | [] => List.Sublist.refl _
  | e :: es => (frameExpressions_sublist e).append (frameArguments_sublist es)

end

/-- The functions in a list are not entered for what is in the frame. -/
structure Apart (es frame : List Expr) : Prop where
  below : ∀ f ∈ es, f.isFunction = true → visitExpressions f ⊆ es
  inside : frame ⊆ es
  apart : ∀ f ∈ es, f.isFunction = true → ∀ c ∈ visitExpressions f, c ∈ frame → c = f

theorem Apart.append {es es' frame frame' : List Expr}
    (hids : ((es ++ es').map Expr.id).Nodup) (h : Apart es frame) (h' : Apart es' frame') :
    Apart (es ++ es') (frame ++ frame') := by
  have hdisjoint : ∀ c, c ∈ es → c ∉ es' := by
    intro c hc hc'
    rw [List.map_append] at hids
    exact (List.nodup_append.mp hids).2.2 _ (List.mem_map_of_mem hc) _ (List.mem_map_of_mem hc') rfl
  refine ⟨?_, ?_, ?_⟩
  · intro f hf hfun
    rcases List.mem_append.mp hf with hf | hf
    · exact List.Subset.trans (h.below f hf hfun) (List.subset_append_left _ _)
    · exact List.Subset.trans (h'.below f hf hfun) (List.subset_append_right _ _)
  · intro c hc
    rcases List.mem_append.mp hc with hc | hc
    · exact List.mem_append_left _ (h.inside hc)
    · exact List.mem_append_right _ (h'.inside hc)
  · intro f hf hfun c hcf hc
    rcases List.mem_append.mp hf with hf | hf
    · have hces := h.below f hf hfun hcf
      rcases List.mem_append.mp hc with hc | hc
      · exact h.apart f hf hfun c hcf hc
      · exact absurd (h'.inside hc) (hdisjoint c hces)
    · have hces := h'.below f hf hfun hcf
      rcases List.mem_append.mp hc with hc | hc
      · exact absurd hces (hdisjoint c (h.inside hc))
      · exact h'.apart f hf hfun c hcf hc

theorem Apart.self {e : Expr} (h : e.isFunction = false) : Apart [e] [e] := by
  have hnot : ∀ f ∈ [e], f.isFunction = true → False := by
    intro f hf hfun
    rw [List.mem_singleton.mp hf, h] at hfun
    cases hfun
  exact ⟨fun f hf hfun => (hnot f hf hfun).elim, List.Subset.refl _,
    fun f hf hfun => (hnot f hf hfun).elim⟩

theorem nodup_left {l m : List Expr} (h : ((l ++ m).map Expr.id).Nodup) : (l.map Expr.id).Nodup :=
  ((List.sublist_append_left l m).map Expr.id).nodup h

theorem nodup_right {l m : List Expr} (h : ((l ++ m).map Expr.id).Nodup) :
    (m.map Expr.id).Nodup :=
  ((List.sublist_append_right l m).map Expr.id).nodup h

/-- The function itself is all of it in the frame around. -/
theorem apart_function {id : ExprId} {reference : Symbol} {parameters : List Symbol}
    {expression : Expr}
    (hids : ((visitExpressions (.function id reference parameters expression)).map Expr.id).Nodup)
    (h : Apart (visitExpressions expression) (frameExpressions expression)) :
    Apart (visitExpressions (.function id reference parameters expression))
      [.function id reference parameters expression] := by
  rw [visitExpressions, List.map_append] at hids
  have hself : .function id reference parameters expression ∉ visitExpressions expression := by
    intro hmem
    exact (List.nodup_append.mp hids).2.2 _ (List.mem_map_of_mem hmem) _
      (List.mem_singleton.mpr rfl) rfl
  refine ⟨fun f hf _ => visitExpressions_subset _ hf, ?_, ?_⟩
  · exact List.subset_append_right _ _
  · intro f hf hfun c hcf hc
    rw [List.mem_singleton.mp hc] at hcf ⊢
    rcases List.mem_append.mp hf with hf | hf
    · exact absurd (h.below f hf hfun hcf) hself
    · exact (List.mem_singleton.mp hf).symm

mutual

theorem apart_frameExpressions : ∀ e : Expr, ((visitExpressions e).map Expr.id).Nodup →
    Apart (visitExpressions e) (frameExpressions e)
  | .ifExpr _ condition consequent alternate, h =>
    have hbranches := nodup_left h
    have hcondition := nodup_left hbranches
    Apart.append h
      (Apart.append hbranches
        (Apart.append hcondition (apart_frameExpressions condition (nodup_left hcondition))
          (apart_frameExpressions consequent (nodup_right hcondition)))
        (apart_frameExpressions alternate (nodup_right hbranches)))
      (Apart.self rfl)
  | .function _ _ _ expression, h =>
    apart_function h (apart_frameExpressions expression (nodup_left h))
  | .continuation _ _ _ expression, h | .withExpr _ _ _ expression, h
  | .constrain _ expression _, h =>
    Apart.append h (apart_frameExpressions expression (nodup_left h)) (Apart.self rfl)
  | .jump _ reference arguments, h | .invoke _ reference arguments, h =>
    have hparts := nodup_left h
    Apart.append h
      (Apart.append hparts (apart_frameExpressions reference (nodup_left hparts))
        (apart_frameArguments arguments (nodup_right hparts)))
      (Apart.self rfl)
  | .storage _ _ arguments, h =>
    Apart.append h (apart_frameArguments arguments (nodup_left h)) (Apart.self rfl)
  | .literal _ _, _ | .symbol _ _ _, _ => Apart.self rfl

theorem apart_frameArguments : ∀ es : List Expr, ((visitArguments es).map Expr.id).Nodup →
    Apart (visitArguments es) (frameArguments es)
  | [], _ =>
    ⟨fun _ hf => absurd hf List.not_mem_nil, List.Subset.refl _,
      fun _ hf => absurd hf List.not_mem_nil⟩
  | e :: es, h =>
    Apart.append h (apart_frameExpressions e (nodup_left h))
      (apart_frameArguments es (nodup_right h))

end

end L2.Bootstrap
