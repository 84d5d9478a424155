import L2.Bootstrap.FrameLayout

/-!
# Frame layout is correct

Laying out an expression appends the bindings that it has in the frame around it, and leaves
the frames of the functions in it.  Nothing else is changed, so this composes along the tree
(`Laid.trans`).
-/

namespace L2.Bootstrap

variable {escapes : ExprId → Bool} {containsFlag : ExprId → ContainsFlag}

/-! ## What a layout does -/

/-- The size of a binding in memory. -/
def Layout.paddedSize (st : Layout) (bndg : Bndg) : Nat := padSize (st.size bndg) wordBytes

/-- The fields of an expression's bindings are the same. -/
structure SameAt (x : ExprId) (st st' : Layout) : Prop where
  size : ∀ b : Bndg, b.owner = some x → st'.size b = st.size b
  offset : ∀ b : Bndg, b.owner = some x → st'.offset b = st.offset b
  bindingAugs : st'.bindingAugs x = st.bindingAugs x

variable {st st' st'' : Layout} {x : ExprId} {s s' s'' : Collected}

theorem SameAt.refl (x : ExprId) (st : Layout) : SameAt x st st :=
  ⟨fun _ _ => rfl, fun _ _ => rfl, rfl⟩

theorem SameAt.trans (h : SameAt x st st') (h' : SameAt x st' st'') : SameAt x st st'' :=
  ⟨fun b hb => (h'.size b hb).trans (h.size b hb),
    fun b hb => (h'.offset b hb).trans (h.offset b hb), h'.bindingAugs.trans h.bindingAugs⟩

theorem owner_ne {b bndg : Bndg} {y : ExprId} (hb : b.owner = some x) (hbndg : bndg.owner = some y)
    (hne : x ≠ y) : b ≠ bndg := by
  rintro rfl
  exact hne (Option.some.inj (hb.symm.trans hbndg))

section

variable {bndg : Bndg} {y : ExprId} (howner : bndg.owner = some y) (hne : x ≠ y)

include howner hne

theorem SameAt.setSize (n : Nat) (st : Layout) : SameAt x st (st.setSize bndg n) :=
  ⟨fun _ hb => Function.update_of_ne (owner_ne hb howner hne) _ _, fun _ _ => rfl, rfl⟩

theorem SameAt.setOffset (offset : Int) (st : Layout) : SameAt x st (st.setOffset bndg offset) :=
  ⟨fun _ _ => rfl, fun _ hb => Function.update_of_ne (owner_ne hb howner hne) _ _, rfl⟩

end

theorem SameAt.setType (bndg : Bndg) (type : BindingAugType) (st : Layout) :
    SameAt x st (st.setType bndg type) := ⟨fun _ _ => rfl, fun _ _ => rfl, rfl⟩

section

variable (escapes containsFlag)

/-- The frame of a function after its layout. -/
structure FrameOk (st : Layout) (id : ExprId) (parameters : List Symbol) (body : Expr) :
    Prop where
  parameters : ∀ i (hi : i < parameters.length),
    st.offset (.aug ⟨parameters.get ⟨i, hi⟩, id⟩) = 2 * wordBytes + wordBytes * i
  sizes : ∀ bn ∈ frameBindings escapes containsFlag body, st.size bn.1 = bn.2
  consecutive : Ranges.Consecutive st.paddedSize st.offset (currentOffset st id)
    ((frameBindings escapes containsFlag body).map Prod.fst)
  below : currentOffset st id + Ranges.extent st.paddedSize
    ((frameBindings escapes containsFlag body).map Prod.fst) ≤ 0
  aligned : (wordBytes : Int) ∣ currentOffset st id

/-- The function, if it is one, has its frame. -/
def FunctionOk (st : Layout) : Expr → Prop
  | .function id _ parameters body => FrameOk escapes containsFlag st id parameters body
  | _ => True

/-- The function, if it is one, has been laid out a number of times. -/
def Repeated (st : Layout) : Expr → Prop
  | .function id _ _ body => ∃ k, st.bindingAugs id =
    (List.replicate k ((frameBindings escapes containsFlag body).map Prod.fst)).flatten
  | _ => True

/-- What laying out the expressions of a list in their order comes to. -/
structure Laid (es : List Expr) (own : List (Bndg × Nat)) (s s' : Collected) : Prop where
  owned : ∀ bn ∈ own, ∃ e ∈ es, bn.1.owner = some e.id
  list : s'.1 = s.1 ++ own.map Prod.fst
  sizes : ∀ bn ∈ own, s'.2.size bn.1 = bn.2
  other : ∀ x, x ∉ es.map Expr.id → SameAt x s.2 s'.2
  functions : ∀ f ∈ es,
    Repeated escapes containsFlag s'.2 f ∧ FunctionOk escapes containsFlag s'.2 f

end

theorem Repeated.congr {f : Expr} (h : Repeated escapes containsFlag st f)
    (hs : SameAt f.id st st') : Repeated escapes containsFlag st' f := by
  cases f with
  | function id reference parameters body =>
    obtain ⟨k, hk⟩ := h
    exact ⟨k, hs.bindingAugs.trans hk⟩
  | literal _ _ | symbol _ _ _ | storage _ _ _ | continuation _ _ _ _ | withExpr _ _ _ _
  | invoke _ _ _ | jump _ _ _ | ifExpr _ _ _ _ | constrain _ _ _ => exact True.intro

theorem owner_frameBindings {body : Expr} {b : Bndg}
    (h : b ∈ (frameBindings escapes containsFlag body).map Prod.fst) :
    ∃ e ∈ frameExpressions body, e.isFunction = false ∧ b.owner = some e.id := by
  obtain ⟨bn, hbn, rfl⟩ := List.mem_map.mp h
  exact owner_bindingsOf hbn

theorem currentOffset_congr {id : ExprId} (hid : SameAt id st st')
    (hlist : ∀ b ∈ st.bindingAugs id, st'.offset b = st.offset b) :
    currentOffset st' id = currentOffset st id := by
  unfold currentOffset
  rw [hid.bindingAugs]
  cases hbndgs : st.bindingAugs id with
  | nil => rfl
  | cons b bndgs =>
    rw [hbndgs] at hlist
    exact hlist b List.mem_cons_self

theorem mem_of_repeated {α : Type} {l : List α} {k : Nat} {a : α}
    (h : a ∈ (List.replicate k l).flatten) : a ∈ l := by
  obtain ⟨l', hl', ha⟩ := List.mem_flatten.mp h
  rw [(List.mem_replicate.mp hl').2] at ha
  exact ha

theorem FunctionOk.congr {f : Expr} (h : FunctionOk escapes containsFlag st f)
    (hr : Repeated escapes containsFlag st f) (hs : ∀ e ∈ visitExpressions f, SameAt e.id st st') :
    FunctionOk escapes containsFlag st' f := by
  cases f with
  | function id reference parameters body =>
    obtain ⟨hparameters, hsizes, hconsecutive, hbelow, haligned⟩ := h
    have hself : SameAt id st st' := hs _ (mem_visitExpressions_self _)
    have hbody : ∀ b ∈ (frameBindings escapes containsFlag body).map Prod.fst,
        st'.size b = st.size b ∧ st'.offset b = st.offset b := by
      intro b hb
      obtain ⟨e, he, _, howner⟩ := owner_frameBindings hb
      have hsame := hs e (List.mem_append_left _ ((frameExpressions_sublist body).subset he))
      exact ⟨hsame.size b howner, hsame.offset b howner⟩
    have hpadded : ∀ b ∈ (frameBindings escapes containsFlag body).map Prod.fst,
        st'.paddedSize b = st.paddedSize b := by
      intro b hb
      unfold Layout.paddedSize
      rw [(hbody b hb).1]
    have hcurrent : currentOffset st' id = currentOffset st id := by
      obtain ⟨k, hk⟩ := hr
      apply currentOffset_congr hself
      intro b hb
      rw [hk] at hb
      exact (hbody b (mem_of_repeated hb)).2
    refine ⟨?_, ?_, ?_, ?_, hcurrent ▸ haligned⟩
    · intro i hi
      rw [hself.offset _ rfl]
      exact hparameters i hi
    · intro bn hbn
      rw [(hbody bn.1 (List.mem_map_of_mem hbn)).1]
      exact hsizes bn hbn
    · rw [hcurrent]
      exact hconsecutive.congr hpadded fun b hb => (hbody b hb).2
    · rw [hcurrent, Ranges.extent_congr _ hpadded]
      exact hbelow
  | literal _ _ | symbol _ _ _ | storage _ _ _ | continuation _ _ _ _ | withExpr _ _ _ _
  | invoke _ _ _ | jump _ _ _ | ifExpr _ _ _ _ | constrain _ _ _ => exact True.intro

/-- With an expression the list has what is below it. -/
def Closed (es : List Expr) : Prop := ∀ e ∈ es, visitExpressions e ⊆ es

/-- One list after the other. -/
theorem Laid.trans {es es' : List Expr} {own own' : List (Bndg × Nat)}
    (hids : ((es ++ es').map Expr.id).Nodup) (hclosed : Closed es)
    (hrepeated : ∀ f ∈ es', Repeated escapes containsFlag s.2 f)
    (h : Laid escapes containsFlag es own s s')
    (h' : (∀ f ∈ es', Repeated escapes containsFlag s'.2 f) →
      Laid escapes containsFlag es' own' s' s'') :
    Laid escapes containsFlag (es ++ es') (own ++ own') s s'' := by
  rw [List.map_append] at hids
  have hdisjoint := (List.nodup_append.mp hids).2.2
  have hright : ∀ e ∈ es', SameAt e.id s.2 s'.2 := by
    intro e he
    apply h.other
    exact fun he' => hdisjoint _ he' _ (List.mem_map_of_mem he) rfl
  have h' := h' fun f hf => (hrepeated f hf).congr (hright f hf)
  have hleft : ∀ e ∈ es, SameAt e.id s'.2 s''.2 := by
    intro e he
    apply h'.other
    exact fun he' => hdisjoint _ (List.mem_map_of_mem he) _ he' rfl
  refine ⟨?_, ?_, ?_, ?_, ?_⟩
  · intro bn hbn
    rcases List.mem_append.mp hbn with hbn | hbn
    · obtain ⟨e, he, howner⟩ := h.owned bn hbn
      exact ⟨e, List.mem_append_left _ he, howner⟩
    · obtain ⟨e, he, howner⟩ := h'.owned bn hbn
      exact ⟨e, List.mem_append_right _ he, howner⟩
  · rw [h'.list, h.list, List.map_append, List.append_assoc]
  · intro bn hbn
    rcases List.mem_append.mp hbn with hbn | hbn
    · obtain ⟨e, he, howner⟩ := h.owned bn hbn
      rw [(hleft e he).size bn.1 howner]
      exact h.sizes bn hbn
    · exact h'.sizes bn hbn
  · intro x hx
    rw [List.map_append] at hx
    exact (h.other x fun hin => hx (List.mem_append_left _ hin)).trans
      (h'.other x fun hin => hx (List.mem_append_right _ hin))
  · intro f hf
    rcases List.mem_append.mp hf with hf | hf
    · obtain ⟨hr, hok⟩ := h.functions f hf
      have hbelow : ∀ e ∈ visitExpressions f, SameAt e.id s'.2 s''.2 :=
        fun e he => hleft e (hclosed f hf he)
      exact ⟨hr.congr (hleft f hf), hok.congr hr hbelow⟩
    · exact h'.functions f hf

/-! ### Single expressions -/

theorem functionOk_of_not {f : Expr} (h : f.isFunction = false) (st : Layout) :
    Repeated escapes containsFlag st f ∧ FunctionOk escapes containsFlag st f := by
  cases f with
  | function _ _ _ _ => cases h
  | literal _ _ | symbol _ _ _ | storage _ _ _ | continuation _ _ _ _ | withExpr _ _ _ _
  | invoke _ _ _ | jump _ _ _ | ifExpr _ _ _ _ | constrain _ _ _ => exact ⟨True.intro, True.intro⟩

/-- The end of a case that is not that of functions. -/
theorem Laid.own {e : Expr} (he : e.isFunction = false)
    (hlist : s'.1 = s.1 ++ (ownBindings escapes containsFlag e).map Prod.fst)
    (hsizes : ∀ bn ∈ ownBindings escapes containsFlag e, s'.2.size bn.1 = bn.2)
    (hother : ∀ x, x ≠ e.id → SameAt x s.2 s'.2) :
    Laid escapes containsFlag [e] (ownBindings escapes containsFlag e) s s' := by
  refine ⟨?_, hlist, hsizes, ?_, ?_⟩
  · exact fun bn hbn => ⟨e, List.mem_cons_self, owner_ownBindings hbn⟩
  · exact fun x hx => hother x fun hxe => hx (hxe ▸ List.mem_cons_self)
  · intro f hf
    rw [List.mem_singleton.mp hf]
    exact functionOk_of_not he s'.2

/-- An expression that has nothing in the frame. -/
theorem Laid.nothing {e : Expr} (he : e.isFunction = false)
    (hown : ownBindings escapes containsFlag e = []) (s : Collected) :
    Laid escapes containsFlag [e] (ownBindings escapes containsFlag e) s s := by
  apply Laid.own he
  · rw [hown]
    exact (List.append_nil _).symm
  · rw [hown]
    exact fun bn hbn => absurd hbn List.not_mem_nil
  · exact fun x _ => SameAt.refl x s.2

theorem laid_storage (id : ExprId) (reference : Symbol) (arguments : List Expr) (s : Collected) :
    Laid escapes containsFlag [.storage id reference arguments]
      (ownBindings escapes containsFlag (.storage id reference arguments)) s
      (collect (.aug ⟨reference, id⟩) (arguments.length * wordBytes) s) := by
  apply Laid.own rfl
  · rfl
  · intro bn hbn
    rw [List.mem_singleton.mp hbn]
    exact Function.update_self ..
  · exact fun x hx => SameAt.setSize rfl hx _ _

theorem collectParameters_list (id : ExprId) (s : Collected) (parameters : List Symbol) :
    (collectParameters id s parameters).1 = s.1 ++ parameters.map fun t => .aug ⟨t, id⟩ := by
  induction parameters generalizing s with
  | nil => exact (List.append_nil _).symm
  | cons t parameters ih =>
    show (collectParameters id (collect (.aug ⟨t, id⟩) wordBytes s) parameters).1 = _
    rw [ih, List.map_cons]
    exact List.append_assoc ..

theorem size_collectParameters (id : ExprId) {b : Bndg} {parameters : List Symbol} :
    ∀ s : Collected, (∃ t ∈ parameters, b = .aug ⟨t, id⟩) ∨ s.2.size b = wordBytes →
      (collectParameters id s parameters).2.size b = wordBytes := by
  induction parameters with
  | nil =>
    rintro s (⟨t, ht, _⟩ | h)
    · exact absurd ht List.not_mem_nil
    · exact h
  | cons t parameters ih =>
    intro s h
    apply ih
    by_cases hb : b = .aug ⟨t, id⟩
    · right
      rw [hb]
      exact Function.update_self ..
    · rcases h with ⟨t', ht', hbt⟩ | h
      · left
        refine ⟨t', (List.mem_cons.mp ht').resolve_left ?_, hbt⟩
        rintro rfl
        exact hb hbt
      · right
        exact (Function.update_of_ne hb _ _).trans h

theorem size_collectParameters_of_ne (id : ExprId) {b : Bndg} {parameters : List Symbol}
    (h : ∀ t ∈ parameters, b ≠ .aug ⟨t, id⟩) (s : Collected) :
    (collectParameters id s parameters).2.size b = s.2.size b := by
  induction parameters generalizing s with
  | nil => rfl
  | cons t parameters ih =>
    show (collectParameters id (collect (.aug ⟨t, id⟩) wordBytes s) parameters).2.size b = _
    rw [ih fun t ht => h t (List.mem_cons_of_mem _ ht)]
    exact Function.update_of_ne (h t List.mem_cons_self) _ _

theorem sameAt_collectParameters {id : ExprId} (hne : x ≠ id) (parameters : List Symbol)
    (s : Collected) : SameAt x s.2 (collectParameters id s parameters).2 := by
  induction parameters generalizing s with
  | nil => exact SameAt.refl x s.2
  | cons t parameters ih =>
    have hfirst : SameAt x s.2 (collect (.aug ⟨t, id⟩) wordBytes s).2 :=
      SameAt.setSize rfl hne wordBytes s.2
    exact hfirst.trans (ih _)

theorem laid_continuation {e : Expr} {id : ExprId} {reference : Symbol} {parameters : List Symbol}
    (he : e.isFunction = false) (hid : e.id = id) (hnodup : (reference :: parameters).Nodup)
    (hown : ownBindings escapes containsFlag e =
      bufferBindings escapes id reference parameters) (s : Collected) :
    Laid escapes containsFlag [e] (ownBindings escapes containsFlag e) s
      (layoutContinuation escapes id reference parameters s) := by
  have hreference : ∀ t ∈ parameters, Bndg.aug ⟨reference, id⟩ ≠ .aug ⟨t, id⟩ := by
    intro t ht heq
    have hsymbol : reference = t := congrArg BindingAug.symbol (Bndg.aug.inj heq)
    exact (List.nodup_cons.mp hnodup).1 (hsymbol ▸ ht)
  apply Laid.own he
  · rw [hown]
    unfold layoutContinuation bufferBindings
    dsimp only
    rw [collectParameters_list, List.map_append, List.map_map]
    split
    · exact List.append_assoc ..
    · rfl
  · rw [hown]
    intro bn hbn
    unfold layoutContinuation
    dsimp only
    rcases List.mem_append.mp hbn with hbn | hbn
    · split at hbn
      · next hescapes =>
        rw [List.mem_singleton.mp hbn, if_pos hescapes,
          size_collectParameters_of_ne id hreference]
        exact Function.update_self ..
      · exact absurd hbn List.not_mem_nil
    · obtain ⟨t, ht, rfl⟩ := List.mem_map.mp hbn
      exact size_collectParameters id _ (Or.inl ⟨t, ht, rfl⟩)
  · intro x hx
    rw [hid] at hx
    unfold layoutContinuation
    have hfirst : SameAt x s.2
        (if escapes id then collect (.aug ⟨reference, id⟩) contBytes s else s).2 := by
      split
      · exact SameAt.setSize rfl hx contBytes s.2
      · exact SameAt.refl x s.2
    exact hfirst.trans (sameAt_collectParameters hx parameters _)

theorem laid_tempStorage {e : Expr} {id : ExprId} {n : Nat} (he : e.isFunction = false)
    (hid : e.id = id)
    (hown : ownBindings escapes containsFlag e = argumentBindings containsFlag id n)
    (s : Collected) : Laid escapes containsFlag [e] (ownBindings escapes containsFlag e) s
      (layoutTempStorage containsFlag id n s) := by
  have howner : (Bndg.tempStorage id).owner = some id := rfl
  have hother : ∀ x, x ≠ id → SameAt x s.2 (s.2.setSize (.tempStorage id) (wordBytes * n)) :=
    fun x hx => SameAt.setSize howner hx _ _
  unfold layoutTempStorage
  unfold argumentBindings at hown
  dsimp only
  split
  · next hflag =>
    rw [if_pos hflag] at hown
    apply Laid.own he
    · rw [hown]
      rfl
    · rw [hown]
      intro bn hbn
      rw [List.mem_singleton.mp hbn]
      exact Function.update_self ..
    · exact fun x hx => hother x (hid ▸ hx)
  · next hflag =>
    rw [if_neg (by rw [hflag]; exact nofun)] at hown
    apply Laid.own he
    · rw [hown]
      exact (List.append_nil _).symm
    · rw [hown]
      exact fun bn hbn => absurd hbn List.not_mem_nil
    · exact fun x hx => (hother x (hid ▸ hx)).trans (SameAt.setType _ _ _)
  · next hflag =>
    rw [if_neg (by rw [hflag]; exact nofun)] at hown
    apply Laid.own he
    · rw [hown]
      exact (List.append_nil _).symm
    · rw [hown]
      exact fun bn hbn => absurd hbn List.not_mem_nil
    · intro x hx
      have hne : x ≠ id := hid ▸ hx
      exact ((hother x hne).trans (SameAt.setType _ _ _)).trans (SameAt.setOffset howner hne _ _)

/-! ### Functions -/

theorem parameterOffsets_eq (id : ExprId) (parameterOffset : Int) (st : Layout)
    (parameters : List Symbol) : parameterOffsets id parameterOffset st parameters =
      { st with
        offset := Ranges.layUp (fun _ => wordBytes) parameterOffset st.offset
          (parameters.map fun t => .aug ⟨t, id⟩) } := by
  induction parameters generalizing parameterOffset st with
  | nil => rfl
  | cons t parameters ih => exact ih _ _

/-- The loop over the reversed list begins with the last binding. -/
theorem bindingAugOffsets_reverse (st : Layout) (l rest : List Bndg) :
    bindingAugOffsets 0 st (l.reverse ++ rest) =
      bindingAugOffsets (Ranges.layDown st.paddedSize st.offset l).1
        { st with offset := (Ranges.layDown st.paddedSize st.offset l).2 } rest := by
  induction l generalizing rest with
  | nil => rfl
  | cons a l ih =>
    rw [List.reverse_cons, List.append_assoc, ih]
    rfl

theorem layoutFunction_eq (id : ExprId) (parameters : List Symbol) (s : Collected) :
    layoutFunction id parameters s = { s.2 with
      bindingAugs := Function.update s.2.bindingAugs id s.1
      offset := (Ranges.layDown s.2.paddedSize
        (Ranges.layUp (fun _ => wordBytes) (2 * wordBytes) s.2.offset
          (parameters.map fun t => .aug ⟨t, id⟩)) s.1).2 } := by
  unfold layoutFunction
  dsimp only
  rw [parameterOffsets_eq]
  have hreverse := bindingAugOffsets_reverse { s.2.setBindingAugs id s.1 with
    offset := Ranges.layUp (fun _ => wordBytes) (2 * wordBytes) s.2.offset
      (parameters.map fun t => .aug ⟨t, id⟩) } s.1 []
  rw [List.append_nil] at hreverse
  exact hreverse

/-- The first binding has the lowest offset. -/
theorem currentOffset_layDown {id : ExprId} {size : Bndg → Nat} {offset : Bndg → Int}
    {l : List Bndg} (hbndgs : st.bindingAugs id = l)
    (hoffset : st.offset = (Ranges.layDown size offset l).2) :
    currentOffset st id = (Ranges.layDown size offset l).1 := by
  unfold currentOffset
  rw [hbndgs, hoffset]
  cases l with
  | nil => rfl
  | cons b l => exact Function.update_self ..

theorem dvd_padSize (x : Nat) : wordBytes ∣ padSize x wordBytes := by
  unfold padSize
  dsimp only
  split
  · next h => exact Nat.dvd_of_mod_eq_zero h
  · show 8 ∣ x + (8 - x % 8)
    omega

/-- The frame of a function whose body has been laid out. -/
theorem frameOk_layoutFunction {id : ExprId} {parameters : List Symbol} {body : Expr}
    (hparameters : parameters.Nodup) {rest : List Bndg}
    (hnodup : ((frameBindings escapes containsFlag body).map Prod.fst).Nodup)
    (hlist : s.1 = (frameBindings escapes containsFlag body).map Prod.fst ++ rest)
    (hsizes : ∀ bn ∈ frameBindings escapes containsFlag body, s.2.size bn.1 = bn.2)
    (howner : ∀ b : Bndg, b.owner = some id → b ∉ s.1) :
    FrameOk escapes containsFlag (layoutFunction id parameters s) id parameters body := by
  rw [layoutFunction_eq]
  generalize hup : Ranges.layUp (fun _ => wordBytes) (2 * wordBytes : Int) s.2.offset
    (parameters.map fun t => Bndg.aug ⟨t, id⟩) = offset
  have hcurrent : currentOffset { s.2 with
      bindingAugs := Function.update s.2.bindingAugs id s.1
      offset := (Ranges.layDown s.2.paddedSize offset s.1).2 } id =
      (Ranges.layDown s.2.paddedSize offset s.1).1 :=
    currentOffset_layDown (Function.update_self ..) rfl
  refine ⟨?_, hsizes, ?_, ?_, ?_⟩
  · intro i hi
    have hinjective : (parameters.map fun t => Bndg.aug ⟨t, id⟩).Nodup := by
      apply hparameters.map
      intro t t' htt
      exact congrArg BindingAug.symbol (Bndg.aug.inj htt)
    have hplace : Ranges.Consecutive (fun _ => wordBytes)
        (Ranges.layUp (fun _ => wordBytes) (2 * wordBytes) s.2.offset _) (2 * wordBytes) _ :=
      Ranges.consecutive_layUp _ hinjective
    have hget := hplace.offset_get (fun _ _ => rfl) i (by rw [List.length_map]; exact hi)
    rw [hup] at hget
    show (Ranges.layDown _ offset s.1).2 _ = _
    rw [Ranges.layDown_of_notMem _ (howner _ rfl), ← hget]
    simp
  · rw [hcurrent, hlist]
    exact Ranges.consecutive_layDown _ hnodup rest
  · rw [hcurrent, hlist, Ranges.layDown_fst, Ranges.extent_append]
    show -((Ranges.extent s.2.paddedSize _ + Ranges.extent s.2.paddedSize rest : Nat) : Int) +
      Ranges.extent s.2.paddedSize _ ≤ 0
    omega
  · rw [hcurrent, Ranges.layDown_fst]
    apply Int.dvd_neg.mpr
    exact Int.natCast_dvd_natCast.mpr (Ranges.dvd_extent _ fun b _ => dvd_padSize _)

/-- Where nothing of an expression is in the list of a function, its fields stay. -/
theorem sameAt_layoutFunction {id : ExprId} (hne : x ≠ id) (parameters : List Symbol)
    (hx : ∀ b : Bndg, b.owner = some x → b ∉ s.1) :
    SameAt x s.2 (layoutFunction id parameters s) := by
  rw [layoutFunction_eq]
  refine ⟨fun _ _ => rfl, ?_, Function.update_of_ne hne _ _⟩
  intro b hb
  show (Ranges.layDown _ _ s.1).2 b = _
  rw [Ranges.layDown_of_notMem _ (hx b hb), Ranges.layUp_of_notMem]
  intro hmem
  obtain ⟨t, _, rfl⟩ := List.mem_map.mp hmem
  exact hne (Option.some.inj hb).symm

/-- The case of functions. -/
theorem laid_function {id : ExprId} {reference : Symbol} {parameters : List Symbol} {body : Expr}
    (hd : DistinctSymbols (visitExpressions (.function id reference parameters body)))
    {bndgs : List Bndg}
    (hrepeated : Repeated escapes containsFlag st (.function id reference parameters body))
    (h : Laid escapes containsFlag (visitExpressions body)
      (frameBindings escapes containsFlag body) (st.bindingAugs id, st) s') :
    Laid escapes containsFlag (visitExpressions (.function id reference parameters body)) []
      (bndgs, st) (bndgs, layoutFunction id parameters s') := by
  obtain ⟨k, hk⟩ := hrepeated
  have hbody : DistinctSymbols (visitExpressions body) := hd.sublist (List.sublist_append_left _ _)
  have hids := hd.ids
  rw [visitExpressions, List.map_append, List.nodup_append] at hids
  have hself : ∀ e ∈ visitExpressions body, e.id ≠ id := by
    intro e he hid
    exact hids.2.2 _ (List.mem_map_of_mem he) _ (List.mem_singleton.mpr rfl) hid
  have hsymbols := List.nodup_cons.mp
    (hd.symbols _ (List.mem_append_right _ (List.mem_singleton.mpr rfl)))
  -- the list begins with what has been collected now
  have hcopies : s'.1 = (List.replicate (k + 1)
      ((frameBindings escapes containsFlag body).map Prod.fst)).flatten := by
    rw [h.list, hk, List.replicate_succ', List.flatten_append, List.flatten_singleton]
  have hlist : s'.1 = (frameBindings escapes containsFlag body).map Prod.fst ++
      (List.replicate k ((frameBindings escapes containsFlag body).map Prod.fst)).flatten := by
    rw [hcopies, List.replicate_succ, List.flatten_cons]
  have howner : ∀ b ∈ s'.1,
      ∃ e ∈ frameExpressions body, e.isFunction = false ∧ b.owner = some e.id := by
    intro b hb
    rw [hlist] at hb
    rcases List.mem_append.mp hb with hb | hb
    · exact owner_frameBindings hb
    · exact owner_frameBindings (mem_of_repeated hb)
  have hnotMem : ∀ b : Bndg, ∀ x, b.owner = some x → (∀ e ∈ frameExpressions body,
      e.isFunction = false → e.id ≠ x) → b ∉ s'.1 := by
    intro b x hb hx hmem
    obtain ⟨e, he, hfun, hbe⟩ := howner b hmem
    exact hx e he hfun (Option.some.inj (hbe.symm.trans hb))
  have hvisited : ∀ e ∈ frameExpressions body, e ∈ visitExpressions body :=
    fun e he => (frameExpressions_sublist body).subset he
  refine ⟨fun _ hbn => absurd hbn List.not_mem_nil, (List.append_nil _).symm,
    fun _ hbn => absurd hbn List.not_mem_nil, ?_, ?_⟩
  · intro x hx
    rw [visitExpressions, List.map_append] at hx
    have hout : x ∉ (visitExpressions body).map Expr.id :=
      fun hin => hx (List.mem_append_left _ hin)
    have hne : x ≠ id := by
      rintro rfl
      exact hx (List.mem_append_right _ (List.mem_singleton.mpr rfl))
    apply (h.other x hout).trans
    apply sameAt_layoutFunction hne
    intro b hb
    apply hnotMem b x hb
    rintro e he _ rfl
    exact hout (List.mem_map_of_mem (hvisited e he))
  · intro f hf
    rcases List.mem_append.mp hf with hf | hf
    · -- what a function in the body has is not in the frame of this one
      obtain ⟨hr, hok⟩ := h.functions f hf
      have hbelow : f.isFunction = true → ∀ c ∈ visitExpressions f,
          SameAt c.id s'.2 (layoutFunction id parameters s') := by
        intro hfun c hc
        have hcb : c ∈ visitExpressions body := visitExpressions_subset body hf hc
        apply sameAt_layoutFunction (hself c hcb)
        intro b hb
        apply hnotMem b c.id hb
        intro e he hnot hid
        have hec : e = c := List.inj_on_of_nodup_map hbody.ids (hvisited e he) hcb hid
        have hef := (apart_frameExpressions body hbody.ids).apart f hf hfun c hc (hec ▸ he)
        rw [hec, hef, hfun] at hnot
        cases hnot
      cases hfun : f.isFunction with
      | false => exact functionOk_of_not hfun _
      | true =>
        exact ⟨hr.congr (hbelow hfun f (mem_visitExpressions_self f)),
          hok.congr hr (hbelow hfun)⟩
    · rw [List.mem_singleton.mp hf]
      refine ⟨⟨k + 1, ?_⟩, ?_⟩
      · rw [layoutFunction_eq]
        exact (Function.update_self ..).trans hcopies
      · apply frameOk_layoutFunction hsymbols.2 _ hlist h.sizes
        · intro b hb
          apply hnotMem b id hb
          exact fun e he _ => hself e (hvisited e he)
        · exact (hbody.sublist (frameExpressions_sublist body)).nodup_bindingsOf

/-! ### Whole expressions -/

theorem closed_append {es es' : List Expr} (h : Closed es) (h' : Closed es') :
    Closed (es ++ es') := by
  intro e he
  rcases List.mem_append.mp he with he | he
  · exact List.Subset.trans (h e he) (List.subset_append_left _ _)
  · exact List.Subset.trans (h' e he) (List.subset_append_right _ _)

theorem closed_visitExpressions (e : Expr) : Closed (visitExpressions e) :=
  fun _ he => visitExpressions_subset e he

theorem closed_visitArguments (es : List Expr) : Closed (visitArguments es) :=
  fun _ he => visitArguments_subset es he

theorem DistinctSymbols.left {es es' : List Expr} (h : DistinctSymbols (es ++ es')) :
    DistinctSymbols es := h.sublist (List.sublist_append_left es es')

theorem DistinctSymbols.right {es es' : List Expr} (h : DistinctSymbols (es ++ es')) :
    DistinctSymbols es' := h.sublist (List.sublist_append_right es es')

/-- Every one of the functions has been laid out a number of times. -/
def AllRepeated (escapes : ExprId → Bool) (containsFlag : ExprId → ContainsFlag) (st : Layout)
    (es : List Expr) : Prop := ∀ f ∈ es, Repeated escapes containsFlag st f

theorem AllRepeated.left {es es' : List Expr}
    (h : AllRepeated escapes containsFlag st (es ++ es')) :
    AllRepeated escapes containsFlag st es := fun f hf => h f (List.mem_append_left _ hf)

theorem AllRepeated.right {es es' : List Expr}
    (h : AllRepeated escapes containsFlag st (es ++ es')) :
    AllRepeated escapes containsFlag st es' := fun f hf => h f (List.mem_append_right _ hf)

/-- `Laid` for the part of a list that comes after another one. -/
theorem Laid.append {es es' frame frame' : List Expr} (hd : DistinctSymbols (es ++ es'))
    (hclosed : Closed es) (hr : AllRepeated escapes containsFlag s.2 (es ++ es'))
    (h : Laid escapes containsFlag es (bindingsOf escapes containsFlag frame) s s')
    (h' : AllRepeated escapes containsFlag s'.2 es' →
      Laid escapes containsFlag es' (bindingsOf escapes containsFlag frame') s' s'') :
    Laid escapes containsFlag (es ++ es') (bindingsOf escapes containsFlag (frame ++ frame')) s
      s'' := by
  rw [bindingsOf_append]
  exact Laid.trans hd.ids hclosed hr.right h h'

/-- `Laid` for an expression after what is below it. -/
theorem Laid.concat {es frame : List Expr} {e : Expr} (hd : DistinctSymbols (es ++ [e]))
    (hclosed : Closed es) (hr : AllRepeated escapes containsFlag s.2 (es ++ [e]))
    (h : Laid escapes containsFlag es (bindingsOf escapes containsFlag frame) s s')
    (h' : Laid escapes containsFlag [e] (ownBindings escapes containsFlag e) s' s'') :
    Laid escapes containsFlag (es ++ [e]) (bindingsOf escapes containsFlag (frame ++ [e])) s
      s'' := by
  apply Laid.append hd hclosed hr h
  intro _
  rw [bindingsOf_singleton]
  exact h'

mutual

theorem laid_layoutFrames : ∀ (e : Expr) (s : Collected), DistinctSymbols (visitExpressions e) →
    AllRepeated escapes containsFlag s.2 (visitExpressions e) →
    Laid escapes containsFlag (visitExpressions e) (frameBindings escapes containsFlag e) s
      (layoutFrames escapes containsFlag e s)
  | .ifExpr _ condition consequent alternate, s, hd, hr => by
    have hbranches := closed_append (closed_visitExpressions condition)
      (closed_visitExpressions consequent)
    apply Laid.concat hd (closed_append hbranches (closed_visitExpressions alternate)) hr
    · apply Laid.append hd.left hbranches hr.left
      · apply Laid.append hd.left.left (closed_visitExpressions condition) hr.left.left
        · exact laid_layoutFrames condition s hd.left.left.left hr.left.left.left
        · exact laid_layoutFrames consequent _ hd.left.left.right
      · exact laid_layoutFrames alternate _ hd.left.right
    · exact Laid.nothing rfl rfl _
  | .function _ _ _ expression, (_, st), hd, hr =>
    laid_function hd (hr _ (mem_visitExpressions_self _))
      (laid_layoutFrames expression _ hd.left hr.left)
  | .continuation id reference parameters expression, s, hd, hr => by
    apply Laid.concat hd (closed_visitExpressions expression) hr
      (laid_layoutFrames expression s hd.left hr.left)
    exact laid_continuation rfl rfl (hd.symbols _ (mem_visitExpressions_self _)) rfl _
  | .withExpr id reference parameter expression, s, hd, hr => by
    apply Laid.concat hd (closed_visitExpressions expression) hr
      (laid_layoutFrames expression s hd.left hr.left)
    exact laid_continuation rfl rfl (hd.symbols _ (mem_visitExpressions_self _)) rfl _
  | .constrain _ expression _, s, hd, hr => by
    apply Laid.concat hd (closed_visitExpressions expression) hr
      (laid_layoutFrames expression s hd.left hr.left)
    exact Laid.nothing rfl rfl _
  | .jump id reference arguments, s, hd, hr | .invoke id reference arguments, s, hd, hr => by
    apply Laid.concat hd (closed_append (closed_visitExpressions reference)
      (closed_visitArguments arguments)) hr
    · apply Laid.append hd.left (closed_visitExpressions reference) hr.left
      · exact laid_layoutFrames reference s hd.left.left hr.left.left
      · exact laid_layoutArguments arguments _ hd.left.right
    · exact laid_tempStorage rfl rfl rfl _
  | .storage id reference arguments, s, hd, hr => by
    apply Laid.concat hd (closed_visitArguments arguments) hr
      (laid_layoutArguments arguments s hd.left hr.left)
    exact laid_storage id reference arguments _
  | .literal _ _, s, _, _ | .symbol _ _ _, s, _, _ => Laid.nothing rfl rfl s

theorem laid_layoutArguments : ∀ (es : List Expr) (s : Collected),
    DistinctSymbols (visitArguments es) →
    AllRepeated escapes containsFlag s.2 (visitArguments es) →
    Laid escapes containsFlag (visitArguments es)
      (bindingsOf escapes containsFlag (frameArguments es)) s
      (layoutArguments escapes containsFlag es s)
  | [], s, _, _ =>
    ⟨fun _ hbn => absurd hbn List.not_mem_nil, (List.append_nil _).symm,
      fun _ hbn => absurd hbn List.not_mem_nil, fun x _ => SameAt.refl x s.2,
      fun _ hf => absurd hf List.not_mem_nil⟩
  | e :: es, s, hd, hr => by
    apply Laid.append hd (closed_visitExpressions e) hr
    · exact laid_layoutFrames e s hd.left hr.left
    · exact laid_layoutArguments es _ hd.right

end

/-! ## Frames -/

theorem visitArguments_eq_visited (es : List Expr) : visitArguments es = visited es := by
  induction es with
  | nil => rfl
  | cons e es ih =>
    show visitExpressions e ++ visitArguments es = _
    rw [ih]
    rfl

section

variable (escapes containsFlag)

/-- The functions are as `make_function` made them, or this same program has been compiled before,
perhaps more than once.  What a different program with functions of this one has left in them is
not considered. -/
inductive Compiled (exprs : List Expr) : Layout → Prop
  | made {st : Layout} (h : ∀ x, st.bindingAugs x = []) : Compiled exprs st
  | compiled {st : Layout} (h : Compiled exprs st) :
    Compiled exprs (layoutProgram escapes containsFlag exprs st).2

/-- The parameters of a continuation or a `with` expression are in a row, and come right after
the buffer if there is one. -/
def ParametersFollow (st : Layout) (id : ExprId) (reference : Symbol) (parameters : List Symbol) :
    Prop :=
  ∃ start, (escapes id = true → start = st.offset (.aug ⟨reference, id⟩) + contBytes) ∧
    ∀ i (hi : i < parameters.length),
      st.offset (.aug ⟨parameters.get ⟨i, hi⟩, id⟩) = start + wordBytes * i

def Contiguous (st : Layout) : Expr → Prop
  | .continuation id reference parameters _ => ParametersFollow escapes st id reference parameters
  | .withExpr id reference parameter _ => ParametersFollow escapes st id reference [parameter]
  | _ => True

/-- Bindings have their sizes, are at words, and no two of them overlap. -/
structure WordPlaced (st : Layout) (bns : List (Bndg × Nat)) : Prop where
  sizes : ∀ bn ∈ bns, st.size bn.1 = bn.2
  aligned : ∀ bn ∈ bns, (wordBytes : Int) ∣ st.offset bn.1
  disjoint : ∀ bn ∈ bns, ∀ bn' ∈ bns, bn.1 ≠ bn'.1 →
    st.offset bn.1 + bn.2 ≤ st.offset bn'.1 ∨ st.offset bn'.1 + bn'.2 ≤ st.offset bn.1

/-- What the generator reads, with the fields that have been written. -/
def Layout.analysis (st : Layout) (a : Analysis) : Analysis :=
  { a with
    type := st.type
    offset := fun bndg => BitVec.ofInt 64 (st.offset bndg)
    bindingAugs := st.bindingAugs }

/-- The frame of a function. -/
structure FunctionFrame (st : Layout) (id : ExprId) (parameters : List Symbol) (body : Expr) :
    Prop where
  parameters : ∀ i (hi : i < parameters.length),
    st.offset (.aug ⟨parameters.get ⟨i, hi⟩, id⟩) = 2 * wordBytes + wordBytes * i
  placed : WordPlaced st (frameBindings escapes containsFlag body)
  inside : ∀ bn ∈ frameBindings escapes containsFlag body,
    currentOffset st id ≤ st.offset bn.1 ∧ st.offset bn.1 + bn.2 ≤ 0
  contiguous : ∀ w ∈ frameExpressions body, Contiguous escapes st w
  prologue : ∀ a, (functionEntry (st.analysis a) id).getLast? =
    some (.subqImmToReg (BitVec.ofInt 64 (-currentOffset st id)) rsp)

end

theorem Compiled.allRepeated {exprs : List Expr} (hd : DistinctSymbols (visited exprs))
    (h : Compiled escapes containsFlag exprs st) :
    AllRepeated escapes containsFlag st (visitArguments exprs) := by
  induction h with
  | made h =>
    intro f _
    cases f with
    | function id reference parameters body => exact ⟨0, h id⟩
    | literal _ _ | symbol _ _ _ | storage _ _ _ | continuation _ _ _ _ | withExpr _ _ _ _
    | invoke _ _ _ | jump _ _ _ | ifExpr _ _ _ _ | constrain _ _ _ => exact True.intro
  | compiled _ ih =>
    rw [← visitArguments_eq_visited] at hd
    exact fun f hf => ((laid_layoutArguments exprs _ hd ih).functions f hf).1

theorem padSize_of_dvd {x nearest : Nat} (h : nearest ∣ x) : padSize x nearest = x := by
  unfold padSize
  rw [Nat.mod_eq_zero_of_dvd h]
  rfl

theorem dvd_ownBindings {e : Expr} {bn : Bndg × Nat}
    (h : bn ∈ ownBindings escapes containsFlag e) : wordBytes ∣ bn.2 := by
  have hcontinuation : ∀ id reference parameters,
      bn ∈ bufferBindings escapes id reference parameters → wordBytes ∣ bn.2 := by
    intro id reference parameters h
    rcases List.mem_append.mp h with h | h
    · split at h
      · rw [List.mem_singleton.mp h]
        exact Nat.dvd_mul_left wordBytes 7
      · exact absurd h List.not_mem_nil
    · obtain ⟨t, _, rfl⟩ := List.mem_map.mp h
      exact Nat.dvd_refl _
  have harguments : ∀ id n, bn ∈ argumentBindings containsFlag id n → wordBytes ∣ bn.2 := by
    intro id n h
    unfold argumentBindings at h
    split at h
    · rw [List.mem_singleton.mp h]
      exact Nat.dvd_mul_right _ _
    · exact absurd h List.not_mem_nil
  cases e with
  | storage id reference arguments =>
    rw [List.mem_singleton.mp h]
    exact Nat.dvd_mul_left _ _
  | continuation id reference parameters expression => exact hcontinuation _ _ _ h
  | withExpr id reference parameter expression => exact hcontinuation _ _ _ h
  | jump id reference arguments | invoke id reference arguments => exact harguments _ _ h
  | literal _ _ | symbol _ _ _ | function _ _ _ _ | ifExpr _ _ _ _ | constrain _ _ _ =>
    exact absurd h List.not_mem_nil

theorem paddedSize_eq {es : List Expr}
    (hsizes : ∀ bn ∈ bindingsOf escapes containsFlag es, st.size bn.1 = bn.2)
    {bn : Bndg × Nat} (h : bn ∈ bindingsOf escapes containsFlag es) :
    st.paddedSize bn.1 = bn.2 := by
  obtain ⟨e, _, hbn⟩ := List.mem_flatMap.mp h
  unfold Layout.paddedSize
  rw [hsizes bn h, padSize_of_dvd (dvd_ownBindings hbn)]

/-- Ranges in a row are places. -/
theorem placed_of_consecutive {es : List Expr} {start : Int} {l : List Bndg}
    (hstart : (wordBytes : Int) ∣ start)
    (hsizes : ∀ bn ∈ bindingsOf escapes containsFlag es, st.size bn.1 = bn.2)
    (hmem : ∀ b, b ∈ l ↔ b ∈ (bindingsOf escapes containsFlag es).map Prod.fst)
    (h : Ranges.Consecutive st.paddedSize st.offset start l) :
    WordPlaced st (bindingsOf escapes containsFlag es) := by
  have hin : ∀ bn ∈ bindingsOf escapes containsFlag es, bn.1 ∈ l :=
    fun bn hbn => (hmem bn.1).mpr (List.mem_map_of_mem hbn)
  refine ⟨hsizes, ?_, ?_⟩
  · intro bn hbn
    apply h.dvd_offset hstart _ (hin bn hbn)
    intro b hb
    obtain ⟨bn', hbn', rfl⟩ := List.mem_map.mp ((hmem b).mp hb)
    rw [paddedSize_eq hsizes hbn']
    obtain ⟨e, _, he⟩ := List.mem_flatMap.mp hbn'
    exact Int.natCast_dvd_natCast.mpr (dvd_ownBindings he)
  · intro bn hbn bn' hbn' hne
    have hdisjoint := h.disjoint (hin bn hbn) (hin bn' hbn') hne
    rw [paddedSize_eq hsizes hbn, paddedSize_eq hsizes hbn'] at hdisjoint
    exact hdisjoint

theorem parametersFollow_of_consecutive {id : ExprId} {reference : Symbol}
    {parameters : List Symbol} {start : Int}
    (hsizes : ∀ bn ∈ bufferBindings escapes id reference parameters,
      st.paddedSize bn.1 = bn.2)
    (h : Ranges.Consecutive st.paddedSize st.offset start
      ((bufferBindings escapes id reference parameters).map Prod.fst)) :
    ParametersFollow escapes st id reference parameters := by
  unfold bufferBindings at h hsizes
  rw [List.map_append, Ranges.consecutive_append] at h
  obtain ⟨hbuffer, hparameters⟩ := h
  refine ⟨start + (Ranges.extent st.paddedSize ((if escapes id then
    [(Bndg.aug ⟨reference, id⟩, contBytes)] else []).map Prod.fst) : Nat), ?_, ?_⟩
  rotate_left
  · intro i hi
    rw [List.map_map] at hparameters
    have hget := hparameters.offset_get (n := wordBytes) ?_ i (by rw [List.length_map]; exact hi)
    · rw [← hget]
      simp
    · intro b hb
      obtain ⟨t, ht, rfl⟩ := List.mem_map.mp hb
      exact hsizes (.aug ⟨t, id⟩, wordBytes)
        (List.mem_append_right _ (List.mem_map.mpr ⟨t, ht, rfl⟩))
  · intro hescapes
    rw [if_pos hescapes] at hbuffer hsizes ⊢
    have hoffset : st.offset (.aug ⟨reference, id⟩) = start := hbuffer.1
    have hsize := hsizes (.aug ⟨reference, id⟩, contBytes) List.mem_cons_self
    show start + (Ranges.extent st.paddedSize [.aug ⟨reference, id⟩] : Nat) = _
    rw [Ranges.extent_cons, Ranges.extent_nil, hsize, hoffset]
    rfl

theorem contiguous_of_consecutive {w : Expr} {start : Int}
    (hsizes : ∀ bn ∈ ownBindings escapes containsFlag w, st.paddedSize bn.1 = bn.2)
    (h : Ranges.Consecutive st.paddedSize st.offset start
      ((ownBindings escapes containsFlag w).map Prod.fst)) : Contiguous escapes st w := by
  cases w with
  | continuation id reference parameters expression =>
    exact parametersFollow_of_consecutive hsizes h
  | withExpr id reference parameter expression => exact parametersFollow_of_consecutive hsizes h
  | literal _ _ | symbol _ _ _ | storage _ _ _ | function _ _ _ _ | invoke _ _ _ | jump _ _ _
  | ifExpr _ _ _ _ | constrain _ _ _ => exact True.intro

/-- What an expression has stands together in the list. -/
theorem exists_split_bindingsOf {es : List Expr} {w : Expr} (hw : w ∈ es) :
    ∃ before after, bindingsOf escapes containsFlag es =
      before ++ (ownBindings escapes containsFlag w ++ after) := by
  obtain ⟨before, after, rfl⟩ := List.append_of_mem hw
  refine ⟨bindingsOf escapes containsFlag before, bindingsOf escapes containsFlag after, ?_⟩
  rw [bindingsOf_append, show w :: after = [w] ++ after from rfl, bindingsOf_append,
    bindingsOf_singleton]

theorem getCurrentOffset_analysis (st : Layout) (a : Analysis) (id : ExprId) :
    getCurrentOffset (st.analysis a) id = BitVec.ofInt 64 (currentOffset st id) := by
  unfold getCurrentOffset currentOffset
  show (((st.bindingAugs id).head?.map fun bndg => BitVec.ofInt 64 (st.offset bndg)).getD 0) = _
  cases (st.bindingAugs id).head? with
  | none => rfl
  | some bndg => rfl

theorem FrameOk.frame {id : ExprId} {parameters : List Symbol} {body : Expr}
    (h : FrameOk escapes containsFlag st id parameters body) :
    FunctionFrame escapes containsFlag st id parameters body := by
  have hpadded : ∀ bn ∈ frameBindings escapes containsFlag body, st.paddedSize bn.1 = bn.2 :=
    fun bn hbn => paddedSize_eq h.sizes hbn
  refine ⟨h.parameters, ?_, ?_, ?_, ?_⟩
  · exact placed_of_consecutive h.aligned h.sizes (fun _ => Iff.rfl) h.consecutive
  · intro bn hbn
    have hbounds := h.consecutive.bounds (List.mem_map_of_mem hbn)
    rw [hpadded bn hbn] at hbounds
    have hbelow := h.below
    omega
  · intro w hw
    obtain ⟨before, after, hsplit⟩ := exists_split_bindingsOf hw
    have hsplit : frameBindings escapes containsFlag body = _ := hsplit
    have hconsecutive := h.consecutive
    rw [hsplit, List.map_append, List.map_append, Ranges.consecutive_append,
      Ranges.consecutive_append] at hconsecutive
    apply contiguous_of_consecutive _ hconsecutive.2.1
    intro bn hbn
    apply hpadded
    rw [hsplit]
    exact List.mem_append_right _ (List.mem_append_left _ hbn)
  · intro a
    rw [BitVec.ofInt_neg, ← getCurrentOffset_analysis]
    rfl

/-! ## Static storage -/

theorem writeStatic_eq (p : Bndg → Bool) (bssPtr : Int) (st : Layout) (l : List Bndg) :
    writeStatic p bssPtr st l = (bssPtr + Ranges.extent st.paddedSize (l.filter p),
      { st with offset := Ranges.layUp st.paddedSize bssPtr st.offset (l.filter p) }) := by
  induction l generalizing bssPtr st with
  | nil =>
    show (bssPtr, st) = (bssPtr + (0 : Nat), _)
    rw [Int.natCast_zero, Int.add_zero]
    rfl
  | cons b l ih =>
    unfold writeStatic
    split
    · next hp =>
      have hptr : bssPtr + (st.paddedSize b + Ranges.extent st.paddedSize (l.filter p) : Nat) =
          bssPtr + st.paddedSize b + Ranges.extent st.paddedSize (l.filter p) := by omega
      rw [ih, List.filter_cons_of_pos hp, Ranges.extent_cons, hptr]
      rfl
    · next hp => rw [ih, List.filter_cons_of_neg hp]

/-- The static bindings in the order in which they get their offsets. -/
def inScopeOrder (globals l : List Bndg) : List Bndg :=
  l.filter (fun bndg => bndg ∉ globals) ++ l.filter (fun bndg => bndg ∈ globals)

theorem writeStatics_eq (globals : List Bndg) (s : Collected) : writeStatics globals s =
    { s.2 with
      offset := Ranges.layUp s.2.paddedSize 0 s.2.offset (inScopeOrder globals s.1) } := by
  unfold writeStatics inScopeOrder
  dsimp only
  rw [writeStatic_eq, writeStatic_eq, Ranges.layUp_append]
  rfl

theorem mem_inScopeOrder {globals l : List Bndg} {b : Bndg} :
    b ∈ inScopeOrder globals l ↔ b ∈ l := by
  unfold inScopeOrder
  rw [List.mem_append, List.mem_filter, List.mem_filter, ← and_or_left]
  constructor
  · exact fun h => h.1
  · intro h
    refine ⟨h, ?_⟩
    by_cases hb : b ∈ globals
    · exact Or.inr (decide_eq_true hb)
    · exact Or.inl (decide_eq_true hb)

theorem nodup_inScopeOrder {globals l : List Bndg} (h : l.Nodup) :
    (inScopeOrder globals l).Nodup := by
  apply List.nodup_append.mpr
  refine ⟨h.filter _, h.filter _, ?_⟩
  rintro b hb _ hb' rfl
  exact of_decide_eq_true (List.mem_filter.mp hb).2 (of_decide_eq_true (List.mem_filter.mp hb').2)

/-- What is global is of a function or a storage expression. -/
theorem owner_globalBindingAugs {exprs : List Expr} {b : Bndg}
    (h : b ∈ globalBindingAugs exprs) : ∃ e ∈ exprs, b.owner = some e.id ∧
      (∀ st, Contiguous escapes st e) := by
  obtain ⟨e, he, hb⟩ := List.mem_filterMap.mp h
  cases e with
  | function id reference _ _ | storage id reference _ =>
    cases hb
    exact ⟨_, he, rfl, fun _ => True.intro⟩
  | literal _ _ | symbol _ _ _ | continuation _ _ _ _ | withExpr _ _ _ _ | invoke _ _ _
  | jump _ _ _ | ifExpr _ _ _ _ | constrain _ _ _ => cases hb

/-- The list of static bindings. -/
structure StaticFrame (escapes : ExprId → Bool) (containsFlag : ExprId → ContainsFlag)
    (st : Layout) (exprs : List Expr) : Prop where
  placed : WordPlaced st (bindingsOf escapes containsFlag (frameArguments exprs))
  inside : ∀ bn ∈ bindingsOf escapes containsFlag (frameArguments exprs), 0 ≤ st.offset bn.1
  contiguous : ∀ w ∈ frameArguments exprs, Contiguous escapes st w

theorem staticFrame_writeStatics {exprs : List Expr} (hd : DistinctSymbols (visitArguments exprs))
    (hlist : s.1 = (bindingsOf escapes containsFlag (frameArguments exprs)).map Prod.fst)
    (hsizes : ∀ bn ∈ bindingsOf escapes containsFlag (frameArguments exprs),
      s.2.size bn.1 = bn.2) :
    StaticFrame escapes containsFlag (writeStatics (globalBindingAugs exprs) s) exprs := by
  have hnodup : s.1.Nodup := by
    rw [hlist]
    exact (hd.sublist (frameArguments_sublist exprs)).nodup_bindingsOf
  have hsize : (writeStatics (globalBindingAugs exprs) s).size = s.2.size := by
    rw [writeStatics_eq]
  have hrow : Ranges.Consecutive (writeStatics (globalBindingAugs exprs) s).paddedSize
      (writeStatics (globalBindingAugs exprs) s).offset 0
      (inScopeOrder (globalBindingAugs exprs) s.1) := by
    rw [writeStatics_eq]
    exact Ranges.consecutive_layUp _ (nodup_inScopeOrder hnodup)
  rw [← hsize] at hsizes
  generalize writeStatics (globalBindingAugs exprs) s = st' at hsizes hrow
  refine ⟨?_, ?_, ?_⟩
  · apply placed_of_consecutive (Int.dvd_zero _) hsizes _ hrow
    intro b
    rw [mem_inScopeOrder, hlist]
  · intro bn hbn
    refine (hrow.bounds ?_).1
    rw [mem_inScopeOrder, hlist]
    exact List.mem_map_of_mem hbn
  · intro w hw
    by_cases hall : ∀ st, Contiguous escapes st w
    · exact hall st'
    · obtain ⟨before, after, hsplit⟩ := @exists_split_bindingsOf escapes containsFlag _ _ hw
      have hlocal : ∀ b ∈ (ownBindings escapes containsFlag w).map Prod.fst,
          decide (b ∉ globalBindingAugs exprs) = true := by
        intro b hb
        apply decide_eq_true
        intro hglobal
        obtain ⟨bn, hbn, rfl⟩ := List.mem_map.mp hb
        obtain ⟨e, he, howner, hcontiguous⟩ := owner_globalBindingAugs hglobal
        rw [owner_ownBindings hbn] at howner
        have hev : e ∈ visitArguments exprs := by
          rw [visitArguments_eq_visited]
          exact List.mem_flatMap.mpr ⟨e, he, mem_visitExpressions_self e⟩
        have hwe : w = e := List.inj_on_of_nodup_map hd.ids
          ((frameArguments_sublist exprs).subset hw) hev (Option.some.inj howner)
        exact hall (hwe ▸ hcontiguous)
      unfold inScopeOrder at hrow
      rw [hlist, hsplit, List.map_append, List.map_append, List.filter_append,
        List.filter_append, List.filter_eq_self.mpr hlocal, Ranges.consecutive_append,
        Ranges.consecutive_append, Ranges.consecutive_append] at hrow
      apply contiguous_of_consecutive _ hrow.1.2.1
      intro bn hbn
      apply paddedSize_eq hsizes
      rw [hsplit]
      exact List.mem_append_right _ (List.mem_append_left _ hbn)

/-- When the bindings of a program have been laid out, every function in it has its frame,
and `write_elf` places the static bindings in the same way. -/
theorem layoutProgram_frames {exprs : List Expr} (hd : DistinctSymbols (visited exprs))
    (hst : Compiled escapes containsFlag exprs st) :
    (∀ id reference parameters body,
      .function id reference parameters body ∈ visited exprs →
      FunctionFrame escapes containsFlag (layoutProgram escapes containsFlag exprs st).2 id
        parameters
        body) ∧
    StaticFrame escapes containsFlag (writeStatics (globalBindingAugs exprs)
      (layoutProgram escapes containsFlag exprs st)) exprs := by
  have hrepeated := hst.allRepeated hd
  rw [← visitArguments_eq_visited] at hd ⊢
  have hlaid := laid_layoutArguments exprs ([], st) hd hrepeated
  refine ⟨?_, ?_⟩
  · intro id reference parameters body hf
    have hok : FrameOk _ _ _ id parameters body := (hlaid.functions _ hf).2
    exact hok.frame
  · exact staticFrame_writeStatics hd hlaid.list hlaid.sizes

/-- A function whose body is a `with` expression. -/
def withFunction : List Expr :=
  [.function 0 ⟨1, none⟩ [⟨2, none⟩] (.withExpr 3 ⟨4, none⟩ ⟨5, none⟩ (.literal 6 0))]

def madeLayout : Layout := ⟨fun _ => 0, fun _ => 0, fun _ => .frameRelativeStorage, fun _ => []⟩

theorem layoutProgram_frames_with :
    FunctionFrame (fun _ => true) (fun _ => .none)
      (layoutProgram (fun _ => true) (fun _ => .none) withFunction madeLayout).2 0 [⟨2, none⟩]
      (.withExpr 3 ⟨4, none⟩ ⟨5, none⟩ (.literal 6 0)) ∧
    currentOffset
      (layoutProgram (fun _ => true) (fun _ => .none) withFunction madeLayout).2 0 = -64 := by
  have hd : DistinctSymbols (visited withFunction) := ⟨by decide, by decide⟩
  have hmade : Compiled (fun _ => true) (fun _ => .none) withFunction madeLayout :=
    .made fun _ => rfl
  refine ⟨(layoutProgram_frames hd hmade).1 0 ⟨1, none⟩ [⟨2, none⟩] _ ?_, by decide⟩
  exact List.mem_append_left _ (mem_visitExpressions_self _)

end L2.Bootstrap
