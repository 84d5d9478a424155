import L2.SelfHost.InitializerSteps

/-!
# Which expressions share a binding

The initializers let an expression have the binding of another one, and put a binding in
the place of another one in a whole body.  What they take is always at home: the binding
for the value of an expression is still the one that the expression has, and a parameter
is still among those of its construct.  Inside of an expression that has not been come to,
nothing has been shared.
-/

namespace L2.SelfHost

open Scope (Binding)
open Graph

def Code.isSymbol : Code → Bool
  | .symbol _ _ => true
  | _ => false

/-- The binding `b` is what the symbol `v` refers to, or a parameter of the construct `v`. -/
def Refers (st : Store) (b : BndgId) (v : Code) : Prop :=
  (v.isSymbol = true ∧ st.symbolReference v.id = b) ∨ b ∈ st.parameters v.id

/-- The binding `b` is one that `v` has. -/
def Uses (st : Store) (b : BndgId) (v : Code) : Prop := st.aug v = b ∨ Refers st b v

/-- The binding belongs to something at or below `n`. -/
def Owned (n : Code) (b : BndgId) : Prop := ∃ c ∈ n.nodes, b.expression = some c.id

/-- The owner of the binding still has it. -/
def Home (p : Program) (st : Store) (b : BndgId) : Prop :=
  ∀ o ∈ p.nodes, b.expression = some o.id →
    if b = .value o.id then st.aug o = b else b ∈ st.parameters o.id

/-- Every binding of a value that something has is at home. -/
def Live (p : Program) (st : Store) : Prop :=
  ∀ v ∈ p.nodes, ∀ b, b.mode = .value → Uses st b v → Home p st b

/-- The binding for the value of `u` is that of no other expression. -/
def Fresh (p : Program) (st : Store) (u : Code) : Prop :=
  ∀ v ∈ p.nodes, (st.aug v = .value u.id → v = u) ∧ ¬ Refers st (.value u.id) v

/-- Nothing inside of `n` has been come to. -/
structure Pristine (n : Code) (st : Store) : Prop where
  aug : ∀ v ∈ n.inside, st.aug v = .value v.id
  parameters : ∀ v ∈ n.nodes, ∀ b ∈ st.parameters v.id, b ∈ v.parameters ∨ ¬ Owned n b
  reference : ∀ m b, .symbol m b ∈ n.nodes →
    st.symbolReference m = .named b ∨ ¬ Owned n (st.symbolReference m)
  generator : ∀ v ∈ n.nodes, st.generator v.id = none
  preferred : ∀ v ∈ n.inside, ∀ reg, (st.bndg (.value v.id)).preferred ≠ .register reg

variable {p : Program} {n u v w : Code} {b : BndgId} {l : List Code} {st st' : Store}

theorem Owned.mono (h : Owned v b) (hv : v ∈ n.nodes) : Owned n b := by
  obtain ⟨c, hc, hb⟩ := h
  exact ⟨c, Forest.nodes_subset hv hc, hb⟩

theorem owned_value (n : Code) : Owned n (.value n.id) := ⟨n, Forest.mem_nodes_self n, rfl⟩

theorem Code.eq_symbol (h : v.isSymbol = true) : ∃ m binding, v = .symbol m binding := by
  cases v with
  | symbol m binding => exact ⟨m, binding, rfl⟩
  | literal _ _ | storage _ _ _ | function _ _ _ _ | continuation _ _ _ _ | withExpr _ _ _
  | invoke _ _ _ | jump _ _ _ | ifExpr _ _ _ _ | constrain _ _ => cases h

theorem value_notMem_parameters (m : NodeId) (w : Code) : .value m ∉ w.parameters := by
  intro h
  obtain ⟨binding, hb, _⟩ := Code.mem_parameters h
  cases hb

/-! ## Who has the bindings of a subtree -/

/-- Whatever has a binding may use it, or has it for a parameter of its own. -/
theorem Scoped.usable (hs : Scoped p st) (hv : v ∈ p.nodes) (hmode : b.mode = .value)
    (hu : Uses st b v) : p.Usable b v ∨ b ∈ v.parameters := by
  rcases hu with rfl | ⟨hsym, rfl⟩ | hu
  · exact Or.inl (hs.aug v hv)
  · obtain ⟨m, binding, rfl⟩ := Code.eq_symbol hsym
    exact Or.inl (hs.reference m binding hv hmode)
  · exact (hs.parameters v hv b hu).symm

/-- A binding that belongs to something in a subtree is had in the subtree only. -/
theorem Scoped.uses_mem (hp : p.WellFormed) (hs : Scoped p st) (hn : n ∈ p.nodes)
    (hdirect : ¬ p.IsDirect n) (hv : v ∈ p.nodes) (hmode : b.mode = .value) (hu : Uses st b v)
    (hb : Owned n b) : v ∈ n.nodes := by
  obtain ⟨c, hc, hbc⟩ := hb
  rcases hs.usable hv hmode hu with h | h
  · exact h.mem hn hdirect hc hbc
  · obtain ⟨_, _, _, hbv⟩ := Code.mem_parameters h
    have hcv : c = v := hp.eq_of_id (Program.mem_of_mem_nodes hn hc) hv
      (Option.some.inj (hbc.symm.trans hbv))
    exact hcv ▸ hc

/-- The root of a subtree only has what belongs to itself. -/
theorem Scoped.uses_root (hs : Scoped p st) (hn : n ∈ p.nodes) (hdirect : ¬ p.IsDirect n)
    (hmode : b.mode = .value) (hu : Uses st b n) (hb : Owned n b) :
    b = .value n.id ∨ b ∈ n.parameters := by
  obtain ⟨c, hc, hbc⟩ := hb
  rcases hs.usable hn hmode hu with h | h
  · exact Or.inl (h.eq_value hn hdirect hc hbc)
  · exact Or.inr h

/-- What something in `n` refers to belongs to itself, or not to anything in `n`. -/
theorem Pristine.refers (hr : Pristine n st) (hv : v ∈ n.nodes) (hu : Refers st b v) :
    (∃ m binding, v = .symbol m binding ∧ b = .named binding) ∨ b ∈ v.parameters ∨
      ¬ Owned n b := by
  rcases hu with ⟨hsym, rfl⟩ | hu
  · obtain ⟨m, binding, rfl⟩ := Code.eq_symbol hsym
    rcases hr.reference m binding hv with h | h
    · exact Or.inl ⟨m, binding, rfl, h⟩
    · exact Or.inr (Or.inr h)
  · exact Or.inr (hr.parameters v hv b hu)

theorem Pristine.fresh (hp : p.WellFormed) (hs : Scoped p st) (hn : n ∈ p.nodes)
    (hdirect : ¬ p.IsDirect n) (hr : Pristine n st) (hu : u ∈ n.inside) : Fresh p st u := by
  intro v hv
  have hb : Owned n (.value u.id) := (owned_value u).mono (Code.inside_subset hu)
  have hid : ∀ x ∈ p.nodes, BndgId.value x.id = .value u.id → x = u := by
    intro x hx h
    exact hp.eq_of_id hx (Program.mem_of_inside hn hu) (BndgId.value.inj h)
  have hmem : Uses st (.value u.id) v → v ∈ n.nodes :=
    fun huse => hs.uses_mem hp hn hdirect hv rfl huse hb
  constructor
  · intro haug
    rcases Code.mem_nodes_iff.mp (hmem (Or.inl haug)) with hvin | rfl
    · exact hid v hv ((hr.aug v hvin).symm.trans haug)
    · rcases hs.uses_root hn hdirect rfl (Or.inl haug) hb with h | h
      · exact hid v hv h.symm
      · exact absurd h (value_notMem_parameters _ _)
  · intro href
    rcases hr.refers (hmem (Or.inr href)) href with ⟨_, _, _, h⟩ | h | h
    · cases h
    · exact absurd h (value_notMem_parameters _ _)
    · exact absurd hb h

/-- What an expression has belongs to nothing below it. -/
theorem Scoped.not_owned_below (hp : p.WellFormed) (hs : Scoped p st) (hn : n ∈ p.nodes)
    (hdirect : ¬ p.IsDirect n) (hmode : b.mode = .value) (hu : Uses st b n)
    (hv : v ∈ n.inside) : ¬ Owned v b := by
  intro hb
  have hexp : b.expression = some n.id := by
    rcases hs.uses_root hn hdirect hmode hu (hb.mono (Code.inside_subset hv)) with rfl | h
    · rfl
    · obtain ⟨_, _, _, h⟩ := Code.mem_parameters h
      exact h
  obtain ⟨c, hc, hbc⟩ := hb
  have hnc : n = c := hp.eq_of_id hn (Program.mem_of_mem_nodes (Program.mem_of_inside hn hv) hc)
    (Option.some.inj (hexp.symm.trans hbc))
  exact Forest.notMem_below hv (hnc ▸ hc)

theorem Pristine.mono (hr : Pristine n st) (hv : v ∈ n.nodes) : Pristine v st where
  aug x hx := hr.aug x (Forest.inside_of_mem hv hx)
  parameters x hx b hb := by
    rcases hr.parameters x (Forest.nodes_subset hv hx) b hb with h | h
    · exact Or.inl h
    · exact Or.inr fun hb => h (hb.mono hv)
  reference m b hm := by
    rcases hr.reference m b (Forest.nodes_subset hv hm) with h | h
    · exact Or.inl h
    · exact Or.inr fun hb => h (hb.mono hv)
  generator x hx := hr.generator x (Forest.nodes_subset hv hx)
  preferred x hx := hr.preferred x (Forest.inside_of_mem hv hx)

theorem Pristine.congr (hr : Pristine n st) (haug : ∀ v ∈ n.inside, st'.aug v = st.aug v)
    (hparams : ∀ v ∈ n.nodes, st'.parameters v.id = st.parameters v.id)
    (href : ∀ v ∈ n.nodes, st'.symbolReference v.id = st.symbolReference v.id)
    (hgen : ∀ v ∈ n.nodes, st'.generator v.id = st.generator v.id)
    (hpref : ∀ v ∈ n.inside,
      (st'.bndg (.value v.id)).preferred = (st.bndg (.value v.id)).preferred) :
    Pristine n st' where
  aug v hv := (haug v hv).trans (hr.aug v hv)
  parameters v hv b hb := hr.parameters v hv b (hparams v hv ▸ hb)
  reference m b hm := by
    have h := href _ hm
    have h : st'.symbolReference m = st.symbolReference m := h
    rw [h]
    exact hr.reference m b hm
  generator v hv := (hgen v hv).trans (hr.generator v hv)
  preferred v hv reg := by
    rw [hpref v hv]
    exact hr.preferred v hv reg

/-! ## Giving an expression another binding -/

theorem aug_setBindingAug (st : Store) (u : Code) (b : BndgId) :
    (st.setBindingAug u.id b).aug u = b := Function.update_self ..

theorem aug_setBindingAug_of_ne (h : n.id ≠ u.id) (st : Store) (b : BndgId) :
    (st.setBindingAug u.id b).aug n = st.aug n := Function.update_of_ne h _ _

/-- Only `u` has something else than before. -/
theorem uses_setBindingAug (hp : p.WellFormed) (hu : u ∈ p.nodes) (hv : v ∈ p.nodes)
    {b' : BndgId} (h : Uses (st.setBindingAug u.id b) b' v) :
    (v = u ∧ b' = b) ∨ Uses st b' v := by
  rcases h with h | h
  · by_cases hid : v.id = u.id
    · have hvu : v = u := hp.eq_of_id hv hu hid
      subst hvu
      rw [aug_setBindingAug] at h
      exact Or.inl ⟨rfl, h.symm⟩
    · rw [aug_setBindingAug_of_ne hid] at h
      exact Or.inr (Or.inl h)
  · exact Or.inr (Or.inr h)

theorem Fresh.setBindingAug (hp : p.WellFormed) (hu : u ∈ p.nodes) (hw : Fresh p st w)
    (hne : b ≠ .value w.id) : Fresh p (st.setBindingAug u.id b) w := by
  intro v hv
  refine ⟨?_, (hw v hv).2⟩
  intro h
  by_cases hid : v.id = u.id
  · have hvu : v = u := hp.eq_of_id hv hu hid
    subst hvu
    rw [aug_setBindingAug] at h
    exact absurd h hne
  · rw [aug_setBindingAug_of_ne hid] at h
    exact (hw v hv).1 h

theorem Live.setBindingAug (hp : p.WellFormed) (hl : Live p st) (hu : u ∈ p.nodes)
    (hfresh : Fresh p st u) (hb : Home p st b) : Live p (st.setBindingAug u.id b) := by
  intro v hv b' hmode huse o ho hbo
  have h : if b' = .value o.id then st.aug o = b' else b' ∈ st.parameters o.id := by
    rcases uses_setBindingAug hp hu hv huse with ⟨_, rfl⟩ | h
    · exact hb o ho hbo
    · exact hl v hv b' hmode h o ho hbo
  split
  · next hval =>
    rw [if_pos hval] at h
    by_cases hid : o.id = u.id
    · have hou : o = u := hp.eq_of_id ho hu hid
      subst hou hval
      -- only `o` itself could still have the binding for its own value
      rcases huse with haug | href
      · by_cases hid : v.id = o.id
        · have hvo : v = o := hp.eq_of_id hv ho hid
          exact hvo ▸ haug
        · rw [aug_setBindingAug_of_ne hid] at haug
          exact absurd (congrArg Code.id ((hfresh v hv).1 haug)) hid
      · exact absurd href (hfresh v hv).2
    · rw [aug_setBindingAug_of_ne hid]
      exact h
  · next hval =>
    rw [if_neg hval] at h
    exact h

theorem Home.setBindingAug (hb : Home p st b) (hne : b ≠ .value u.id) (b' : BndgId) :
    Home p (st.setBindingAug u.id b') b := by
  intro o ho hbo
  have h := hb o ho hbo
  split
  · next hval =>
    rw [if_pos hval] at h
    have hid : o.id ≠ u.id := fun hid => hne (hid ▸ hval)
    rw [aug_setBindingAug_of_ne hid]
    exact h
  · next hval =>
    rw [if_neg hval] at h
    exact h

/-- The bindings are at home, and nothing inside of `n` has been given another one but what
can be told from outside. -/
structure Open (p : Program) (n : Code) (st : Store) : Prop where
  live : Live p st
  fresh : ∀ u ∈ n.inside, Fresh p st u

theorem Open.aug_ne (ho : Open p n st) (hn : n ∈ p.nodes) (hu : u ∈ n.inside) :
    st.aug n ≠ .value u.id := by
  intro h
  exact Forest.ne_of_below hu ((ho.fresh u hu n hn).1 h).symm

theorem Open.ne_of_refers (ho : Open p n st) (hv : v ∈ p.nodes) (h : Refers st b v)
    (hu : u ∈ n.inside) : b ≠ .value u.id := by
  rintro rfl
  exact (ho.fresh u hu v hv).2 h

theorem Open.setBindingAug (hp : p.WellFormed) (ho : Open p n st) (hn : n ∈ p.nodes)
    (hu : u ∈ n.inside) (hb : Home p st b) (hne : ∀ x ∈ n.inside, b ≠ .value x.id) :
    Open p n (st.setBindingAug u.id b) := by
  have hup : u ∈ p.nodes := Program.mem_of_inside hn hu
  refine ⟨ho.live.setBindingAug hp hup (ho.fresh u hu) hb, ?_⟩
  intro x hx
  exact (ho.fresh x hx).setBindingAug hp hup (hne x hx)

theorem Open.setBindingAugs (hp : p.WellFormed) (ho : Open p n st) (hn : n ∈ p.nodes)
    {us : List Code} (hus : ∀ u ∈ us, u ∈ n.inside) {bs : List BndgId}
    (hbs : ∀ b ∈ bs, Home p st b ∧ ∀ x ∈ n.inside, b ≠ .value x.id) :
    Open p n (setBindingAugs st us bs) := by
  induction us generalizing bs st with
  | nil => exact ho
  | cons u us ih =>
    cases bs with
    | nil => exact ho
    | cons b bs =>
      have hu := hus u List.mem_cons_self
      have hb := hbs b List.mem_cons_self
      apply ih (ho.setBindingAug hp hn hu hb.1 hb.2) (fun x hx => hus x (List.mem_cons_of_mem _ hx))
      intro b' hb'
      have h := hbs b' (List.mem_cons_of_mem _ hb')
      exact ⟨h.1.setBindingAug (h.2 u hu) b, h.2⟩

theorem Open.coalesceExprBndg (hp : p.WellFormed) (ho : Open p n st) (hn : n ∈ p.nodes)
    (hu : u ∈ n.inside) : Open p n (coalesceExprBndg st u) := by
  unfold SelfHost.coalesceExprBndg
  split
  · next m binding =>
    split
    · next hmode =>
      have hm : Code.symbol m binding ∈ p.nodes := Program.mem_of_inside hn hu
      have href : Refers st (st.symbolReference m) (.symbol m binding) := Or.inl ⟨rfl, rfl⟩
      apply ho.setBindingAug (u := .symbol m binding) hp hn hu
      · exact ho.live _ hm _ hmode (Or.inr href)
      · exact fun x hx => ho.ne_of_refers hm href hx
    · exact ho
  · exact ho

/-! ## Giving a construct other parameters -/

theorem uses_setParameters (hp : p.WellFormed) (hw : w ∈ p.nodes) (hv : v ∈ p.nodes)
    {bs : List BndgId} (h : Uses (st.setParameters w.id bs) b v) :
    (v = w ∧ b ∈ bs) ∨ Uses st b v := by
  rcases h with h | h | h
  · exact Or.inr (Or.inl h)
  · exact Or.inr (Or.inr (Or.inl h))
  · have h : b ∈ Function.update st.parameters w.id bs v.id := h
    by_cases hid : v.id = w.id
    · rw [hid, Function.update_self] at h
      exact Or.inl ⟨hp.eq_of_id hv hw hid, h⟩
    · rw [Function.update_of_ne hid] at h
      exact Or.inr (Or.inr (Or.inr h))

/-- The parameters that are no longer there must have been had by nothing else. -/
theorem Live.setParameters (hp : p.WellFormed) (hl : Live p st) (hw : w ∈ p.nodes)
    {bs : List BndgId} (hbs : ∀ b ∈ bs, Home p st b)
    (hgone : ∀ b, b.mode = .value → b.expression = some w.id → b ≠ .value w.id → b ∉ bs →
      ∀ v ∈ p.nodes, ¬ Uses (st.setParameters w.id bs) b v) :
    Live p (st.setParameters w.id bs) := by
  intro v hv b hmode huse o ho hbo
  have h : if b = .value o.id then st.aug o = b else b ∈ st.parameters o.id := by
    rcases uses_setParameters hp hw hv huse with ⟨_, hb⟩ | h
    · exact hbs b hb o ho hbo
    · exact hl v hv b hmode h o ho hbo
  split
  · next hval =>
    rw [if_pos hval] at h
    exact h
  · next hval =>
    rw [if_neg hval] at h
    show b ∈ Function.update st.parameters w.id bs o.id
    by_cases hid : o.id = w.id
    · rw [hid, Function.update_self]
      by_contra hb
      exact hgone b hmode (hid ▸ hbo) (hid ▸ hval) hb v hv huse
    · rw [Function.update_of_ne hid]
      exact h

/-! ## Putting a binding in the place of another -/

/-- What `vreplace-value-bindings` does to a binding. -/
def replaceBndg (replTarget replacement b : BndgId) : BndgId :=
  if b = replTarget then replacement else b

theorem replaceBndg_replacement (t r : BndgId) : replaceBndg t r r = r := ite_self r

theorem replaceBndg_of_ne {t r b : BndgId} (h : b ≠ t) : replaceBndg t r b = b := if_neg h

/-- The bindings that `v` has are those that it had, after `f`. -/
structure Mapped (f : BndgId → BndgId) (st st' : Store) (v : Code) : Prop where
  aug : st'.aug v = f (st.aug v)
  parameters : st'.parameters v.id = (st.parameters v.id).map f
  reference : v.isSymbol = true → st'.symbolReference v.id = f (st.symbolReference v.id)

theorem Mapped.refl (st : Store) (v : Code) : Mapped id st st v :=
  ⟨rfl, (List.map_id _).symm, fun _ => rfl⟩

theorem Mapped.then_fields {f : BndgId → BndgId} {st'' : Store} (h : Mapped f st st' v)
    (h' : Mapped id st' st'' v) : Mapped f st st'' v := by
  refine ⟨h'.aug.trans h.aug, ?_, fun hsym => (h'.reference hsym).trans (h.reference hsym)⟩
  rw [h'.parameters, List.map_id]
  exact h.parameters

theorem Mapped.fields_then {f : BndgId → BndgId} {st'' : Store} (h : Mapped id st st' v)
    (h' : Mapped f st' st'' v) : Mapped f st st'' v := by
  refine ⟨?_, ?_, ?_⟩
  · rw [h'.aug, h.aug]
    rfl
  · rw [h'.parameters, h.parameters, List.map_id]
  · intro hsym
    rw [h'.reference hsym, h.reference hsym]
    rfl

theorem Mapped.uses {f : BndgId → BndgId} (h : Mapped f st st' v) (hu : Uses st' b v) :
    ∃ b₀, Uses st b₀ v ∧ b = f b₀ := by
  rcases hu with hu | ⟨hsym, hu⟩ | hu
  · exact ⟨st.aug v, Or.inl rfl, hu.symm.trans h.aug⟩
  · exact ⟨_, Or.inr (Or.inl ⟨hsym, rfl⟩), hu.symm.trans (h.reference hsym)⟩
  · rw [h.parameters] at hu
    obtain ⟨b₀, hb₀, hf⟩ := List.mem_map.mp hu
    exact ⟨b₀, Or.inr (Or.inr hb₀), hf.symm⟩

theorem mapped_vreplace (hs : Scoped p st) (hw : w ∈ p.nodes) (t r : BndgId) :
    Mapped (replaceBndg t r) st (vreplaceValueBindings t r st w) w := by
  have haug : (if st.aug w = t then st.setBindingAug w.id r else st).aug w =
      replaceBndg t r (st.aug w) := by
    unfold replaceBndg
    split
    · exact aug_setBindingAug st w r
    · rfl
  have hparams : (if st.aug w = t then st.setBindingAug w.id r else st).parameters =
      st.parameters := by
    split
    · rfl
    · rfl
  have href : (if st.aug w = t then st.setBindingAug w.id r else st).symbolReference =
      st.symbolReference := by
    split
    · rfl
    · rfl
  unfold vreplaceValueBindings
  generalize (if st.aug w = t then st.setBindingAug w.id r else st) = st₁ at *
  have hnil : w.parameters = [] → (st.parameters w.id).map (replaceBndg t r) =
    st.parameters w.id := by
    intro h
    have hlen := hs.arity w hw
    rw [h] at hlen
    rw [List.eq_nil_of_length_eq_zero hlen]
    rfl
  cases w with
  | continuation m _ _ _ | withExpr m _ _ | function m _ _ _ =>
    refine ⟨haug, ?_, fun h => by cases h⟩
    show Function.update st₁.parameters m _ m = _
    rw [Function.update_self, hparams]
    rfl
  | symbol m binding =>
    dsimp only
    split
    · next h =>
      refine ⟨haug, ?_, fun _ => ?_⟩
      · rw [hnil rfl]
        exact congrFun hparams m
      · show Function.update st₁.symbolReference m r m = replaceBndg t r (st.symbolReference m)
        rw [Function.update_self, ← href, h]
        exact (if_pos rfl).symm
    · next h =>
      refine ⟨haug, ?_, fun _ => ?_⟩
      · rw [hnil rfl]
        exact congrFun hparams m
      · show st₁.symbolReference m = replaceBndg t r (st.symbolReference m)
        rw [← href]
        exact (replaceBndg_of_ne h).symm
  | literal _ _ | storage _ _ _ | invoke _ _ _ | jump _ _ _ | ifExpr _ _ _ _ | constrain _ _ =>
    refine ⟨haug, ?_, fun h => by cases h⟩
    rw [hnil rfl]
    exact congrFun hparams _

theorem mapped_vreplace_of_ne (h : v.id ≠ w.id) (t r : BndgId) (st : Store) :
    Mapped id st (vreplaceValueBindings t r st w) v := by
  have hfirst : Mapped id st (if st.aug w = t then st.setBindingAug w.id r else st) v := by
    split
    · exact ⟨aug_setBindingAug_of_ne h st r, (List.map_id _).symm, fun _ => rfl⟩
    · exact Mapped.refl st v
  unfold vreplaceValueBindings
  generalize (if st.aug w = t then st.setBindingAug w.id r else st) = st₁ at *
  apply hfirst.fields_then
  cases w with
  | continuation m _ _ _ | withExpr m _ _ | function m _ _ _ =>
    refine ⟨rfl, ?_, fun _ => rfl⟩
    rw [List.map_id]
    exact Function.update_of_ne h _ _
  | symbol m binding =>
    dsimp only
    split
    · exact ⟨rfl, (List.map_id _).symm, fun _ => Function.update_of_ne h _ _⟩
    · exact Mapped.refl st₁ v
  | literal _ _ | storage _ _ _ | invoke _ _ _ | jump _ _ _ | ifExpr _ _ _ _ | constrain _ _ =>
    exact Mapped.refl st₁ v

theorem mapped_foldl_of_notMem (h : ∀ w ∈ l, v.id ≠ w.id) (t r : BndgId) (st : Store) :
    Mapped id st (l.foldl (vreplaceValueBindings t r) st) v := by
  induction l generalizing st with
  | nil => exact Mapped.refl st v
  | cons w l ih =>
    exact (mapped_vreplace_of_ne (h w List.mem_cons_self) t r st).fields_then
      (ih (fun x hx => h x (List.mem_cons_of_mem _ hx)) _)

/-- Everything in the list has the replacement, once it is in the list once. -/
theorem mapped_foldl (hp : p.WellFormed) (hs : Scoped p st) (hlp : l ⊆ p.nodes) (hl : l.Nodup)
    {t r : BndgId} (hu : ∀ v ∈ l, p.Usable r v) (hv : v ∈ l) :
    Mapped (replaceBndg t r) st (l.foldl (vreplaceValueBindings t r) st) v := by
  induction l generalizing st with
  | nil => cases hv
  | cons w l ih =>
    have hw : w ∈ p.nodes := hlp List.mem_cons_self
    have hne : ∀ x ∈ l, w.id ≠ x.id := by
      intro x hx hid
      have hwx : w = x := hp.eq_of_id hw (hlp (List.mem_cons_of_mem _ hx)) hid
      exact (List.nodup_cons.mp hl).1 (hwx ▸ hx)
    rcases List.mem_cons.mp hv with rfl | hv
    · exact (mapped_vreplace hs hw t r).then_fields (mapped_foldl_of_notMem hne t r _)
    · have hstep : Step p w st (vreplaceValueBindings t r st w) :=
        step_vreplaceValueBindings hp hs (Forest.mem_nodes_self w) hw (hu w List.mem_cons_self) t
      apply Mapped.fields_then (mapped_vreplace_of_ne (Ne.symm (hne v hv)) t r st)
      exact ih (hstep.inv hs) (fun x hx => hlp (List.mem_cons_of_mem _ hx))
        (List.nodup_cons.mp hl).2 (fun x hx => hu x (List.mem_cons_of_mem _ hx)) hv

/-- Where everything that has a binding gets another one in its place, what is left is at
home if that is. -/
theorem Live.replace (hl : Live p st) {t r : BndgId} (hr : Home p st r)
    {l : List Code} (hin : ∀ v ∈ l, Mapped (replaceBndg t r) st st' v)
    (hout : ∀ v ∈ p.nodes, v ∉ l → Mapped id st st' v)
    (ht : ∀ v ∈ p.nodes, Uses st t v → v ∈ l) : Live p st' := by
  intro v hv b hmode huse
  -- what is left is not replaced any more
  have hleft : Home p st b ∧ replaceBndg t r b = b := by
    by_cases hvl : v ∈ l
    · obtain ⟨b₀, hb₀, rfl⟩ := (hin v hvl).uses huse
      by_cases h : b₀ = t
      · rw [h, replaceBndg, if_pos rfl]
        exact ⟨hr, replaceBndg_replacement t r⟩
      · rw [replaceBndg_of_ne h] at hmode ⊢
        exact ⟨hl v hv b₀ hmode hb₀, replaceBndg_of_ne h⟩
    · obtain ⟨b₀, hb₀, hb⟩ := (hout v hv hvl).uses huse
      have hb : b = b₀ := hb
      subst hb
      refine ⟨hl v hv b hmode hb₀, replaceBndg_of_ne ?_⟩
      rintro rfl
      exact hvl (ht v hv hb₀)
  intro o ho hbo
  have h := hleft.1 o ho hbo
  have hmap : ∃ f : BndgId → BndgId, f b = b ∧ Mapped f st st' o := by
    by_cases hol : o ∈ l
    · exact ⟨_, hleft.2, hin o hol⟩
    · exact ⟨id, rfl, hout o ho hol⟩
  obtain ⟨f, hf, hmap⟩ := hmap
  split
  · next hval =>
    rw [if_pos hval] at h
    rw [hmap.aug, h, hf]
  · next hval =>
    rw [if_neg hval] at h
    rw [hmap.parameters]
    exact List.mem_map.mpr ⟨b, h, hf⟩

theorem vreplace_rest (t r : BndgId) (st : Store) (w : Code) :
    (vreplaceValueBindings t r st w).bndg = st.bndg ∧
      (vreplaceValueBindings t r st w).generator = st.generator := by
  have hfirst : (if st.aug w = t then st.setBindingAug w.id r else st).bndg = st.bndg ∧
      (if st.aug w = t then st.setBindingAug w.id r else st).generator = st.generator := by
    split
    · exact ⟨rfl, rfl⟩
    · exact ⟨rfl, rfl⟩
  unfold vreplaceValueBindings
  generalize (if st.aug w = t then st.setBindingAug w.id r else st) = st₁ at *
  cases w with
  | symbol m binding =>
    dsimp only
    split
    · exact hfirst
    · exact hfirst
  | continuation _ _ _ _ | withExpr _ _ _ | function _ _ _ _ | literal _ _ | storage _ _ _
  | invoke _ _ _ | jump _ _ _ | ifExpr _ _ _ _ | constrain _ _ => exact hfirst

theorem replace_rest (t r : BndgId) (l : List Code) (st : Store) :
    (l.foldl (vreplaceValueBindings t r) st).bndg = st.bndg ∧
      (l.foldl (vreplaceValueBindings t r) st).generator = st.generator := by
  induction l generalizing st with
  | nil => exact ⟨rfl, rfl⟩
  | cons w l ih =>
    obtain ⟨hb, hg⟩ := ih (vreplaceValueBindings t r st w)
    obtain ⟨hb', hg'⟩ := vreplace_rest t r st w
    exact ⟨hb.trans hb', hg.trans hg'⟩

/-- Nothing happens inside of an expression when a binding from outside is put in the place
of a parameter. -/
theorem Pristine.replace (hr : Pristine n st) {t r : BndgId}
    (hin : ∀ v ∈ n.nodes, Mapped (replaceBndg t r) st st' v) (hb : st'.bndg = st.bndg)
    (hg : st'.generator = st.generator) (hnot : ¬ Owned n r)
    (ht : ∀ v ∈ n.inside, t ≠ .value v.id) : Pristine n st' where
  aug v hv := by
    rw [(hin v (Code.inside_subset hv)).aug, hr.aug v hv]
    exact replaceBndg_of_ne (Ne.symm (ht v hv))
  parameters v hv b hbv := by
    rw [(hin v hv).parameters] at hbv
    obtain ⟨b₀, hb₀, rfl⟩ := List.mem_map.mp hbv
    unfold replaceBndg
    split
    · exact Or.inr hnot
    · exact hr.parameters v hv b₀ hb₀
  reference m binding hm := by
    have h : st'.symbolReference m = replaceBndg t r (st.symbolReference m) :=
      (hin _ hm).reference rfl
    rw [h]
    unfold replaceBndg
    split
    · exact Or.inr hnot
    · exact hr.reference m binding hm
  generator v hv := (congrFun hg _).trans (hr.generator v hv)
  preferred v hv reg := by
    rw [hb]
    exact hr.preferred v hv reg

end L2.SelfHost
