import L2.SelfHost.HashMemoryCorrect

/-!
# Hash tables refine lists of associations

Whatever is put in a table and removed from it, and however often it is resized in between,
each key has the values that were put under it and not removed, the newest first
(`run_refines`).  So a table in memory is the one that its users know by the values of its
keys (`Denotes`).
-/

namespace L2.SelfHost.HashMemory

open Memory (Cell Chain Holds)

variable {α β : Type} (keys : Keys α)

/-- The changes of a table. -/
inductive Op (α β : Type) where
  | put (key : α) (value : β)
  | remove (key : α)
  | removeall

def Op.run (ht : Table α β) : Op α β → Option (Table α β)
  | .put key value => htPut keys key value ht
  | .remove key => htRemove keys key ht
  | .removeall => some (htRemoveall ht)

/-- A sequence of changes. -/
def run (ops : List (Op α β)) (ht : Table α β) : Option (Table α β) :=
  ops.foldlM (Op.run keys) ht

/-! ## The abstract table -/

/-- The list of associations after a change. -/
def Op.apply (l : List (α × β)) : Op α β → List (α × β)
  | .put key value => (key, value) :: l
  | .remove key => l.eraseP fun e => keys.equalsFunc key e.1
  | .removeall => []

/-- The values under a key after a change: a stack of its own for each key. -/
def Op.stack (key : α) (values : List β) : Op α β → List β
  | .put key' value => if keys.equalsFunc key key' then value :: values else values
  | .remove key' => if keys.equalsFunc key key' then values.tail else values
  | .removeall => []

/-- The values put under a key and not removed yet, the newest first. -/
def valuesUnder (key : α) (ops : List (Op α β)) : List β := ops.foldl (Op.stack keys key) []

/-- The values of the associations whose keys are equal to a key. -/
def valuesIn (key : α) (l : List (α × β)) : List β :=
  (l.filter fun e => keys.equalsFunc key e.1).map Prod.snd

theorem valuesIn_cons (key : α) (e : α × β) (l : List (α × β)) :
    valuesIn keys key (e :: l) =
      if keys.equalsFunc key e.1 then e.2 :: valuesIn keys key l else valuesIn keys key l := by
  unfold valuesIn
  split
  · rename_i hk
    simp [hk]
  · rename_i hk
    simp [hk]

/-- Equal keys are equal to the same keys. -/
theorem equalsFunc_congr {k k' : α} (h : keys.equalsFunc k k' = true) (l : α) :
    keys.equalsFunc k l = keys.equalsFunc k' l := by
  rw [Bool.eq_iff_iff]
  exact ⟨keys.trans k' k l (keys.symm k k' h), keys.trans k k' l h⟩

/-- What is taken out of a list is not missed under another key. -/
theorem valuesIn_eraseP (key key' : α) (l : List (α × β)) :
    valuesIn keys key (l.eraseP fun e => keys.equalsFunc key' e.1) =
      if keys.equalsFunc key key' then (valuesIn keys key l).tail else valuesIn keys key l := by
  induction l with
  | nil => simp [valuesIn]
  | cons e l ih =>
    rw [List.eraseP_cons, valuesIn_cons]
    by_cases he : keys.equalsFunc key' e.1 = true
    · rw [he, cond_true]
      by_cases hk : keys.equalsFunc key key' = true
      · have hke : keys.equalsFunc key e.1 = true := (equalsFunc_congr keys hk e.1).trans he
        rw [if_pos hk, if_pos hke, List.tail_cons]
      · have hke : ¬ keys.equalsFunc key e.1 = true :=
          fun h => hk (keys.trans _ _ _ h (keys.symm _ _ he))
        rw [if_neg hk, if_neg hke]
    · rw [Bool.not_eq_true] at he
      rw [he, cond_false, valuesIn_cons, ih]
      by_cases hk : keys.equalsFunc key key' = true
      · have hke : ¬ keys.equalsFunc key e.1 = true := by
          rw [equalsFunc_congr keys hk e.1, he]
          decide
        simp only [if_pos hk, if_neg hke]
      · rw [if_neg hk, if_neg hk]

theorem valuesIn_apply (key : α) (l : List (α × β)) (op : Op α β) :
    valuesIn keys key (op.apply keys l) = op.stack keys key (valuesIn keys key l) := by
  cases op with
  | put key' value => exact valuesIn_cons keys key (key', value) l
  | remove key' => exact valuesIn_eraseP keys key key' l
  | removeall => rfl

/-- The list of associations has the stacks of all keys in it. -/
theorem valuesIn_foldl (key : α) (ops : List (Op α β)) (l : List (α × β)) :
    valuesIn keys key (ops.foldl (Op.apply keys) l) =
      ops.foldl (Op.stack keys key) (valuesIn keys key l) := by
  induction ops generalizing l with
  | nil => rfl
  | cons op ops ih => rw [List.foldl_cons, List.foldl_cons, ih, valuesIn_apply]

/-! ## One change -/

/-- What a table stands for, and how full it is. -/
structure Represents (ht : Table α β) (l : List (α × β)) : Prop where
  buckets : Buckets keys ht.toStore l
  elementCount : ht.elementCount = l.length
  twoBuckets : 2 ≤ ht.values.length
  load : ht.elementCount * htLoadFactorDen ≤ ht.values.length * htLoadFactorNum

theorem buckets_of_heads_none {m : Store α β} (h : ∀ i : Nat, m.values[i]?.join = none) :
    Buckets keys m [] := by
  refine ⟨fun _ => [], ?_, fun _ => List.nodup_nil, fun _ _ p hp => absurd hp List.not_mem_nil⟩
  rintro (i | j)
  · show Chain m.cells m.values[i]?.join [] []
    rw [h i]
    exact .nil
  · exact .nil

theorem represents_htCreate : Represents keys (htCreate : Table α β) [] where
  buckets := by
    apply buckets_of_heads_none
    intro i
    show (List.replicate htInitialBucketCount none)[i]?.join = none
    rw [List.getElem?_replicate]
    split <;> rfl
  elementCount := rfl
  twoBuckets := by
    show 2 ≤ (List.replicate htInitialBucketCount none).length
    rw [List.length_replicate]
    decide
  load := Nat.zero_le _

variable {keys} {ht : Table α β} {l : List (α × β)}

/-- Only the list of one bucket has changed. -/
theorem contents_update {f g : Nat → List (α × β)} {b : Nat} (h : ∀ i, i ≠ b → g i = f i) :
    (Sum.elim g fun _ => [] : Nat ⊕ Nat → List (α × β)) =
      Function.update (Sum.elim f fun _ => []) (.inl b) (g b) := by
  funext k
  cases k with
  | inl i =>
    by_cases hi : i = b
    · subst hi
      rw [Function.update_self]
      rfl
    · rw [Function.update_of_ne (by simpa using hi)]
      exact h i hi
  | inr j =>
    rw [Function.update_of_ne (by simp)]
    rfl

theorem prepend_buckets (h : Represents keys ht l) (key : α) (value : β) :
    Buckets keys (prepend (key, value) (.bucket (bucketIdx keys key ht)) ht.toStore)
      ((key, value) :: l) := by
  obtain ⟨paths, hholds⟩ := h.buckets
  have hlt : bucketIdx keys key ht < ht.values.length :=
    Nat.mod_lt _ (Nat.lt_of_lt_of_le (by decide) h.twoBuckets)
  have hnew := hholds.append [⟨(key, value), ht.get (.bucket (bucketIdx keys key ht))⟩]
  have hfree : ∀ k, ht.cells.length ∉ paths k :=
    fun k hk => absurd ((hholds.chain k).lt_length _ hk) (Nat.lt_irrefl _)
  have hcell : (ht.cells ++ [⟨(key, value), ht.get (.bucket (bucketIdx keys key ht))⟩])[
      ht.cells.length]? = some ⟨(key, value), ht.get (.bucket (bucketIdx keys key ht))⟩ :=
    List.getElem?_concat_length
  have hset := holds_set
    (m := ⟨ht.cells ++ [⟨(key, value), ht.get (.bucket (bucketIdx keys key ht))⟩], ht.values⟩)
    hnew hlt (show paths (.inl (bucketIdx keys key ht)) = [] ++ _ from rfl)
      (.cons hcell (hnew.chain (.inl (bucketIdx keys key ht))))
    (List.nodup_cons.mpr ⟨hfree _, hholds.nodup _⟩) (by
      intro p hp k hk
      rcases List.mem_cons.mp hp with rfl | hp
      · exact absurd hk (hfree k)
      · exact hholds.apart k _ p hk hp)
  refine ⟨Function.update paths (.inl (bucketIdx keys key ht))
    (ht.cells.length :: paths (.inl (bucketIdx keys key ht))), ?_⟩
  have hother : ∀ i, i ≠ bucketIdx keys key ht →
      ofBucket keys ht.values.length i ((key, value) :: l) = ofBucket keys ht.values.length i l :=
    fun i hi => List.filter_cons_of_neg (by simpa [bucketIdx] using Ne.symm hi)
  have hself : ofBucket keys ht.values.length (bucketIdx keys key ht) ((key, value) :: l) =
      (key, value) :: ofBucket keys ht.values.length (bucketIdx keys key ht) l :=
    List.filter_cons_of_pos (by simp [bucketIdx])
  show Holds _ _ _ (Sum.elim (fun i => ofBucket keys _ i ((key, value) :: l)) _)
  rw [show (prepend (key, value) (.bucket (bucketIdx keys key ht)) ht.toStore).values.length =
    ht.values.length from List.length_set, contents_update hother, hself]
  exact hset

theorem htPut_represents (h : Represents keys ht l) (key : α) (value : β) :
    ∃ ht', htPut keys key value ht = some ht' ∧ Represents keys ht' ((key, value) :: l) := by
  have hlength : (prepend (key, value) (.bucket (bucketIdx keys key ht))
      ht.toStore).values.length = ht.values.length := List.length_set
  have htwo := h.twoBuckets
  let new : Table α β :=
    ⟨prepend (key, value) (.bucket (bucketIdx keys key ht)) ht.toStore, ht.elementCount + 1⟩
  have hnew : Buckets keys new.toStore ((key, value) :: l) := prepend_buckets h key value
  obtain ⟨ht', hresize, hbuckets, hcount, hvalues⟩ := htResize_buckets keys hnew (by
    show 0 < (prepend _ _ ht.toStore).values.length
    omega)
  change ht'.elementCount = ht.elementCount + 1 at hcount
  change ht'.values.length = if (ht.elementCount + 1) * htLoadFactorDen >
    (prepend _ _ ht.toStore).values.length * htLoadFactorNum then _ else _ at hvalues
  rw [hlength] at hvalues
  have hload := h.load
  unfold htLoadFactorDen htLoadFactorNum htResizeFactor at hvalues
  unfold htLoadFactorDen htLoadFactorNum at hload
  refine ⟨ht', hresize, hbuckets, ?_, ?_, ?_⟩
  · rw [hcount, h.elementCount, List.length_cons]
  · rw [hvalues]
    split <;> omega
  · rw [hcount, hvalues]
    unfold htLoadFactorDen htLoadFactorNum
    split <;> omega

/-- Every association with a key equal to `key` is in the bucket that is searched. -/
theorem hashFunc_mod (key : α) {e : α × β} (he : keys.equalsFunc key e.1 = true) :
    keys.hashFunc e.1 % ht.values.length = bucketIdx keys key ht := by
  unfold bucketIdx
  rw [keys.respects key e.1 he]

theorem ofBucket_eraseP_self (key : α) (l : List (α × β)) :
    ofBucket keys ht.values.length (bucketIdx keys key ht)
        (l.eraseP fun e => keys.equalsFunc key e.1) =
      (ofBucket keys ht.values.length (bucketIdx keys key ht) l).eraseP
        fun e => keys.equalsFunc key e.1 := by
  unfold ofBucket
  rw [List.eraseP_filter]
  congr 2
  funext e
  rw [eq_comm, Bool.and_eq_left_iff_imp, decide_eq_true_eq]
  exact hashFunc_mod key

theorem ofBucket_eraseP_of_ne (key : α) (l : List (α × β)) {i : Nat}
    (hi : i ≠ bucketIdx keys key ht) :
    ofBucket keys ht.values.length i (l.eraseP fun e => keys.equalsFunc key e.1) =
      ofBucket keys ht.values.length i l := by
  unfold ofBucket
  induction l with
  | nil => rfl
  | cons e l ih =>
    rw [List.eraseP_cons]
    by_cases he : keys.equalsFunc key e.1 = true
    · have hne : ¬ keys.hashFunc e.1 % ht.values.length = i := by
        rw [hashFunc_mod key he]
        exact Ne.symm hi
      rw [he, cond_true, List.filter_cons_of_neg (by simpa using hne)]
    · rw [Bool.not_eq_true] at he
      rw [he, cond_false, List.filter_cons, List.filter_cons, ih]

/-- A removal that finds nothing leaves the list alone; one that does takes the first
association off. -/
theorem removeFrom_buckets (h : Represents keys ht l) (key : α) :
    ∃ m removed, removeFrom keys key ht.fuel (.bucket (bucketIdx keys key ht)) ht.toStore =
        some (m, removed) ∧ m.values.length = ht.values.length ∧
      Buckets keys m (l.eraseP fun e => keys.equalsFunc key e.1) ∧
      removed = l.any fun e => keys.equalsFunc key e.1 := by
  obtain ⟨paths, hholds⟩ := h.buckets
  have hlt : bucketIdx keys key ht < ht.values.length :=
    Nat.mod_lt _ (Nat.lt_of_lt_of_le (by decide) h.twoBuckets)
  have hbucket : Chain ht.cells (ht.get (.bucket (bucketIdx keys key ht)))
      (paths (.inl (bucketIdx keys key ht)))
      (ofBucket keys ht.values.length (bucketIdx keys key ht) l) := hholds.chain (.inl _)
  rcases removeFrom_cases keys key hbucket (lt_fuel hholds _) with
    ⟨hnone, heq⟩ | ⟨pre, p, post, next, ys, e, zs, hpath, hxs, hlen, hys, he, hchain, heq⟩
  · have hnot : ∀ e ∈ l, ¬ keys.equalsFunc key e.1 = true := by
      intro e hel hk
      have hmem : e ∈ ofBucket keys ht.values.length (bucketIdx keys key ht) l :=
        List.mem_filter.mpr ⟨hel, by simpa using hashFunc_mod key hk⟩
      exact absurd hk (by simp [hnone e hmem])
    refine ⟨ht.toStore, false, heq, rfl, ?_, ?_⟩
    · rw [List.eraseP_of_forall_not hnot]
      exact h.buckets
    · rw [eq_comm, List.any_eq_false]
      exact hnot
  · have hmem : e ∈ ofBucket keys ht.values.length (bucketIdx keys key ht) l := by
      rw [hxs]
      exact List.mem_append_right _ List.mem_cons_self
    have hnodup := hholds.nodup (.inl (bucketIdx keys key ht))
    rw [hpath] at hnodup
    have hset := holds_set hholds hlt hpath hchain
      (hnodup.sublist ((List.Sublist.refl pre).append (List.sublist_cons_self p post))) (by
        intro q hq k hk
        apply hholds.apart k _ q hk
        rw [hpath]
        exact List.mem_append_right _ (List.mem_cons_of_mem p hq))
    refine ⟨_, true, heq, length_values_set _ _,
      ⟨Function.update paths (.inl (bucketIdx keys key ht)) (pre ++ post), ?_⟩, ?_⟩
    · have hcontents : (ofBucket keys ht.values.length (bucketIdx keys key ht) l).take pre.length ++
          zs = ofBucket keys ht.values.length (bucketIdx keys key ht)
            (l.eraseP fun e => keys.equalsFunc key e.1) := by
        rw [ofBucket_eraseP_self, hxs, hlen, List.take_left, List.eraseP_append_right _ (by
          intro d hd
          simp [hys d hd]), List.eraseP_cons, he, cond_true]
      rw [length_values_set, contents_update fun i hi => ofBucket_eraseP_of_ne key l hi,
        ← hcontents]
      exact hset
    · rw [eq_comm, List.any_eq_true]
      exact ⟨e, (List.mem_filter.mp hmem).1, he⟩

theorem htRemove_represents (h : Represents keys ht l) (key : α) :
    ∃ ht', htRemove keys key ht = some ht' ∧
      Represents keys ht' (l.eraseP fun e => keys.equalsFunc key e.1) := by
  obtain ⟨m, removed, heq, hlength, hbuckets, hremoved⟩ := removeFrom_buckets h key
  have hcount : (if removed then ht.elementCount - 1 else ht.elementCount) =
      (l.eraseP fun e => keys.equalsFunc key e.1).length := by
    rw [List.length_eraseP, hremoved, h.elementCount]
  have hle : (if removed then ht.elementCount - 1 else ht.elementCount) ≤ ht.elementCount := by
    split <;> omega
  refine ⟨⟨m, if removed then ht.elementCount - 1 else ht.elementCount⟩, ?_, hbuckets, hcount,
    ?_, ?_⟩
  · unfold htRemove
    rw [heq]
    rfl
  · rw [hlength]
    exact h.twoBuckets
  · show _ * htLoadFactorDen ≤ m.values.length * htLoadFactorNum
    rw [hlength]
    exact Nat.le_trans (Nat.mul_le_mul_right _ hle) h.load

/-- The buckets that the loop of `ht-removeall` has come to are empty. -/
theorem foldl_removeall (ht : Table α β) (n : Nat) :
    let ht' := (List.range n).foldl
      (fun (ht : Table α β) bucketIdx => ⟨ht.set none (.bucket bucketIdx), 0⟩) ht
    ht'.values.length = ht.values.length ∧ (∀ i < n, ht'.values[i]?.join = none) ∧
      (0 < n → ht'.elementCount = 0) := by
  induction n with
  | zero => exact ⟨rfl, fun i hi => absurd hi (Nat.not_lt_zero i),
      fun h => absurd h (Nat.lt_irrefl 0)⟩
  | succ n ih =>
    obtain ⟨hlength, hnone, -⟩ := ih
    rw [List.range_succ, List.foldl_append]
    refine ⟨List.length_set.trans hlength, ?_, fun _ => rfl⟩
    intro i hi
    show (List.set _ n none)[i]?.join = none
    rw [List.getElem?_set]
    by_cases hin : n = i
    · rw [if_pos hin]
      split <;> rfl
    · rw [if_neg hin]
      exact hnone i (by omega)

theorem htRemoveall_represents (h : Represents keys ht l) :
    Represents keys (htRemoveall ht) ([] : List (α × β)) := by
  obtain ⟨hlength, hnone, hcount⟩ := foldl_removeall ht ht.values.length
  have htwo := h.twoBuckets
  have hzero : (htRemoveall ht).elementCount = 0 := hcount (by omega)
  refine ⟨buckets_of_heads_none keys ?_, hzero, ?_, ?_⟩
  · intro i
    by_cases hi : i < ht.values.length
    · exact hnone i hi
    · rw [List.getElem?_eq_none (by
        have hlen : (htRemoveall ht).values.length = ht.values.length := hlength
        omega)]
      rfl
  · have hlen : (htRemoveall ht).values.length = ht.values.length := hlength
    omega
  · rw [hzero, Nat.zero_mul]
    exact Nat.zero_le _

/-- A change of a table is that of the list. -/
theorem represents_run (h : Represents keys ht l) (op : Op α β) :
    ∃ ht', op.run keys ht = some ht' ∧ Represents keys ht' (op.apply keys l) := by
  cases op with
  | put key value => exact htPut_represents h key value
  | remove key => exact htRemove_represents h key
  | removeall => exact ⟨htRemoveall ht, rfl, htRemoveall_represents h⟩

/-! ## Sequences of changes -/

theorem run_represents (h : Represents keys ht l) (ops : List (Op α β)) :
    ∃ ht', run keys ops ht = some ht' ∧ Represents keys ht' (ops.foldl (Op.apply keys) l) := by
  induction ops generalizing ht l with
  | nil => exact ⟨ht, rfl, h⟩
  | cons op ops ih =>
    obtain ⟨ht₁, hrun, h₁⟩ := represents_run h op
    obtain ⟨ht', hrun', h'⟩ := ih h₁
    refine ⟨ht', ?_, h'⟩
    show (op.run keys ht).bind _ = _
    rw [hrun]
    exact hrun'

/-! ## What is found -/

/-- The bucket of a key has all values of the key. -/
theorem valuesIn_ofBucket (ht : Table α β) (key : α) (l : List (α × β)) :
    valuesIn keys key (ofBucket keys ht.values.length (bucketIdx keys key ht) l) =
      valuesIn keys key l := by
  unfold valuesIn ofBucket
  rw [List.filter_filter]
  congr 1
  apply List.filter_congr
  intro e _
  rw [Bool.and_eq_left_iff_imp, decide_eq_true_eq]
  exact hashFunc_mod key

/-- The lists of all buckets together are as long as the list. -/
theorem length_flatMap_ofBucket {n : Nat} (hpos : 0 < n) (l : List (α × β)) :
    ((List.range n).flatMap fun i => ofBucket keys n i l).length = l.length := by
  have hcons : ∀ (e : α × β) (l : List (α × β)) (ks : List Nat), ks.Nodup →
      (ks.flatMap fun i => ofBucket keys n i (e :: l)).length =
        (ks.flatMap fun i => ofBucket keys n i l).length +
          if keys.hashFunc e.1 % n ∈ ks then 1 else 0 := by
    intro e l ks hnodup
    induction ks with
    | nil => rfl
    | cons k ks ih =>
      rw [List.nodup_cons] at hnodup
      rw [List.flatMap_cons, List.flatMap_cons, List.length_append, List.length_append,
        ih hnodup.2]
      by_cases hk : keys.hashFunc e.1 % n = k
      · subst hk
        rw [if_neg hnodup.1, if_pos List.mem_cons_self]
        unfold ofBucket
        rw [List.filter_cons_of_pos (by simp), List.length_cons]
        omega
      · unfold ofBucket
        rw [List.filter_cons_of_neg (by simpa using hk)]
        simp only [List.mem_cons, hk, false_or]
        omega
  induction l with
  | nil =>
    rw [List.length_nil, List.length_eq_zero_iff, List.flatMap_eq_nil_iff]
    exact fun i _ => rfl
  | cons e l ih =>
    rw [hcons e l _ List.nodup_range, ih,
      if_pos (List.mem_range.mpr (Nat.mod_lt _ hpos)), List.length_cons]

theorem mapM_eq_some {γ δ : Type} (f : γ → Option δ) (xs : List γ) (g : Nat → δ)
    (h : ∀ i x, xs[i]? = some x → f x = some (g i)) :
    xs.mapM f = some ((List.range xs.length).map g) := by
  induction xs generalizing g with
  | nil => rfl
  | cons x xs ih =>
    rw [List.mapM_cons, h 0 x rfl, ih (fun i => g (i + 1)) fun i y hy => h (i + 1) y hy,
      List.length_cons, List.range_succ_eq_map, List.map_cons, List.map_map]
    rfl

namespace Represents

variable (h : Represents keys ht l)

include h

theorem chain : ∃ paths : Nat → List Nat, ∀ i, (paths i).length < ht.fuel ∧
    Chain ht.cells ht.values[i]?.join (paths i) (ofBucket keys ht.values.length i l) := by
  obtain ⟨paths, hholds⟩ := h.buckets
  exact ⟨fun i => paths (.inl i), fun i => ⟨lt_fuel hholds _, hholds.chain (.inl i)⟩⟩

theorem htContains_eq (key : α) :
    htContains keys key ht = some (valuesIn keys key l).head? := by
  obtain ⟨paths, hpaths⟩ := h.chain
  obtain ⟨hfuel, hchain⟩ := hpaths (bucketIdx keys key ht)
  have hfind := containsFrom_eq keys key hchain hfuel
  rw [← valuesIn_ofBucket ht key l]
  unfold valuesIn
  rw [List.head?_map, List.head?_filter]
  exact hfind

theorem htGet_eq (key : α) : htGet keys key ht = (valuesIn keys key l).head? := by
  unfold htGet
  rw [getFrom_eq]
  have hcontains := h.htContains_eq key
  unfold htContains at hcontains
  rw [hcontains]
  rfl

theorem htIterKey_eq (key : α) : htIterKey keys key ht = some (valuesIn keys key l) := by
  obtain ⟨paths, hpaths⟩ := h.chain
  obtain ⟨hfuel, hchain⟩ := hpaths (bucketIdx keys key ht)
  have hiter := iterKeyFrom_eq keys key hchain hfuel
  rw [← valuesIn_ofBucket ht key l]
  exact hiter

/-- The associations in the order of the buckets. -/
theorem htIter_eq :
    htIter ht = some ((List.range ht.values.length).flatMap fun i =>
      ofBucket keys ht.values.length i l) := by
  obtain ⟨paths, hpaths⟩ := h.chain
  have hbuckets := mapM_eq_some (listIter ht.cells ht.fuel) ht.values
    (fun i => ofBucket keys ht.values.length i l) (by
      intro i start hi
      obtain ⟨hfuel, hchain⟩ := hpaths i
      rw [hi] at hchain
      exact listIter_eq hchain hfuel)
  unfold htIter
  rw [hbuckets]
  rfl

end Represents

/-- What a sequence of changes of a fresh table leads to: every key has its values, the
count is that of the associations in the buckets, each of these is in its bucket, and the
buckets are at most three quarters full. -/
theorem run_refines (keys : Keys α) (ops : List (Op α β)) :
    ∃ ht, run keys ops htCreate = some ht ∧
      (∀ key, htIterKey keys key ht = some (valuesUnder keys key ops) ∧
        htContains keys key ht = some (valuesUnder keys key ops).head? ∧
        htGet keys key ht = (valuesUnder keys key ops).head?) ∧
      (∃ entries, htIter ht = some entries ∧ ht.elementCount = entries.length) ∧
      (∀ i start, ht.values[i]? = some start → ∃ bucket,
        listIter ht.cells ht.fuel start = some bucket ∧
        ∀ e ∈ bucket, keys.hashFunc e.1 % ht.values.length = i) ∧
      ht.elementCount * htLoadFactorDen ≤ ht.values.length * htLoadFactorNum := by
  obtain ⟨ht, hrun, h⟩ := run_represents (represents_htCreate keys) ops
  have hvalues : ∀ key, valuesIn keys key (ops.foldl (Op.apply keys) []) =
      valuesUnder keys key ops := fun key => valuesIn_foldl keys key ops []
  refine ⟨ht, hrun, ?_, ⟨_, h.htIter_eq, ?_⟩, ?_, h.load⟩
  · intro key
    rw [← hvalues key]
    exact ⟨h.htIterKey_eq key, h.htContains_eq key, h.htGet_eq key⟩
  · have htwo := h.twoBuckets
    rw [length_flatMap_ofBucket (by omega), h.elementCount]
  · intro i start hi
    obtain ⟨paths, hpaths⟩ := h.chain
    obtain ⟨hfuel, hchain⟩ := hpaths i
    rw [hi] at hchain
    refine ⟨_, listIter_eq hchain hfuel, ?_⟩
    intro e he
    simpa using (List.mem_filter.mp he).2

/-- Four associations make the table grow to eight buckets, and one of them is removed.  The
keys 3 and 11 stay in one bucket. -/
def pointerPuts : List (Op (BitVec 64) Nat) :=
  [.put 3 1, .put 11 2, .put 3 5, .put 4 4, .remove 3]

theorem run_refines_pointerPuts : ∃ ht, run (.ofEq hashPtr) pointerPuts htCreate = some ht ∧
    ht.values.length = 8 ∧ htIterKey (.ofEq hashPtr) 3 ht = some [1] ∧
    htContains (.ofEq hashPtr) 11 ht = some (some 2) ∧ htGet (.ofEq hashPtr) 4 ht = some 4 := by
  obtain ⟨ht, hrun, hkeys, -⟩ := run_refines (.ofEq hashPtr) pointerPuts
  have hgrown : (run (.ofEq hashPtr) pointerPuts htCreate).map (·.values.length) = some 8 := by
    decide
  rw [hrun] at hgrown
  exact ⟨ht, hrun, Option.some.inj hgrown, (hkeys 3).1, (hkeys 11).2.1, (hkeys 4).2.2⟩

/-! ## Tables that are known by their values -/

variable [DecidableEq α] {hashFunc : α → Nat}

/-- A table in memory whose keys have the values that they have in the other table. -/
def Denotes (ht : Table α β) (table : HashTable hashFunc β) : Prop :=
  ∃ l, Represents (Keys.ofEq hashFunc) ht l ∧
    ∀ key, valuesIn (Keys.ofEq hashFunc) key l = table.valuesOf key

theorem equalsFunc_ofEq {k l : α} : (Keys.ofEq hashFunc).equalsFunc k l = true ↔ l = k :=
  decide_eq_true_iff.trans eq_comm

theorem denotes_htCreate :
    Denotes (htCreate : Table α β) (HashTable.htCreate hashFunc β) := by
  refine ⟨[], represents_htCreate _, ?_⟩
  intro key
  rw [HashTable.valuesOf_htCreate]
  rfl

namespace Denotes

variable {table : HashTable hashFunc β} (h : Denotes ht table)

include h

theorem htPut (key : α) (value : β) :
    ∃ ht', htPut (Keys.ofEq hashFunc) key value ht = some ht' ∧
      Denotes ht' (table.htPut key value) := by
  obtain ⟨l, hl, hvalues⟩ := h
  obtain ⟨ht', hput, hl'⟩ := htPut_represents hl key value
  refine ⟨ht', hput, _, hl', ?_⟩
  intro other
  rw [HashTable.valuesOf_htPut, ← hvalues other, valuesIn_cons]
  simp only [equalsFunc_ofEq]

theorem htRemove (key : α) :
    ∃ ht', htRemove (Keys.ofEq hashFunc) key ht = some ht' ∧
      Denotes ht' (table.htRemove key) := by
  obtain ⟨l, hl, hvalues⟩ := h
  obtain ⟨ht', hremove, hl'⟩ := htRemove_represents hl key
  refine ⟨ht', hremove, _, hl', ?_⟩
  intro other
  rw [HashTable.valuesOf_htRemove, ← hvalues other, valuesIn_eraseP]
  simp only [equalsFunc_ofEq]

theorem htContains (key : α) :
    htContains (Keys.ofEq hashFunc) key ht = some (table.htContains key) := by
  obtain ⟨l, hl, hvalues⟩ := h
  rw [hl.htContains_eq, hvalues, HashTable.htContains_eq]

end Denotes

end L2.SelfHost.HashMemory
