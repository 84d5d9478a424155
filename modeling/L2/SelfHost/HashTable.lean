import Mathlib.Data.List.Basic

/-!
# Hash tables

The hash tables of the self-hosted compiler.  `ht-put` puts a value in front of those that
its key already has and `ht-remove` takes the first of them away, so that a table is one
stack of values per key; that the table is resized in between cannot be seen through the
keys.  A table is known to its users by `valuesOf` alone.
-/

namespace L2.SelfHost

def htInitialBucketCount : Nat := 2
def htResizeFactor : Nat := 2
def htLoadFactorNum : Nat := 3
def htLoadFactorDen : Nat := 4

/-- `hash-table-struct`: the bucket count is the number of `values`, and every association
is in the bucket of its key. -/
structure HashTable {α : Type*} (hashFunc : α → Nat) (β : Type*) where
  elementCount : Nat
  values : List (List (α × β))
  positive : 0 < values.length
  placed : ∀ i bucket, values[i]? = some bucket → ∀ entry ∈ bucket,
    hashFunc entry.1 % values.length = i

namespace HashTable

variable {α β : Type*} {hashFunc : α → Nat}

/-- The buckets after `f` was applied to the one of `key`. -/
def modifyBucket (hashFunc : α → Nat) (key : α) (f : List (α × β) → List (α × β))
    (values : List (List (α × β))) : List (List (α × β)) :=
  values.modify (hashFunc key % values.length) f

@[simp] theorem length_modifyBucket (key : α) (f : List (α × β) → List (α × β))
    (values : List (List (α × β))) :
    (modifyBucket hashFunc key f values).length = values.length := by
  simp [modifyBucket]

/-- Every association is in the bucket of its key. -/
def Placed (hashFunc : α → Nat) (values : List (List (α × β))) : Prop :=
  ∀ i bucket, values[i]? = some bucket → ∀ entry ∈ bucket,
    hashFunc entry.1 % values.length = i

theorem Placed.modifyBucket {key : α} {f : List (α × β) → List (α × β)}
    {values : List (List (α × β))} (h : Placed hashFunc values)
    (hf : ∀ bucket, ∀ entry ∈ f bucket, entry ∈ bucket ∨ entry.1 = key) :
    Placed hashFunc (modifyBucket hashFunc key f values) := by
  intro i bucket hi entry hentry
  rw [length_modifyBucket]
  unfold HashTable.modifyBucket at hi
  rw [List.getElem?_modify] at hi
  obtain ⟨old, hold, rfl⟩ := Option.map_eq_some_iff.mp hi
  by_cases hkey : hashFunc key % values.length = i
  · rw [if_pos hkey] at hentry
    rcases hf old entry hentry with hmem | rfl
    · exact h i old hold entry hmem
    · exact hkey
  · rw [if_neg hkey] at hentry
    exact h i old hold entry hentry

/-- The bucket at which the walks for `key` start. -/
def bucketOf (hashFunc : α → Nat) (values : List (List (α × β))) (key : α) : List (α × β) :=
  values[hashFunc key % values.length]?.getD []

theorem placed_replicate (n : Nat) :
    Placed hashFunc (List.replicate n ([] : List (α × β))) := by
  intro i bucket hi entry hentry
  rw [List.getElem?_replicate] at hi
  split at hi
  · rw [← Option.some.inj hi] at hentry
    exact absurd hentry List.not_mem_nil
  · exact absurd hi (by simp)

/-- `move-node`: an association is put at the end of its new bucket. -/
def moveNode (hashFunc : α → Nat) (values : List (List (α × β))) (entry : α × β) :
    List (List (α × β)) :=
  modifyBucket hashFunc entry.1 (· ++ [entry]) values

/-- The new buckets of `ht-resize`. -/
def moveNodes (hashFunc : α → Nat) (buckets values : List (List (α × β))) :
    List (List (α × β)) :=
  buckets.foldl (fun values bucket => bucket.foldl (moveNode hashFunc) values) values

theorem moveNodes_eq_foldl (buckets values : List (List (α × β))) :
    moveNodes hashFunc buckets values = buckets.flatten.foldl (moveNode hashFunc) values := by
  unfold moveNodes
  rw [List.foldl_flatten]

theorem length_foldl_moveNode (entries : List (α × β)) (values : List (List (α × β))) :
    (entries.foldl (moveNode hashFunc) values).length = values.length := by
  induction entries generalizing values with
  | nil => rfl
  | cons entry entries ih =>
    rw [List.foldl_cons, ih]
    exact length_modifyBucket entry.1 _ values

theorem placed_foldl_moveNode (entries : List (α × β)) {values : List (List (α × β))}
    (h : Placed hashFunc values) : Placed hashFunc (entries.foldl (moveNode hashFunc) values) := by
  induction entries generalizing values with
  | nil => exact h
  | cons entry entries ih =>
    rw [List.foldl_cons]
    apply ih
    apply h.modifyBucket
    intro bucket other hother
    rcases List.mem_append.mp hother with hmem | hmem
    · exact Or.inl hmem
    · rw [List.mem_singleton.mp hmem]
      exact Or.inr rfl

variable [DecidableEq α]

/-- The values of a key in a bucket, the newest first. -/
def valuesIn (bucket : List (α × β)) (key : α) : List β :=
  (bucket.filter (fun entry => entry.1 = key)).map Prod.snd

@[simp] theorem valuesIn_nil (key : α) : valuesIn ([] : List (α × β)) key = [] := rfl

@[simp] theorem valuesIn_append (l m : List (α × β)) (key : α) :
    valuesIn (l ++ m) key = valuesIn l key ++ valuesIn m key := by
  simp [valuesIn]

theorem valuesIn_cons (k key : α) (v : β) (l : List (α × β)) :
    valuesIn ((k, v) :: l) key = if k = key then v :: valuesIn l key else valuesIn l key := by
  unfold valuesIn
  by_cases h : k = key <;> simp [h]

theorem valuesIn_eq_nil {l : List (α × β)} {key : α} (h : ∀ entry ∈ l, entry.1 ≠ key) :
    valuesIn l key = [] := by
  unfold valuesIn
  rw [List.filter_eq_nil_iff.mpr (fun entry hentry => by simpa using h entry hentry)]
  rfl

/-- A walk through the bucket meets the values of `key` in their order. -/
theorem find?_eq_head? (l : List (α × β)) (key : α) :
    (l.find? (fun entry => key = entry.1)).map Prod.snd = (valuesIn l key).head? := by
  induction l with
  | nil => rfl
  | cons entry l ih =>
    obtain ⟨k, v⟩ := entry
    rw [valuesIn_cons, List.find?_cons]
    by_cases h : k = key
    · simp [h]
    · rw [if_neg h, ← ih]
      simp [Ne.symm h]

theorem valuesIn_eraseP (l : List (α × β)) (key other : α) :
    valuesIn (l.eraseP (fun entry => key = entry.1)) other =
      if key = other then (valuesIn l other).tail else valuesIn l other := by
  induction l with
  | nil => simp
  | cons entry l ih =>
    obtain ⟨k, v⟩ := entry
    rw [List.eraseP_cons]
    by_cases hk : key = k
    · subst hk
      rw [valuesIn_cons]
      by_cases ho : key = other <;> simp [ho]
    · simp only [hk, decide_false, cond_false, valuesIn_cons, ih]
      by_cases ho : key = other
      · subst ho
        simp [Ne.symm hk]
      · simp only [ho, if_false]

/-- Changing one bucket shows under the keys of that bucket only. -/
theorem valuesIn_modifyBucket {values : List (List (α × β))} (hpos : 0 < values.length)
    (key other : α) (f : List (α × β) → List (α × β)) :
    valuesIn (bucketOf hashFunc (modifyBucket hashFunc key f values) other) other =
      if hashFunc key % values.length = hashFunc other % values.length
      then valuesIn (f (bucketOf hashFunc values other)) other
      else valuesIn (bucketOf hashFunc values other) other := by
  unfold bucketOf
  rw [length_modifyBucket]
  unfold modifyBucket
  rw [List.getElem?_modify]
  have hlt : hashFunc other % values.length < values.length := Nat.mod_lt _ hpos
  rw [List.getElem?_eq_getElem hlt]
  by_cases h : hashFunc key % values.length = hashFunc other % values.length <;> simp [h]

/-- All values of a key are in its bucket. -/
theorem valuesIn_flatten {values : List (List (α × β))} (hplaced : Placed hashFunc values)
    (key : α) : valuesIn values.flatten key = valuesIn (bucketOf hashFunc values key) key := by
  have hsplit : ∀ (n : Nat) (l : List (List (α × β))),
      (∀ i bucket, l[i]? = some bucket → ∀ entry ∈ bucket, entry.1 = key → n = i) →
      valuesIn l.flatten key = valuesIn (l[n]?.getD []) key := by
    intro n l
    induction l generalizing n with
    | nil => intro _; rfl
    | cons bucket l ih =>
      intro h
      rw [List.flatten_cons, valuesIn_append]
      cases n with
      | zero =>
        have hrest : valuesIn l.flatten key = [] := by
          apply valuesIn_eq_nil
          intro entry hentry hkey
          obtain ⟨b, hb, hin⟩ := List.mem_flatten.mp hentry
          obtain ⟨i, hi⟩ := List.mem_iff_getElem?.mp hb
          exact absurd (h (i + 1) b hi entry hin hkey) (by omega)
        rw [hrest, List.append_nil]
        rfl
      | succ n =>
        have hfirst : valuesIn bucket key = [] := by
          apply valuesIn_eq_nil
          intro entry hentry hkey
          exact absurd (h 0 bucket rfl entry hentry hkey) (by omega)
        rw [hfirst, List.nil_append]
        apply ih
        intro i b hi entry hentry hkey
        exact Nat.succ.inj (h (i + 1) b hi entry hentry hkey)
  apply hsplit
  intro i bucket hi entry hentry hkey
  rw [← hkey]
  exact hplaced i bucket hi entry hentry

/-- The values of a key, the newest first. -/
def valuesOf (ht : HashTable hashFunc β) (key : α) : List β :=
  valuesIn (bucketOf hashFunc ht.values key) key

/-! ## Creating and resizing -/

def htCreate (hashFunc : α → Nat) (β : Type*) : HashTable hashFunc β where
  elementCount := 0
  values := List.replicate htInitialBucketCount []
  positive := by
    rw [List.length_replicate]
    decide
  placed := placed_replicate htInitialBucketCount

theorem valuesIn_replicate (n : Nat) (key : α) :
    valuesIn (bucketOf hashFunc (List.replicate n ([] : List (α × β))) key) key = [] := by
  unfold bucketOf
  rw [List.getElem?_replicate]
  split <;> rfl

@[simp] theorem valuesOf_htCreate (key : α) : (htCreate hashFunc β).valuesOf key = [] :=
  valuesIn_replicate htInitialBucketCount key

/-- Moving the associations over leaves the values of each key in their order. -/
theorem valuesIn_foldl_moveNode (entries : List (α × β)) {values : List (List (α × β))}
    (hpos : 0 < values.length) (key : α) :
    valuesIn (bucketOf hashFunc (entries.foldl (moveNode hashFunc) values) key) key =
      valuesIn (bucketOf hashFunc values key) key ++ valuesIn entries key := by
  induction entries generalizing values with
  | nil => simp
  | cons entry entries ih =>
    obtain ⟨k, v⟩ := entry
    rw [List.foldl_cons, ih (by simpa [moveNode] using hpos), valuesIn_cons]
    unfold moveNode
    rw [valuesIn_modifyBucket hpos]
    by_cases hk : k = key
    · subst hk
      simp [valuesIn_cons]
    · rw [if_neg hk]
      split
      · simp [valuesIn_cons, hk]
      · rfl

def htResize (ht : HashTable hashFunc β) : HashTable hashFunc β :=
  if ht.elementCount * htLoadFactorDen > ht.values.length * htLoadFactorNum then
    { elementCount := ht.elementCount
      values := moveNodes hashFunc ht.values
        (List.replicate (ht.values.length * htResizeFactor) [])
      positive := by
        rw [moveNodes_eq_foldl, length_foldl_moveNode, List.length_replicate]
        exact Nat.mul_pos ht.positive (by decide)
      placed := by
        rw [moveNodes_eq_foldl]
        exact placed_foldl_moveNode _ (placed_replicate _) }
  else ht

@[simp] theorem valuesOf_htResize (ht : HashTable hashFunc β) (key : α) :
    ht.htResize.valuesOf key = ht.valuesOf key := by
  unfold htResize
  split
  · show valuesIn (bucketOf hashFunc (moveNodes hashFunc ht.values _) key) key = _
    rw [moveNodes_eq_foldl, valuesIn_foldl_moveNode, valuesIn_replicate, List.nil_append]
    · exact valuesIn_flatten ht.placed key
    · rw [List.length_replicate]
      exact Nat.mul_pos ht.positive (by decide)
  · rfl

/-! ## Putting, finding and removing -/

def htPut (key : α) (value : β) (ht : HashTable hashFunc β) : HashTable hashFunc β :=
  htResize
    { elementCount := ht.elementCount + 1
      values := modifyBucket hashFunc key ((key, value) :: ·) ht.values
      positive := by
        rw [length_modifyBucket]
        exact ht.positive
      placed := by
        apply Placed.modifyBucket ht.placed
        intro bucket entry hentry
        rcases List.mem_cons.mp hentry with rfl | hmem
        · exact Or.inr rfl
        · exact Or.inl hmem }

theorem valuesOf_htPut (key : α) (value : β) (ht : HashTable hashFunc β) (other : α) :
    (htPut key value ht).valuesOf other =
      if key = other then value :: ht.valuesOf other else ht.valuesOf other := by
  unfold htPut
  rw [valuesOf_htResize]
  unfold valuesOf
  rw [valuesIn_modifyBucket ht.positive]
  by_cases h : key = other
  · subst h
    simp [valuesIn_cons]
  · rw [if_neg h]
    split
    · rw [valuesIn_cons, if_neg h]
    · rfl

/-- The value that `ht-contains` hands out. -/
def htContains (key : α) (ht : HashTable hashFunc β) : Option β :=
  ((bucketOf hashFunc ht.values key).find? (fun entry => key = entry.1)).map Prod.snd

theorem htContains_eq (key : α) (ht : HashTable hashFunc β) :
    htContains key ht = (ht.valuesOf key).head? :=
  find?_eq_head? _ key

/-- The first association of `key` is taken out of its bucket; the count only goes down
with one. -/
def htRemove (key : α) (ht : HashTable hashFunc β) : HashTable hashFunc β where
  elementCount :=
    if (bucketOf hashFunc ht.values key).any (fun entry => key = entry.1)
    then ht.elementCount - 1 else ht.elementCount
  values := modifyBucket hashFunc key (·.eraseP (fun entry => key = entry.1)) ht.values
  positive := by
    rw [length_modifyBucket]
    exact ht.positive
  placed := by
    apply Placed.modifyBucket ht.placed
    intro bucket entry hentry
    exact Or.inl (List.mem_of_mem_eraseP hentry)

theorem valuesOf_htRemove (key : α) (ht : HashTable hashFunc β) (other : α) :
    (htRemove key ht).valuesOf other =
      if key = other then (ht.valuesOf other).tail else ht.valuesOf other := by
  unfold valuesOf htRemove
  rw [valuesIn_modifyBucket ht.positive, valuesIn_eraseP]
  by_cases h : key = other
  · subst h
    simp
  · simp only [if_neg h, ite_self]

end HashTable

end L2.SelfHost
