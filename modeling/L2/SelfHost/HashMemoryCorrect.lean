import Mathlib.Data.Sum.Basic
import L2.SelfHost.HashMemory

/-!
# What the hash tables in memory mean

A table stands for the list of its associations, the newest first: the bucket `i` holds
those whose hash is `i` modulo the number of the buckets, in the order of that list.
-/

namespace L2.SelfHost.HashMemory

open Memory (Cell Chain Holds)

variable {α β : Type}

/-! ## Walks -/

section

variable (keys : Keys α) {cells : List (Cell (α × β))}

theorem containsFrom_eq (key : α) {start : Option Nat} {path : List Nat} {xs : List (α × β)}
    (h : Chain cells start path xs) {fuel : Nat} (hfuel : path.length < fuel) :
    containsFrom keys key cells fuel start =
      some ((xs.find? fun e => keys.equalsFunc key e.1).map Prod.snd) := by
  induction h generalizing fuel with
  | nil =>
    cases fuel with
    | zero => omega
    | succ fuel => rfl
  | @cons p e next path xs hp _ ih =>
    cases fuel with
    | zero => omega
    | succ fuel =>
      unfold containsFrom
      rw [hp]
      simp only [Option.bind_eq_bind, Option.bind_some, List.find?_cons]
      rw [List.length_cons] at hfuel
      by_cases hk : keys.equalsFunc key e.1 = true
      · simp [hk]
      · simp [hk, ih (Nat.lt_of_succ_lt_succ hfuel)]

theorem iterKeyFrom_eq (key : α) {start : Option Nat} {path : List Nat} {xs : List (α × β)}
    (h : Chain cells start path xs) {fuel : Nat} (hfuel : path.length < fuel) :
    iterKeyFrom keys key cells fuel start =
      some ((xs.filter fun e => keys.equalsFunc key e.1).map Prod.snd) := by
  induction h generalizing fuel with
  | nil =>
    cases fuel with
    | zero => omega
    | succ fuel => rfl
  | @cons p e next path xs hp _ ih =>
    cases fuel with
    | zero => omega
    | succ fuel =>
      rw [List.length_cons] at hfuel
      unfold iterKeyFrom
      rw [hp]
      simp only [Option.bind_eq_bind, Option.bind_some, ih (Nat.lt_of_succ_lt_succ hfuel)]
      by_cases hk : keys.equalsFunc key e.1 = true <;> simp [hk]

/-- `ht-get` answers what `ht-contains` puts out. -/
theorem getFrom_eq (key : α) (fuel : Nat) (start : Option Nat) :
    getFrom keys key cells fuel start = (containsFrom keys key cells fuel start).join := by
  induction fuel generalizing start with
  | zero => rfl
  | succ fuel ih =>
    cases start with
    | none => rfl
    | some p =>
      unfold getFrom containsFrom
      cases cells[p]? with
      | none => rfl
      | some node =>
        simp only [Option.bind_eq_bind, Option.bind_some]
        split
        · rfl
        · exact ih node.cdr

theorem listIter_eq {start : Option Nat} {path : List Nat} {xs : List (α × β)}
    (h : Chain cells start path xs) {fuel : Nat} (hfuel : path.length < fuel) :
    listIter cells fuel start = some xs := by
  induction h generalizing fuel with
  | nil =>
    cases fuel with
    | zero => omega
    | succ fuel => rfl
  | @cons p e next path xs hp _ ih =>
    cases fuel with
    | zero => omega
    | succ fuel =>
      rw [List.length_cons] at hfuel
      unfold listIter
      rw [hp]
      simp only [Option.bind_eq_bind, Option.bind_some, ih (Nat.lt_of_succ_lt_succ hfuel)]

end

/-- Where a walk from `r` along some cells is. -/
def endRef (r : Ref) (path : List Nat) : Ref := path.foldl (fun _ p => .cdr p) r

theorem endRef_append (r : Ref) (path : List Nat) (p : Nat) :
    endRef r (path ++ [p]) = .cdr p := by
  unfold endRef
  rw [List.foldl_append]
  rfl

theorem appendList_eq (snd : Option Nat) {m : Store α β} {r : Ref} {path : List Nat}
    {xs : List (α × β)} (h : Chain m.cells (m.get r) path xs) {fuel : Nat}
    (hfuel : path.length < fuel) : appendList snd fuel r m = some (m.set snd (endRef r path)) := by
  induction path generalizing r xs fuel with
  | nil =>
    cases fuel with
    | zero => omega
    | succ fuel =>
      generalize hr : m.get r = start at h
      cases h
      unfold appendList
      rw [hr]
      rfl
  | cons p path ih =>
    cases fuel with
    | zero => omega
    | succ fuel =>
      rw [List.length_cons] at hfuel
      generalize hr : m.get r = start at h
      cases h with
      | @cons _ _ _ _ xs hp h =>
        have hget : Chain m.cells (m.get (.cdr p)) path xs := by
          show Chain m.cells (m.cells[p]?.bind Cell.cdr) path xs
          rw [hp]
          exact h
        unfold appendList
        rw [hr]
        exact ih hget (Nat.lt_of_succ_lt_succ hfuel)

/-- The removal takes the first node with an equal key out of the walk, or there is none. -/
theorem removeFrom_cases (keys : Keys α) (key : α) {m : Store α β} {r : Ref} {path : List Nat}
    {xs : List (α × β)} (h : Chain m.cells (m.get r) path xs) {fuel : Nat}
    (hfuel : path.length < fuel) :
    (∀ e ∈ xs, keys.equalsFunc key e.1 = false) ∧
        removeFrom keys key fuel r m = some (m, false) ∨
      ∃ pre p post next ys e zs, path = pre ++ p :: post ∧ xs = ys ++ e :: zs ∧
        pre.length = ys.length ∧ (∀ d ∈ ys, keys.equalsFunc key d.1 = false) ∧
        keys.equalsFunc key e.1 = true ∧ Chain m.cells next post zs ∧
        removeFrom keys key fuel r m = some (m.set next (endRef r pre), true) := by
  induction path generalizing r xs fuel with
  | nil =>
    cases fuel with
    | zero => omega
    | succ fuel =>
      generalize hr : m.get r = start at h
      cases h
      left
      refine ⟨fun e he => absurd he List.not_mem_nil, ?_⟩
      unfold removeFrom
      rw [hr]
  | cons p path ih =>
    cases fuel with
    | zero => omega
    | succ fuel =>
      rw [List.length_cons] at hfuel
      generalize hr : m.get r = start at h
      cases h with
      | @cons _ e next _ xs hp h =>
        have hremove : removeFrom keys key (fuel + 1) r m =
            if keys.equalsFunc key e.1 then some (m.set next r, true)
            else removeFrom keys key fuel (.cdr p) m := by
          rw [removeFrom, hr]
          simp only [hp, Option.bind_eq_bind, Option.bind_some]
        by_cases hk : keys.equalsFunc key e.1 = true
        · right
          refine ⟨[], p, path, next, [], e, xs, rfl, rfl, rfl, ?_, hk, h, ?_⟩
          · exact fun d hd => absurd hd List.not_mem_nil
          · rw [hremove, if_pos hk]
            rfl
        · have hget : Chain m.cells (m.get (.cdr p)) path xs := by
            show Chain m.cells (m.cells[p]?.bind Cell.cdr) path xs
            rw [hp]
            exact h
          rw [hremove, if_neg hk]
          rw [Bool.not_eq_true] at hk
          rcases ih hget (Nat.lt_of_succ_lt_succ hfuel) with
            ⟨hnone, heq⟩ | ⟨pre, q, post, next', ys, d, zs, rfl, rfl, hlen, hys, hd, hchain, heq⟩
          · left
            refine ⟨?_, heq⟩
            intro d hd
            rcases List.mem_cons.mp hd with rfl | hd
            · exact hk
            · exact hnone d hd
          · right
            refine ⟨p :: pre, q, post, next', e :: ys, d, zs, rfl, rfl, ?_, ?_, hd, hchain, heq⟩
            · rw [List.length_cons, List.length_cons, hlen]
            · intro c hc
              rcases List.mem_cons.mp hc with rfl | hc
              · exact hk
              · exact hys c hc

/-! ## The buckets as chains -/

/-- The lists that a function works on: the buckets, and those still to be moved. -/
def heads (values : List (Option Nat)) (pending : Nat → Option Nat) : Nat ⊕ Nat → Option Nat :=
  Sum.elim (fun i => values[i]?.join) pending

theorem heads_set {values : List (Option Nat)} {i : Nat} (hi : i < values.length)
    (x : Option Nat) (pending : Nat → Option Nat) :
    heads (values.set i x) pending = Function.update (heads values pending) (.inl i) x := by
  funext k
  cases k with
  | inl j =>
    show (values.set i x)[j]?.join = _
    rw [Function.update_apply, List.getElem?_set]
    by_cases hj : i = j
    · subst hj
      rw [if_pos rfl, if_pos hi, if_pos rfl]
      rfl
    · have hne : (Sum.inl j : Nat ⊕ Nat) ≠ .inl i := fun heq => hj (Sum.inl.inj heq).symm
      rw [if_neg hj, if_neg hne]
      rfl
  | inr j =>
    rw [Function.update_of_ne (by simp)]
    rfl

variable {m : Store α β} {pending : Nat → Option Nat} {paths : Nat ⊕ Nat → List Nat}
variable {contents : Nat ⊕ Nat → List (α × β)}

/-- The reference behind the first cells of a bucket is set. -/
theorem holds_set (h : Holds m.cells (heads m.values pending) paths contents) {i : Nat}
    (hi : i < m.values.length) {pre post : List Nat} (hpath : paths (.inl i) = pre ++ post)
    {next : Option Nat} {path : List Nat} {ys : List (α × β)}
    (hchain : Chain m.cells next path ys) (hnodup : (pre ++ path).Nodup)
    (hapart : ∀ p ∈ path, ∀ k, p ∈ paths k → k = .inl i) :
    Holds (m.set next (endRef (.bucket i) pre)).cells
      (heads (m.set next (endRef (.bucket i) pre)).values pending)
      (Function.update paths (.inl i) (pre ++ path))
      (Function.update contents (.inl i) ((contents (.inl i)).take pre.length ++ ys)) := by
  rcases List.eq_nil_or_concat pre with rfl | ⟨pre, q, rfl⟩
  · show Holds m.cells (heads (m.values.set i next) pending) _ _
    rw [heads_set hi]
    exact h.setHead (.inl i) hchain hnodup hapart
  · rw [List.concat_eq_append] at hpath hnodup ⊢
    rw [endRef_append, List.length_append, List.length_singleton, List.append_assoc]
    rw [List.append_assoc] at hpath hnodup
    exact h.setCdr hpath hchain hnodup hapart

@[simp] theorem length_cells_set (x : Option Nat) (r : Ref) :
    (m.set x r).cells.length = m.cells.length := by
  cases r with
  | bucket i => rfl
  | cdr p => exact Memory.length_setCdr p x m.cells

@[simp] theorem length_values_set (x : Option Nat) (r : Ref) :
    (m.set x r).values.length = m.values.length := by
  cases r with
  | bucket i => exact List.length_set
  | cdr p => rfl

/-- The walk through a bucket may go on to its end. -/
theorem lt_fuel (h : Holds m.cells (heads m.values pending) paths contents) (k : Nat ⊕ Nat) :
    (paths k).length < m.fuel :=
  Nat.lt_succ_of_le ((h.chain k).length_le (h.nodup k))

/-- `append-list` on a bucket, with one node that is in no list. -/
theorem holds_appendList (h : Holds m.cells (heads m.values pending) paths contents) {i : Nat}
    (hi : i < m.values.length) {p : Nat} {e : α × β} (hp : m.cells[p]? = some ⟨e, none⟩)
    (hfree : ∀ k, p ∉ paths k) :
    ∃ m', appendList (some p) m.fuel (.bucket i) m = some m' ∧
      m'.values.length = m.values.length ∧
      Holds m'.cells (heads m'.values pending)
        (Function.update paths (.inl i) (paths (.inl i) ++ [p]))
        (Function.update contents (.inl i) (contents (.inl i) ++ [e])) := by
  have hset := holds_set h hi
    (show paths (.inl i) = paths (.inl i) ++ [] from (List.append_nil _).symm) (.cons hp .nil)
    (List.nodup_append.mpr ⟨h.nodup _, List.nodup_singleton p, by
      intro q hq q' hq' heq
      rw [List.mem_singleton.mp hq'] at heq
      exact hfree _ (heq ▸ hq)⟩)
    (by
      intro q hq k hk
      rw [List.mem_singleton.mp hq] at hk
      exact absurd hk (hfree k))
  rw [(h.chain (.inl i)).length_eq, List.take_length] at hset
  refine ⟨_, appendList_eq (some p) (h.chain (.inl i)) (lt_fuel h _), ?_, hset⟩
  exact length_values_set _ _

/-! ## Resizing -/

theorem heads_update (values : List (Option Nat)) (pending : Nat → Option Nat) (j : Nat)
    (x : Option Nat) :
    heads values (Function.update pending j x) =
      Function.update (heads values pending) (.inr j) x := by
  funext k
  cases k with
  | inl i =>
    rw [Function.update_of_ne (by simp)]
    rfl
  | inr l =>
    show Function.update pending j x l = _
    by_cases hl : l = j
    · subst hl
      rw [Function.update_self, Function.update_self]
    · rw [Function.update_of_ne hl, Function.update_of_ne (by simpa using hl)]
      rfl

/-- The associations of some that go to the bucket `i`. -/
def ofBucket (keys : Keys α) (n i : Nat) (xs : List (α × β)) : List (α × β) :=
  xs.filter fun e => keys.hashFunc e.1 % n = i

/-- What the lists hold after those of `j` have been moved. -/
def moved (keys : Keys α) (n j : Nat) (contents : Nat ⊕ Nat → List (α × β)) :
    Nat ⊕ Nat → List (α × β)
  | .inl i => contents (.inl i) ++ ofBucket keys n i (contents (.inr j))
  | .inr l => if l = j then [] else contents (.inr l)

/-- One association more has been moved. -/
theorem moved_cons (keys : Keys α) (n j : Nat) (e : α × β) (es : List (α × β))
    (h : contents (.inr j) = e :: es) :
    moved keys n j (Function.update (Function.update contents (.inr j) es)
        (.inl (keys.hashFunc e.1 % n)) (contents (.inl (keys.hashFunc e.1 % n)) ++ [e])) =
      moved keys n j contents := by
  funext k
  cases k with
  | inl i =>
    have hj : Function.update (Function.update contents (.inr j) es)
        (.inl (keys.hashFunc e.1 % n)) (contents (.inl (keys.hashFunc e.1 % n)) ++ [e])
        (.inr j) = es := by
      rw [Function.update_of_ne (by simp), Function.update_self]
    show _ ++ ofBucket keys n i _ = contents (.inl i) ++ ofBucket keys n i (contents (.inr j))
    rw [hj, h]
    unfold ofBucket
    by_cases hi : keys.hashFunc e.1 % n = i
    · subst hi
      simp
    · have hne : (Sum.inl i : Nat ⊕ Nat) ≠ .inl (keys.hashFunc e.1 % n) :=
        fun heq => hi (Sum.inl.inj heq).symm
      rw [Function.update_of_ne hne, Function.update_of_ne (by simp)]
      simp [hi]
  | inr l =>
    show (if l = j then [] else _) = if l = j then [] else _
    by_cases hl : l = j
    · rw [if_pos hl, if_pos hl]
    · have hne : (Sum.inr l : Nat ⊕ Nat) ≠ .inr j := fun heq => hl (Sum.inr.inj heq)
      rw [if_neg hl, if_neg hl, Function.update_of_ne (by simp), Function.update_of_ne hne]

/-- The loop over a bucket puts its associations behind those of the new buckets. -/
theorem moveNode_holds (keys : Keys α) (j : Nat) (xs : List (α × β))
    (h : Holds m.cells (heads m.values pending) paths contents) (hpos : 0 < m.values.length)
    (hxs : contents (.inr j) = xs) {fuel : Nat} (hfuel : xs.length < fuel) :
    ∃ m' paths', moveNode keys m.values.length fuel (pending j) m = some m' ∧
      m'.values.length = m.values.length ∧
      Holds m'.cells (heads m'.values (Function.update pending j none)) paths'
        (moved keys m.values.length j contents) := by
  induction xs generalizing m pending paths contents fuel with
  | nil =>
    cases fuel with
    | zero => omega
    | succ fuel =>
      have hchain := h.chain (.inr j)
      rw [hxs] at hchain
      change Chain _ (pending j) _ _ at hchain
      generalize hj : pending j = start at hchain
      generalize paths (.inr j) = path at hchain
      cases hchain
      refine ⟨m, paths, rfl, rfl, ?_⟩
      have hpending : Function.update pending j none = pending := by
        rw [← hj, Function.update_eq_self]
      have hmoved : moved keys m.values.length j contents = contents := by
        funext k
        cases k with
        | inl i => simp [moved, ofBucket, hxs]
        | inr l =>
          by_cases hl : l = j
          · subst hl
            simp [moved, hxs]
          · simp [moved, hl]
      rw [hpending, hmoved]
      exact h
  | cons e es ih =>
    cases fuel with
    | zero => omega
    | succ fuel =>
      have hchain := h.chain (.inr j)
      rw [hxs] at hchain
      change Chain _ (pending j) _ _ at hchain
      generalize hj : pending j = start at hchain
      generalize hpath : paths (.inr j) = path at hchain
      cases hchain with
      | @cons p _ next path _ hp hchain =>
        have hnodup := h.nodup (.inr j)
        rw [hpath, List.nodup_cons] at hnodup
        -- the node is taken out of the list that is gone through
        have htaken := h.setHead (.inr j) hchain hnodup.2 (by
          intro q hq k hk
          exact h.apart k (.inr j) q hk (by rw [hpath]; exact List.mem_cons_of_mem p hq))
        have hfree : ∀ k, p ∉ Function.update paths (.inr j) path k := by
          intro k hk
          rw [Function.update_apply] at hk
          split at hk
          · exact hnodup.1 hk
          · rename_i hne
            exact hne (h.apart k (.inr j) p hk (by rw [hpath]; exact List.mem_cons_self))
        rw [← heads_update] at htaken
        have hcut : Holds (m.set none (.cdr p)).cells (heads (m.set none (.cdr p)).values
            (Function.update pending j next)) (Function.update paths (.inr j) path)
            (Function.update contents (.inr j) es) := htaken.setCdr_free hfree none
        -- and put at the end of its new bucket
        have hlt : keys.hashFunc e.1 % m.values.length < m.values.length := Nat.mod_lt _ hpos
        obtain ⟨m₁, hm₁, hlength, hput⟩ := holds_appendList hcut hlt
          (Memory.getElem?_setCdr_self hp none) hfree
        have hpos₁ : 0 < m₁.values.length := by
          rw [hlength]
          exact hpos
        have hes : Function.update (Function.update contents (.inr j) es)
            (.inl (keys.hashFunc e.1 % m.values.length))
            (Function.update contents (.inr j) es
              (.inl (keys.hashFunc e.1 % m.values.length)) ++ [e]) (.inr j) = es := by
          rw [Function.update_of_ne (by simp), Function.update_self]
        obtain ⟨m', paths', hm', hlength', hholds⟩ := ih hput hpos₁ hes
          (Nat.lt_of_succ_lt_succ hfuel)
        have hvalues : m₁.values.length = m.values.length := hlength
        rw [hvalues] at hm' hlength' hholds
        rw [Function.update_self] at hm'
        refine ⟨m', paths', ?_, hlength', ?_⟩
        · unfold moveNode
          rw [hp]
          simp only [Option.bind_eq_bind, Option.bind_some]
          rw [hm₁]
          exact hm'
        · rw [Function.update_idem, Function.update_of_ne (by simp),
            moved_cons keys _ j e es hxs] at hholds
          exact hholds

/-- The loop over the buckets moves the lists of all of them, in their order. -/
theorem moveNodes_holds (keys : Keys α) (values : List (Option Nat))
    (h : Holds m.cells (heads m.values fun j => values[j]?.join) paths contents)
    (hpos : 0 < m.values.length) :
    ∃ m' paths', moveNodes keys m.values.length values m = some m' ∧
      m'.values.length = m.values.length ∧
      Holds m'.cells (heads m'.values fun _ => none) paths' (Sum.elim
        (fun i => contents (.inl i) ++ (List.range values.length).flatMap
          fun j => ofBucket keys m.values.length i (contents (.inr j)))
        fun _ => []) := by
  induction values generalizing m paths contents with
  | nil =>
    refine ⟨m, paths, rfl, rfl, ?_⟩
    have hcontents : (Sum.elim (fun i => contents (.inl i) ++ (List.range 0).flatMap
        fun j => ofBucket keys m.values.length i (contents (.inr j))) fun _ => []) = contents := by
      funext k
      cases k with
      | inl i => simp
      | inr j =>
        have hchain := h.chain (.inr j)
        change Chain m.cells none _ _ at hchain
        generalize contents (.inr j) = xs at hchain
        generalize paths (.inr j) = path at hchain
        cases hchain
        rfl
    rw [List.length_nil, hcontents]
    exact h
  | cons bucket values ih =>
    obtain ⟨m₁, paths₁, hm₁, hlength₁, hholds₁⟩ := moveNode_holds keys 0 _ h hpos rfl
      (Nat.lt_of_le_of_lt (Nat.le_of_eq (h.chain (.inr 0)).length_eq.symm) (lt_fuel h (.inr 0)))
    -- the other buckets get the numbers that they have in the rest of the list
    have hshift := hholds₁.comap (f := Sum.map id Nat.succ)
      (Function.injective_id.sumMap fun _ _ heq => Nat.succ.inj heq)
    have hheads : (fun k => heads m₁.values
        (Function.update (fun j => (bucket :: values)[j]?.join) 0 none) (Sum.map id Nat.succ k)) =
        heads m₁.values fun j => values[j]?.join := by
      funext k
      cases k with
      | inl i => rfl
      | inr j =>
        show Function.update (fun j => (bucket :: values)[j]?.join) 0 none (j + 1) = _
        rw [Function.update_of_ne (Nat.succ_ne_zero j)]
        rfl
    rw [hheads] at hshift
    obtain ⟨m', paths', hm', hlength', hholds'⟩ := ih hshift (by rw [hlength₁]; exact hpos)
    rw [hlength₁] at hm' hlength' hholds'
    refine ⟨m', paths', ?_, hlength', ?_⟩
    · unfold moveNodes
      have hm₁' : moveNode keys m.values.length m.fuel bucket m = some m₁ := hm₁
      rw [hm₁']
      exact hm'
    · have hcontents : ∀ i, contents (.inl i) ++ (List.range (bucket :: values).length).flatMap
          (fun j => ofBucket keys m.values.length i (contents (.inr j))) =
          contents (.inl i) ++ ofBucket keys m.values.length i (contents (.inr 0)) ++
            (List.range values.length).flatMap
              fun j => ofBucket keys m.values.length i (contents (.inr (j + 1))) := by
        intro i
        rw [List.length_cons, List.range_succ_eq_map, List.flatMap_cons, List.flatMap_map,
          List.append_assoc]
      simp only [hcontents]
      exact hholds'

/-! ## Tables and lists of associations -/

/-- The buckets of a table hold a list of associations. -/
def Buckets (keys : Keys α) (m : Store α β) (l : List (α × β)) : Prop :=
  ∃ paths, Holds m.cells (heads m.values fun _ => none) paths
    (Sum.elim (fun i => ofBucket keys m.values.length i l) fun _ => [])

theorem flatMap_single {γ : Type} {ks : List Nat} (hnodup : ks.Nodup) {k : Nat} (hk : k ∈ ks)
    (l : List γ) : ks.flatMap (fun j => if j = k then l else []) = l := by
  induction ks with
  | nil => exact absurd hk List.not_mem_nil
  | cons j ks ih =>
    rw [List.nodup_cons] at hnodup
    rw [List.flatMap_cons]
    by_cases hjk : j = k
    · subst hjk
      have hrest : ks.flatMap (fun i => if i = j then l else []) = [] := by
        rw [List.flatMap_eq_nil_iff]
        intro i hi
        rw [if_neg]
        rintro rfl
        exact hnodup.1 hi
      rw [if_pos rfl, hrest, List.append_nil]
    · rw [if_neg hjk, List.nil_append]
      exact ih hnodup.2 ((List.mem_cons.mp hk).resolve_left (Ne.symm hjk))

/-- What goes to a bucket of the new table comes from one bucket of the old one. -/
theorem flatMap_ofBucket (keys : Keys α) {n : Nat} (hpos : 0 < n) (factor i : Nat)
    (l : List (α × β)) :
    (List.range n).flatMap (fun j => ofBucket keys (n * factor) i (ofBucket keys n j l)) =
      ofBucket keys (n * factor) i l := by
  have hone : ∀ j, ofBucket keys (n * factor) i (ofBucket keys n j l) =
      if j = i % n then ofBucket keys (n * factor) i l else [] := by
    intro j
    have hmod : ∀ e : α × β, keys.hashFunc e.1 % (n * factor) = i →
        keys.hashFunc e.1 % n = i % n := by
      rintro e rfl
      rw [Nat.mod_mul_right_mod]
    unfold ofBucket
    rw [List.filter_filter]
    split
    · rename_i hj
      apply List.filter_congr
      intro e _
      rw [Bool.and_eq_left_iff_imp]
      intro he
      rw [decide_eq_true_eq] at he ⊢
      rw [hj, hmod e he]
    · rename_i hj
      rw [List.filter_eq_nil_iff]
      intro e _ he
      rw [Bool.and_eq_true, decide_eq_true_eq, decide_eq_true_eq] at he
      exact hj (he.2.symm.trans (hmod e he.1))
  simp only [hone]
  exact flatMap_single List.nodup_range (List.mem_range.mpr (Nat.mod_lt _ hpos)) _

/-- `ht-resize` keeps what the buckets hold. -/
theorem htResize_buckets (keys : Keys α) {ht : Table α β} {l : List (α × β)}
    (h : Buckets keys ht.toStore l) (hpos : 0 < ht.values.length) :
    ∃ ht', htResize keys ht = some ht' ∧ Buckets keys ht'.toStore l ∧
      ht'.elementCount = ht.elementCount ∧
      ht'.values.length =
        if ht.elementCount * htLoadFactorDen > ht.values.length * htLoadFactorNum
        then ht.values.length * htResizeFactor else ht.values.length := by
  unfold htResize
  by_cases hload : ht.elementCount * htLoadFactorDen > ht.values.length * htLoadFactorNum
  · rw [if_pos hload, if_pos hload]
    obtain ⟨paths, hholds⟩ := h
    let new : Store α β := ⟨ht.cells, List.replicate (ht.values.length * htResizeFactor) none⟩
    have hnew : new.values.length = ht.values.length * htResizeFactor := List.length_replicate
    -- the new buckets are empty, and the old ones are what is to be moved
    have hstart : Holds new.cells (heads new.values fun j => ht.values[j]?.join)
        (Sum.elim (fun _ => []) fun j => paths (.inl j))
        (Sum.elim (fun _ => []) fun j => ofBucket keys ht.values.length j l) := by
      refine ⟨?_, ?_, ?_⟩
      · rintro (i | j)
        · show Chain ht.cells (List.replicate _ none)[i]?.join [] []
          rw [List.getElem?_replicate]
          split <;> exact .nil
        · exact hholds.chain (.inl j)
      · rintro (i | j)
        · exact List.nodup_nil
        · exact hholds.nodup (.inl j)
      · rintro (i | j) (i' | j') p hp hp'
        · exact absurd hp List.not_mem_nil
        · exact absurd hp List.not_mem_nil
        · exact absurd hp' List.not_mem_nil
        · rw [Sum.inl.inj (hholds.apart (.inl j) (.inl j') p hp hp')]
    obtain ⟨m', paths', hm', hlength', hholds'⟩ := moveNodes_holds keys ht.values hstart (by
      rw [hnew]
      exact Nat.mul_pos hpos (by decide))
    rw [hnew] at hm' hlength' hholds'
    refine ⟨⟨m', ht.elementCount⟩, ?_, ⟨paths', ?_⟩, rfl, hlength'⟩
    · show (moveNodes keys _ ht.values new).bind _ = _
      rw [hm']
      rfl
    · show Holds m'.cells _ paths' (Sum.elim (fun i => ofBucket keys m'.values.length i l) _)
      rw [hlength']
      simp only [Sum.elim_inl, Sum.elim_inr, List.nil_append,
        flatMap_ofBucket keys hpos htResizeFactor] at hholds'
      exact hholds'
  · rw [if_neg hload, if_neg hload]
    exact ⟨ht, rfl, h, rfl, rfl⟩

end L2.SelfHost.HashMemory
