import L2.Memory.Chains
import L2.SelfHost.HashTable

/-!
# Hash tables in memory

The buckets of a table are linked lists, and `ht-resize` moves their nodes to the new
buckets one by one, without making new ones.  Every operation walks through cells of the
memory; a walk is given as many steps as there are cells and one more.
-/

namespace L2.SelfHost

open Memory (Cell Chain Holds)

/-- The functions that `ht-create` is given. -/
structure Keys (α : Type) where
  hashFunc : α → Nat
  equalsFunc : α → α → Bool
  refl : ∀ k, equalsFunc k k = true
  symm : ∀ k l, equalsFunc k l = true → equalsFunc l k = true
  trans : ∀ k l m, equalsFunc k l = true → equalsFunc l m = true → equalsFunc k m = true
  respects : ∀ k l, equalsFunc k l = true → hashFunc k = hashFunc l

/-- Keys that are equal if they are the same, as the strings for `str=` and the pointers
for `=`. -/
def Keys.ofEq {α : Type} [DecidableEq α] (hashFunc : α → Nat) : Keys α where
  hashFunc := hashFunc
  equalsFunc k l := k = l
  refl _ := decide_eq_true rfl
  symm _ _ h := decide_eq_true (of_decide_eq_true h).symm
  trans _ _ _ h h' := decide_eq_true ((of_decide_eq_true h).trans (of_decide_eq_true h'))
  respects _ _ h := congrArg hashFunc (of_decide_eq_true h)

/-- `hash-ptr` -/
def hashPtr (ptr : BitVec 64) : Nat := ptr.toNat

namespace HashMemory

variable {α β : Type}

/-- Where a list is referred to from. -/
inductive Ref where
  | bucket (i : Nat)
  | cdr (p : Nat)

/-- The cells, and the array of the buckets that a function works on. -/
structure Store (α β : Type) where
  cells : List (Cell (α × β))
  values : List (Option Nat)

namespace Store

def get (m : Store α β) : Ref → Option Nat
  | .bucket i => m.values[i]?.join
  | .cdr p => m.cells[p]?.bind Cell.cdr

def set (m : Store α β) (x : Option Nat) : Ref → Store α β
  | .bucket i => { m with values := m.values.set i x }
  | .cdr p => { m with cells := Memory.setCdr p x m.cells }

end Store

/-- `hash-table-struct` -/
structure Table (α β : Type) extends Store α β where
  elementCount : Nat

/-- The steps that a walk may take. -/
def Store.fuel (m : Store α β) : Nat := m.cells.length + 1

/-- `append-list` -/
def appendList (snd : Option Nat) : Nat → Ref → Store α β → Option (Store α β)
  | 0, _, _ => none
  | fuel + 1, fstRef, m =>
    match m.get fstRef with
    | none => some (m.set snd fstRef)
    | some p => appendList snd fuel (.cdr p) m

/-- `prepend` -/
def prepend (data : α × β) (lRef : Ref) (m : Store α β) : Store α β :=
  let ret := m.cells.length
  let m : Store α β := { m with cells := m.cells ++ [⟨data, m.get lRef⟩] }
  m.set (some ret) lRef

variable (keys : Keys α)

def htCreate : Table α β where
  cells := []
  values := List.replicate htInitialBucketCount none
  elementCount := 0

/-- The loop `move-node` of `ht-resize`. -/
def moveNode (newBucketCount : Nat) : Nat → Option Nat → Store α β → Option (Store α β)
  | 0, _, _ => none
  | _ + 1, none, m => some m
  | fuel + 1, some bucket, m => do
    let node ← m.cells[bucket]?
    let newBucketIdx := keys.hashFunc node.car.1 % newBucketCount
    let m := m.set none (.cdr bucket)
    let m ← appendList (some bucket) m.fuel (.bucket newBucketIdx) m
    moveNode newBucketCount fuel node.cdr m

/-- The loop of `ht-resize` over the buckets. -/
def moveNodes (newBucketCount : Nat) : List (Option Nat) → Store α β → Option (Store α β)
  | [], m => some m
  | bucket :: values, m => do
    let m ← moveNode keys newBucketCount m.fuel bucket m
    moveNodes newBucketCount values m

def htResize (ht : Table α β) : Option (Table α β) :=
  if ht.elementCount * htLoadFactorDen > ht.values.length * htLoadFactorNum then do
    let newBucketCount := ht.values.length * htResizeFactor
    let newValues := List.replicate newBucketCount none
    let m ← moveNodes keys newBucketCount ht.values ⟨ht.cells, newValues⟩
    some ⟨m, ht.elementCount⟩
  else some ht

def bucketIdx (key : α) (ht : Table α β) : Nat := keys.hashFunc key % ht.values.length

def htPut (key : α) (value : β) (ht : Table α β) : Option (Table α β) :=
  htResize keys
    ⟨prepend (key, value) (.bucket (bucketIdx keys key ht)) ht.toStore, ht.elementCount + 1⟩

/-- The loop `find-end` of `ht-contains`: what it puts out, if it answers true. -/
def containsFrom (key : α) (cells : List (Cell (α × β))) : Nat → Option Nat → Option (Option β)
  | 0, _ => none
  | _ + 1, none => some none
  | fuel + 1, some bucket => do
    let node ← cells[bucket]?
    if keys.equalsFunc key node.car.1 then some (some node.car.2)
    else containsFrom key cells fuel node.cdr

def htContains (key : α) (ht : Table α β) : Option (Option β) :=
  containsFrom keys key ht.cells ht.fuel (ht.get (.bucket (bucketIdx keys key ht)))

/-- The loop `find-end` of `ht-get`.  There is no answer at the end of the bucket. -/
def getFrom (key : α) (cells : List (Cell (α × β))) : Nat → Option Nat → Option β
  | 0, _ => none
  | _ + 1, none => none
  | fuel + 1, some bucket => do
    let node ← cells[bucket]?
    if keys.equalsFunc key node.car.1 then some node.car.2 else getFrom key cells fuel node.cdr

def htGet (key : α) (ht : Table α β) : Option β :=
  getFrom keys key ht.cells ht.fuel (ht.get (.bucket (bucketIdx keys key ht)))

/-- The loop `find-end` of `ht-iter-key`, with the values that it hands out. -/
def iterKeyFrom (key : α) (cells : List (Cell (α × β))) : Nat → Option Nat → Option (List β)
  | 0, _ => none
  | _ + 1, none => some []
  | fuel + 1, some bucket => do
    let node ← cells[bucket]?
    let rest ← iterKeyFrom key cells fuel node.cdr
    some (if keys.equalsFunc key node.car.1 then node.car.2 :: rest else rest)

def htIterKey (key : α) (ht : Table α β) : Option (List β) :=
  iterKeyFrom keys key ht.cells ht.fuel (ht.get (.bucket (bucketIdx keys key ht)))

/-- The loop `find-end` of `ht-remove`, and whether it has removed an association. -/
def removeFrom (key : α) : Nat → Ref → Store α β → Option (Store α β × Bool)
  | 0, _, _ => none
  | fuel + 1, bucket, m =>
    match m.get bucket with
    | none => some (m, false)
    | some p => do
      let node ← m.cells[p]?
      if keys.equalsFunc key node.car.1 then some (m.set node.cdr bucket, true)
      else removeFrom key fuel (.cdr p) m

def htRemove (key : α) (ht : Table α β) : Option (Table α β) := do
  let (m, removed) ← removeFrom keys key ht.fuel (.bucket (bucketIdx keys key ht)) ht.toStore
  some ⟨m, if removed then ht.elementCount - 1 else ht.elementCount⟩

def htRemoveall (ht : Table α β) : Table α β :=
  (List.range ht.values.length).foldl
    (fun ht bucketIdx => ⟨ht.set none (.bucket bucketIdx), 0⟩) ht

/-- `list-iter` on a bucket. -/
def listIter (cells : List (Cell (α × β))) : Nat → Option Nat → Option (List (α × β))
  | 0, _ => none
  | _ + 1, none => some []
  | fuel + 1, some p => do
    let node ← cells[p]?
    let rest ← listIter cells fuel node.cdr
    some (node.car :: rest)

/-- `ht-iter`: the associations in the order of the buckets. -/
def htIter (ht : Table α β) : Option (List (α × β)) := do
  let buckets ← ht.values.mapM (listIter ht.cells ht.fuel)
  some buckets.flatten

end HashMemory

end L2.SelfHost
