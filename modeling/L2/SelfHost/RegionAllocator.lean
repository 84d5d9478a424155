import Mathlib.Data.Nat.Basic
import Mathlib.Logic.Function.Basic
import Mathlib.Data.List.Forall2

/-!
# The region allocator

A region is a chain of elements that `mmap` has answered, each with a header of 48 bytes.
`region-alloc` takes memory from the last element, or from a new one when there is no room,
and `region-free` walks back from the last element to the one that the reference is in.

Addresses are numbers, as sizes do not wrap, and a field of a header is at the address of its
first byte.  What `mmap` answers is a parameter of the operations.
-/

namespace L2.SelfHost.RegionAllocator

structure Machine where
  mem : Nat → Nat
  mapped : Nat → Bool

namespace Machine

variable (m : Machine) (e : Nat)

def set (a : Nat) (v : Nat) : Machine := { m with mem := Function.update m.mem a v }

def prevElt : Nat := m.mem e
def nextElt : Nat := m.mem (e + 8)
def lastElt : Nat := m.mem (e + 16)
def currPos : Nat := m.mem (e + 24)
def endPos : Nat := m.mem (e + 32)

def setPrevElt (v : Nat) : Machine := m.set e v
def setNextElt (v : Nat) : Machine := m.set (e + 8) v
def setLastElt (v : Nat) : Machine := m.set (e + 16) v
def setCurrPos (v : Nat) : Machine := m.set (e + 24) v
def setEndPos (v : Nat) : Machine := m.set (e + 32) v
def setMagicDbg (v : Nat) : Machine := m.set (e + 40) v

/-- `mmap`, which answers `a`. -/
def mmap (a len : Nat) : Machine :=
  { m with mapped := fun x => (a ≤ x && x < a + len) || m.mapped x }

def munmap (ptr len : Nat) : Machine :=
  { m with mapped := fun x => m.mapped x && !(ptr ≤ x && x < ptr + len) }

/-- What `mmap` may answer: pages of which nothing is mapped. -/
def Fresh (a len : Nat) : Prop := 4096 ∣ a ∧ ∀ x, a ≤ x → x < a + len → m.mapped x = false

end Machine

def padSize (x nearest : Nat) : Nat :=
  let r := x % nearest
  x + if r ≠ 0 then nearest - r else 0

abbrev regionElement : Nat := 48
abbrev allocAlignment : Nat := 8
abbrev pageSize : Nat := 4096

/-- The length of the element that a region of some capacity begins with. -/
def elementLength (minCapacity : Nat) : Nat :=
  padSize (max (minCapacity + regionElement) 1048576) pageSize

variable (nullElement : Nat)

/-- `create-region`, which answers `reg` as `mmap` does. -/
def createRegion (minCapacity : Nat) (reg : Nat) (m : Machine) : Machine :=
  let len := elementLength minCapacity
  let m := m.mmap reg len
  let m := m.setNextElt reg nullElement
  let m := m.setPrevElt reg nullElement
  let m := m.setLastElt reg reg
  let m := m.setCurrPos reg (reg + regionElement)
  let m := m.setEndPos reg (reg + len)
  m.setMagicDbg reg 0xDEADBEEFDEADBEEF

/-- There is no room for `len` bytes in the last element of the region. -/
def isFull (len : Nat) (reg : Nat) (m : Machine) : Bool :=
  m.currPos (m.lastElt reg) + padSize len allocAlignment > m.endPos (m.lastElt reg)

/-- The last element of the region after it has grown if it has to, where `mmap` answers
`newElt`. -/
def growRegion (len : Nat) (reg newElt : Nat) (m : Machine) : Nat × Machine :=
  let currLastElt := m.lastElt reg
  if isFull len reg m then
    let m := createRegion nullElement (padSize len allocAlignment) newElt m
    let m := m.setNextElt currLastElt newElt
    let m := m.setLastElt reg newElt
    let m := m.setPrevElt newElt currLastElt
    (newElt, m)
  else (currLastElt, m)

/-- `region-alloc` -/
def regionAlloc (len : Nat) (reg newElt : Nat) (m : Machine) : Nat × Machine :=
  let (newLastElt, m) := growRegion nullElement len reg newElt m
  let len := padSize len allocAlignment
  let m := m.setCurrPos newLastElt (m.currPos newLastElt + len)
  (m.currPos newLastElt - len, m)

/-- The loop `do-free`. -/
def doFree (ref reg : Nat) : Nat → Nat → Machine → Option Machine
  | 0, _, _ => none
  | n + 1, lastElt, m =>
    if lastElt + regionElement ≤ ref ∧ ref ≤ m.endPos lastElt then
      let m := m.setCurrPos lastElt ref
      let m := m.setLastElt reg lastElt
      some (m.setNextElt lastElt nullElement)
    else
      let prevElt := m.prevElt lastElt
      doFree ref reg n prevElt (m.munmap lastElt (m.endPos lastElt - lastElt))

/-- `region-free`, if its loop ends after at most `n` rounds. -/
def regionFree (n : Nat) (ref reg : Nat) (m : Machine) : Option Machine :=
  doFree nullElement ref reg n (m.lastElt reg) m

/-! ## Runs -/

/-- Memory that `region-alloc` has answered. -/
structure Block where
  address : Nat
  length : Nat

def Block.Contains (b : Block) (x : Nat) : Prop := b.address ≤ x ∧ x < b.address + b.length

/-- The machine, and the regions with the blocks that are live in them, the latest first. -/
structure State where
  machine : Machine
  live : List (Nat × List Block)

def State.blocks (s : State) : List Block := s.live.flatMap Prod.snd

/-- A call of an operation of the allocator.  `region-free` is given the reference to a live
block, and ends the life of this one and of those that came after it in the region. -/
inductive Call : State → State → Prop
  | create {s : State} {capacity : Nat} {reg : Nat}
      (hfresh : s.machine.Fresh reg (elementLength capacity)) :
      Call s ⟨createRegion nullElement capacity reg s.machine, (reg, []) :: s.live⟩
  | alloc {m m' : Machine} {before after : List (Nat × List Block)} {reg newElt ref : Nat}
      {blocks : List Block} {len : Nat}
      (hfresh : isFull len reg m → m.Fresh newElt (elementLength (padSize len allocAlignment)))
      (hcall : regionAlloc nullElement len reg newElt m = (ref, m')) :
      Call ⟨m, before ++ (reg, blocks) :: after⟩
        ⟨m', before ++ (reg, ⟨ref, padSize len allocAlignment⟩ :: blocks) :: after⟩
  | free {m m' : Machine} {before after : List (Nat × List Block)} {reg : Nat}
      {later earlier : List Block} {b : Block} {n : Nat}
      (hcall : regionFree nullElement n b.address reg m = some m') :
      Call ⟨m, before ++ (reg, later ++ b :: earlier) :: after⟩
        ⟨m', before ++ (reg, earlier) :: after⟩

/-- A call, or writes of the program to live blocks. -/
inductive Step (s : State) : State → Prop
  | call {s' : State} (hcall : Call nullElement s s') : Step s s'
  | write {mem : Nat → Nat}
      (hwrite : ∀ x, (∀ b ∈ s.blocks, ¬ b.Contains x) → mem x = s.machine.mem x) :
      Step s { s with machine := { s.machine with mem := mem } }

/-- The states that a program gets to that has begun without regions. -/
inductive Reachable : State → Prop
  | start (m : Machine) : Reachable ⟨m, []⟩
  | step {s s' : State} (h : Reachable s) (hstep : Step nullElement s s') : Reachable s'

/-! ## What is promised -/

/-- The elements, from the last one on, are linked to one another, `next` following the first
of them. -/
def Linked (m : Machine) : Nat → List Nat → Prop
  | _, [] => True
  | next, e :: elts =>
    m.nextElt e = next ∧ m.prevElt e = elts.head?.getD nullElement ∧ Linked m e elts

/-- The chain of a region: it ends with the last element that the head knows of and begins
with the head. -/
structure Chain (m : Machine) (reg : Nat) (elts : List Nat) : Prop where
  last : elts.head? = some (m.lastElt reg)
  first : elts.getLast? = some reg
  linked : Linked nullElement m nullElement elts

def Block.Apart (b b' : Block) : Prop :=
  b.address + b.length ≤ b'.address ∨ b'.address + b'.length ≤ b.address

/-- A region with its elements: these are mapped, and the live blocks are aligned and lie
behind the headers of the elements. -/
structure RegionSafe (m : Machine) (region : Nat × List Block) (elts : List Nat) : Prop where
  chain : Chain nullElement m region.1 elts
  positions : ∀ e ∈ elts, e + regionElement ≤ m.currPos e ∧ m.currPos e ≤ m.endPos e
  mapped : ∀ e ∈ elts, ∀ x, e ≤ x → x < m.endPos e → m.mapped x
  blocks : ∀ b ∈ region.2, allocAlignment ∣ b.address ∧
    ∃ e ∈ elts, e + regionElement ≤ b.address ∧ b.address + b.length ≤ m.endPos e

/-- No two elements, no two live blocks and no block and header have an address in common. -/
structure Safe (s : State) : Prop where
  regions : ∃ elements : List (List Nat),
    List.Forall₂ (RegionSafe nullElement s.machine) s.live elements ∧
    elements.flatten.Pairwise (fun e e' => s.machine.endPos e ≤ e' ∨ s.machine.endPos e' ≤ e) ∧
    ∀ e ∈ elements.flatten, ∀ b ∈ s.blocks, b.address + b.length ≤ e ∨ e + regionElement ≤ b.address
  blocks : s.blocks.Pairwise Block.Apart

/-- The blocks that live on hold what they held. -/
def Intact (s s' : State) : Prop :=
  ∀ b ∈ s.blocks, b ∈ s'.blocks → ∀ x, b.Contains x → s'.machine.mem x = s.machine.mem x

end L2.SelfHost.RegionAllocator
