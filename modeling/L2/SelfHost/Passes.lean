import L2.SelfHost.Code

/-!
# The passes before locations are assigned

`classify-program-bindings` says which bindings lie outside of every function,
`assign-expr-is-reads` which are read, `place-perm-bindings` where the buffers of storage
expressions and escaping continuations are, and `assign-depths` numbers the nesting.
-/

namespace L2.SelfHost

open X86 (Word)

def contSize : Nat := 7 * wordSize

def calleeSavedLen : Nat := 5

/-- `n` words as a number of bytes. -/
def words (n : Nat) : Word := BitVec.ofNat 64 (n * wordSize)

/-- `context->memory-storage`, with the offset that goes with it. -/
def memoryStorage (context : BndgContext) (offset : Word) : Storage :=
  match context with
  | .intraFunction => .frameRelative offset
  | .extraFunction => .absolute offset

def setContext (context : BndgContext) (bndg : BndgAug) : BndgAug :=
  { bndg with context := context }

def setIsRead (val : Bool) (bndg : BndgAug) : BndgAug := { bndg with isRead := val }

mutual

def classifyProgramBindings (st : Store) : Code → Store
  | .literal n _ => st.modify (st.bindingAug n) (setContext .extraFunction)
  | .symbol n _ => st.modify (st.bindingAug n) (setContext .extraFunction)
  | .function n _ _ _ => st.modify (st.bindingAug n) (setContext .extraFunction)
  | .constrain n e =>
    classifyProgramBindings (st.modify (st.bindingAug n) (setContext .extraFunction)) e
  | .storage n reference arguments =>
    let st := st.modify (st.bindingAug n) (setContext .extraFunction)
    let st := st.modify (Code.storage n reference arguments).reference (setContext .extraFunction)
    classifyArguments st arguments
  | .invoke n target arguments | .jump n target arguments =>
    let st := st.modify (st.bindingAug n) (setContext .extraFunction)
    classifyArguments (classifyProgramBindings st target) arguments
  | .continuation n reference parameters e =>
    let st := st.modify (st.bindingAug n) (setContext .extraFunction)
    let st := st.modify (Code.continuation n reference parameters e).reference
      (setContext .extraFunction)
    classifyProgramBindings (st.modifyAll (st.parameters n) (setContext .extraFunction)) e
  | .withExpr n reference e =>
    let st := st.modify (st.bindingAug n) (setContext .extraFunction)
    let st := st.modify (Code.withExpr n reference e).reference (setContext .extraFunction)
    classifyProgramBindings (st.modifyAll (st.parameters n) (setContext .extraFunction)) e
  | .ifExpr n condition consequent alternate =>
    let st := st.modify (st.bindingAug n) (setContext .extraFunction)
    classifyProgramBindings
      (classifyProgramBindings (classifyProgramBindings st condition) consequent) alternate

def classifyArguments (st : Store) : List Code → Store
  | [] => st
  | t :: arguments => classifyArguments (classifyProgramBindings st t) arguments

end

/-- `set-expr-is-read` -/
def setExprIsRead (st : Store) (e : Code) (val : Bool) : Store :=
  st.modify (st.aug e) (setIsRead val)

mutual

def assignExprIsReads (st : Store) : Code → Store
  | .literal _ _ => st
  | .symbol n _ => st.modify (st.symbolReference n) (setIsRead true)
  | .ifExpr _ cond consq alte =>
    let st := setExprIsRead (assignExprIsReads st cond) cond true
    let st := setExprIsRead (assignExprIsReads st consq) consq true
    setExprIsRead (assignExprIsReads st alte) alte true
  | .constrain _ body => setExprIsRead (assignExprIsReads st body) body true
  | .function n ref params body =>
    let st := st.modify (Code.function n ref params body).reference (setIsRead true)
    setExprIsRead (assignExprIsReads st body) body true
  | .withExpr n ref body =>
    let st := st.modify (Code.withExpr n ref body).reference (setIsRead true)
    let st := st.modifyAll ((st.parameters n).take 1) (setIsRead true)
    setExprIsRead (assignExprIsReads st body) body true
  | .continuation n ref params body =>
    let st := st.modifyAll (st.parameters n) (setIsRead true)
    let st := st.modify (Code.continuation n ref params body).reference (setIsRead true)
    setExprIsRead (assignExprIsReads st body) body false
  | .storage n ref args =>
    assignArgumentReads (st.modify (Code.storage n ref args).reference (setIsRead true)) args
  | .jump _ target args | .invoke _ target args =>
    assignArgumentReads (setExprIsRead (assignExprIsReads st target) target true) args

def assignArgumentReads (st : Store) : List Code → Store
  | [] => st
  | u :: args => assignArgumentReads (setExprIsRead (assignExprIsReads st u) u true) args

end

/-- The binding prefers the word at `offset`. -/
def preferMemory (offset : Word) (bndg : BndgAug) : BndgAug :=
  { bndg with preferred := memoryStorage bndg.context offset, size := wordSize }

/-- The loops that let bindings prefer one word after the other. -/
def preferWords (st : Store) (offset : Word) : List BndgId → Store
  | [] => st
  | b :: bs => preferWords (st.modify b (preferMemory offset)) (offset + words 1) bs

/-- The binding is the `size` bytes at `offset`. -/
def placeAt (size : Nat) (offset : Word) (bndg : BndgAug) : BndgAug :=
  { bndg with storage := memoryStorage bndg.context offset, size := size }

variable (escapes : NodeId → Bool)

/-- The case of the continuation or `with` expression `n` whose reference is `contBndg`. -/
def placeContinuation (offset : Word) (st : Store) (n : NodeId) (contBndg : BndgId) :
    Word × Store :=
  if escapes n then
    let offset := offset - words (st.parameters n).length
    let st := preferWords st offset (st.parameters n)
    let offset := offset - BitVec.ofNat 64 contSize
    (offset, st.modify contBndg (placeAt contSize offset))
  else (offset, st.modify contBndg (placeAt 0 offset))

mutual

/-- The offset below everything that is placed, and the store. -/
def placePermBindings (offset : Word) (st : Store) : Code → Word × Store
  | .literal _ _ => (offset, st)
  | .symbol _ _ => (offset, st)
  | .function n _ _ e =>
    let (frameSize, st) := placePermBindings (-words calleeSavedLen) st e
    (offset, { st with frameSize := Function.update st.frameSize n frameSize })
  | .constrain _ e => placePermBindings offset st e
  | .invoke _ target arguments | .jump _ target arguments =>
    let (offset, st) := placePermBindings offset st target
    placeArguments offset st arguments
  | .ifExpr _ condition consequent alternate =>
    let (offset, st) := placePermBindings offset st condition
    let (offset, st) := placePermBindings offset st consequent
    placePermBindings offset st alternate
  | .continuation n reference parameters e =>
    let contBndg := (Code.continuation n reference parameters e).reference
    let (offset, st) := placeContinuation escapes offset st n contBndg
    placePermBindings offset st e
  | .withExpr n reference e =>
    let contBndg := (Code.withExpr n reference e).reference
    let (offset, st) := placeContinuation escapes offset st n contBndg
    placePermBindings offset st e
  | .storage n reference arguments =>
    let storageSize := arguments.length * wordSize
    let offset := offset - words arguments.length
    let st := st.modify (Code.storage n reference arguments).reference (placeAt storageSize offset)
    let st := preferWords st offset (arguments.map st.aug)
    placeArguments offset st arguments

def placeArguments (offset : Word) (st : Store) : List Code → Word × Store
  | [] => (offset, st)
  | u :: arguments =>
    let (offset, st) := placePermBindings offset st u
    placeArguments offset st arguments

end

mutual

def assignDepths (depth : Nat) (st : Store) : Code → Store
  | .literal n _ => st.setDepth n depth
  | .symbol n _ => st.setDepth n depth
  | .function n _ _ e | .continuation n _ _ e | .withExpr n _ e | .constrain n e =>
    assignDepths (depth + 1) (st.setDepth n depth) e
  | .ifExpr n condition consequent alternate =>
    let st := assignDepths (depth + 1) (st.setDepth n depth) condition
    let st := assignDepths (depth + 1) st consequent
    assignDepths (depth + 1) st alternate
  | .invoke n target arguments | .jump n target arguments =>
    assignArgumentDepths (depth + 1) (assignDepths (depth + 1) (st.setDepth n depth) target)
      arguments
  | .storage n _ arguments => assignArgumentDepths (depth + 1) (st.setDepth n depth) arguments

def assignArgumentDepths (depth : Nat) (st : Store) : List Code → Store
  | [] => st
  | u :: arguments => assignArgumentDepths depth (assignDepths depth st u) arguments

end

end L2.SelfHost
