import L2.Fuel
import L2.SelfHost.RegionAllocator

/-!
# Live memory of regions

A region is a stack of elements, each of them a stack of blocks, and the fields of the
headers say where these stacks end.  The operations of the allocator push and pop.
-/

namespace L2.SelfHost.RegionAllocator

/-! ## Stacks of blocks -/

/-- Where the blocks of a stack, the latest first, come to an end. -/
def topOf (base : Nat) : List Block → Nat
  | [] => base
  | b :: _ => b.address + b.length

/-- Each block begins where those before it end, and whole words are taken. -/
def Stacked (base : Nat) : List Block → Prop
  | [] => True
  | b :: bs => b.address = topOf base bs ∧ 8 ∣ b.length ∧ Stacked base bs

variable {base : Nat} {b : Block} {bs later earlier : List Block}

theorem Stacked.base_le (h : Stacked base bs) : base ≤ topOf base bs := by
  induction bs with
  | nil => exact Nat.le_refl base
  | cons b bs ih =>
    have := ih h.2.2
    have := h.1
    show base ≤ b.address + b.length
    omega

theorem Stacked.of_append (h : Stacked base (later ++ earlier)) :
    Stacked base earlier ∧ topOf base earlier ≤ topOf base (later ++ earlier) := by
  induction later with
  | nil => exact ⟨h, Nat.le_refl _⟩
  | cons b later ih =>
    obtain ⟨hstacked, hle⟩ := ih h.2.2
    refine ⟨hstacked, ?_⟩
    have htop : b.address = topOf base (later ++ earlier) := h.1
    show topOf base earlier ≤ b.address + b.length
    omega

/-- A block of a stack is behind the base and before the top. -/
theorem Stacked.of_mem (h : Stacked base bs) (hb : b ∈ bs) :
    base ≤ b.address ∧ b.address + b.length ≤ topOf base bs := by
  obtain ⟨later, earlier, rfl⟩ := List.append_of_mem hb
  obtain ⟨hstacked, hle⟩ := h.of_append
  have := hstacked.2.2.base_le
  have := hstacked.1
  refine ⟨by omega, ?_⟩
  exact hle

theorem Stacked.aligned (h : Stacked base bs) (hbase : 8 ∣ base) :
    8 ∣ topOf base bs ∧ ∀ b ∈ bs, 8 ∣ b.address := by
  induction bs with
  | nil => exact ⟨hbase, fun _ h => absurd h List.not_mem_nil⟩
  | cons b bs ih =>
    obtain ⟨htop, hall⟩ := ih h.2.2
    have haddress : 8 ∣ b.address := by rw [h.1]; exact htop
    exact ⟨Nat.dvd_add haddress h.2.1, List.forall_mem_cons.mpr ⟨haddress, hall⟩⟩

theorem Stacked.apart (h : Stacked base bs) : bs.Pairwise Block.Apart := by
  induction bs with
  | nil => exact .nil
  | cons b bs ih =>
    apply List.Pairwise.cons _ (ih h.2.2)
    intro b' hb'
    have hle := (h.2.2.of_mem hb').2
    have := h.1
    right
    omega

/-! ## Elements -/

/-- An element with its live blocks. -/
structure Element where
  start : Nat
  finish : Nat
  blocks : List Block

def Element.top (e : Element) : Nat := topOf (e.start + 48) e.blocks

/-- The machine has the element. -/
structure Element.Valid (m : Machine) (e : Element) : Prop where
  aligned : 8 ∣ e.start
  stacked : Stacked (e.start + 48) e.blocks
  room : e.top ≤ e.finish
  mapped : ∀ x, e.start ≤ x → x < e.finish → m.mapped x
  currPos : m.currPos e.start = e.top
  endPos : m.endPos e.start = e.finish

def Element.Apart (e e' : Element) : Prop := e.finish ≤ e'.start ∨ e'.finish ≤ e.start

variable {nullElement : Nat} {m m' : Machine} {e e' : Element} {es : List Element}

theorem Element.Valid.header (h : e.Valid m) : e.start + 48 ≤ e.finish :=
  Nat.le_trans h.stacked.base_le h.room

/-- The elements are the same in both machines, but for the last element that the head of a
region knows of. -/
structure Kept (m m' : Machine) (es : List Element) : Prop where
  nextElt : ∀ e ∈ es, m'.nextElt e.start = m.nextElt e.start
  prevElt : ∀ e ∈ es, m'.prevElt e.start = m.prevElt e.start
  currPos : ∀ e ∈ es, m'.currPos e.start = m.currPos e.start
  endPos : ∀ e ∈ es, m'.endPos e.start = m.endPos e.start
  mapped : ∀ e ∈ es, ∀ x, e.start ≤ x → x < e.finish → m.mapped x → m'.mapped x

theorem Kept.sublist {es' : List Element} (h : Kept m m' es) (hsub : es' ⊆ es) :
    Kept m m' es' where
  nextElt e he := h.nextElt e (hsub he)
  prevElt e he := h.prevElt e (hsub he)
  currPos e he := h.currPos e (hsub he)
  endPos e he := h.endPos e (hsub he)
  mapped e he := h.mapped e (hsub he)

theorem Element.Valid.kept (h : e.Valid m) (hkept : Kept m m' es) (he : e ∈ es) :
    e.Valid m' where
  aligned := h.aligned
  stacked := h.stacked
  room := h.room
  mapped x hx hx' := hkept.mapped e he x hx hx' (h.mapped x hx hx')
  currPos := (hkept.currPos e he).trans h.currPos
  endPos := (hkept.endPos e he).trans h.endPos

theorem linked_kept {next : Nat} (h : Linked nullElement m next (es.map Element.start))
    (hkept : Kept m m' es) : Linked nullElement m' next (es.map Element.start) := by
  induction es generalizing next with
  | nil => trivial
  | cons e es ih =>
    obtain ⟨hnext, hprev, hrest⟩ := h
    refine ⟨?_, ?_, ih hrest (hkept.sublist (List.subset_cons_self e es))⟩
    · exact (hkept.nextElt e List.mem_cons_self).trans hnext
    · exact (hkept.prevElt e List.mem_cons_self).trans hprev

theorem linked_of_mem {next : Nat} {elts : List Nat} (hmem : m'.mem = m.mem)
    (h : Linked nullElement m next elts) : Linked nullElement m' next elts := by
  induction elts generalizing next with
  | nil => trivial
  | cons e elts ih =>
    obtain ⟨hnext, hprev, hrest⟩ := h
    refine ⟨?_, ?_, ih hrest⟩
    · exact (congrFun hmem (e + 8)).trans hnext
    · exact (congrFun hmem e).trans hprev

theorem linked_of_append {next : Nat} {newer rest : List Nat}
    (h : Linked nullElement m next (newer ++ rest)) : ∃ next, Linked nullElement m next rest := by
  induction newer generalizing next with
  | nil => exact ⟨next, h⟩
  | cons f newer ih => exact ih h.2.2

theorem Kept.of_header_mem
    (hmem : ∀ e ∈ es, ∀ i < 48, m'.mem (e.start + i) = m.mem (e.start + i))
    (hmapped : ∀ e ∈ es, ∀ x, e.start ≤ x → x < e.finish → m.mapped x → m'.mapped x) :
    Kept m m' es where
  nextElt e he := hmem e he 8 (by omega)
  prevElt e he := hmem e he 0 (by omega)
  currPos e he := hmem e he 24 (by omega)
  endPos e he := hmem e he 32 (by omega)
  mapped := hmapped

/-- What is mapped stays so outside of the elements, and holds the same outside of their
headers. -/
structure Changes (m m' : Machine) (es : List Element) : Prop where
  mem : ∀ x, m.mapped x → (∀ e ∈ es, ¬ (e.start ≤ x ∧ x < e.start + 48)) → m'.mem x = m.mem x
  mapped : ∀ x, m.mapped x → (∀ e ∈ es, ¬ (e.start ≤ x ∧ x < e.finish)) → m'.mapped x

theorem Changes.refl (m : Machine) (es : List Element) : Changes m m es :=
  ⟨fun _ _ _ => rfl, fun _ h _ => h⟩

/-- A field of an element's header is written. -/
theorem Changes.set {m₀ : Machine} (h : Changes m₀ m es) (he : e ∈ es) {i : Nat} (hi : i < 48)
    (v : Nat) : Changes m₀ (m.set (e.start + i) v) es where
  mem x hx hout := by
    have hne : x ≠ e.start + i := by
      intro heq
      apply hout e he
      omega
    show Function.update m.mem (e.start + i) v x = _
    rw [Function.update_of_ne hne]
    exact h.mem x hx hout
  mapped := h.mapped

theorem Changes.mono {es' : List Element} (h : Changes m m' es) (hsub : es ⊆ es') :
    Changes m m' es' where
  mem x hx hout := h.mem x hx (fun e he => hout e (hsub he))
  mapped x hx hout := h.mapped x hx (fun e he => hout e (hsub he))

/-- An element that was not mapped does not count. -/
theorem Changes.of_cons (h : Changes m m' (e :: es)) (hheader : e.start + 48 ≤ e.finish)
    (hfresh : ∀ x, e.start ≤ x → x < e.finish → m.mapped x = false) : Changes m m' es := by
  have hout : ∀ x, m.mapped x → ¬ (e.start ≤ x ∧ x < e.finish) := by
    intro x hx hin
    rw [hfresh x hin.1 hin.2] at hx
    cases hx
  constructor
  · intro x hx hes
    apply h.mem x hx
    apply List.forall_mem_cons.mpr ⟨_, hes⟩
    intro hin
    exact hout x hx (by omega)
  · intro x hx hes
    exact h.mapped x hx (List.forall_mem_cons.mpr ⟨hout x hx, hes⟩)

/-- The headers of elements that are apart hold what they held. -/
theorem Changes.header_mem {others : List Element} (h : Changes m m' es)
    (hheader : ∀ e ∈ es, e.start + 48 ≤ e.finish) (hothers : ∀ e ∈ others, e.Valid m)
    (haway : ∀ e ∈ es, ∀ e' ∈ others, e.Apart e') :
    ∀ e' ∈ others, ∀ i < 48, m'.mem (e'.start + i) = m.mem (e'.start + i) := by
  intro e' he' i hi
  have hheader' := (hothers e' he').header
  apply h.mem
  · exact (hothers e' he').mapped _ (by omega) (by omega)
  · intro e he hin
    have := hheader e he
    rcases haway e he e' he' with h | h <;> omega

/-- Elements that are not touched are kept. -/
theorem Changes.kept {others : List Element} (h : Changes m m' es)
    (hheader : ∀ e ∈ es, e.start + 48 ≤ e.finish) (hothers : ∀ e ∈ others, e.Valid m)
    (haway : ∀ e ∈ es, ∀ e' ∈ others, e.Apart e') : Kept m m' others := by
  apply Kept.of_header_mem (h.header_mem hheader hothers haway)
  intro e' he' x hx hx' hmapped
  apply h.mapped x hmapped
  intro e he hin
  rcases haway e he e' he' with h | h <;> omega

/-! ## Regions -/

/-- The machine has a region with these elements, the last one first. -/
structure HasRegion (nullElement : Nat) (m : Machine) (region : Nat × List Block)
    (es : List Element) : Prop where
  last : (es.map Element.start).head? = some (m.lastElt region.1)
  first : (es.map Element.start).getLast? = some region.1
  linked : Linked nullElement m nullElement (es.map Element.start)
  valid : ∀ e ∈ es, e.Valid m
  blocks : region.2 = es.flatMap Element.blocks

/-- The regions of a program. -/
structure HasRegions (nullElement : Nat) (s : State) (regions : List (List Element)) : Prop where
  each : List.Forall₂ (HasRegion nullElement s.machine) s.live regions
  apart : regions.flatten.Pairwise Element.Apart

variable {region : Nat × List Block}

theorem HasRegion.head_mem (h : HasRegion nullElement m region es) :
    ∃ head ∈ es, head.start = region.1 :=
  List.mem_map.mp (List.mem_of_getLast? h.first)

theorem HasRegion.kept (h : HasRegion nullElement m region es) (hkept : Kept m m' es)
    (hlast : m'.lastElt region.1 = m.lastElt region.1) :
    HasRegion nullElement m' region es where
  last := hlast ▸ h.last
  first := h.first
  linked := linked_kept h.linked hkept
  valid e he := (h.valid e he).kept hkept he
  blocks := h.blocks

theorem HasRegion.valid_head {rest : List Element}
    (h : HasRegion nullElement m region (e :: rest)) : e.Valid m :=
  h.valid e List.mem_cons_self

theorem HasRegion.exists_last (h : HasRegion nullElement m region es) :
    ∃ e rest, es = e :: rest ∧ m.lastElt region.1 = e.start := by
  have hlast := h.last
  cases es with
  | nil => cases hlast
  | cons e rest => exact ⟨e, rest, rfl, (Option.some.inj hlast).symm⟩

/-- Elements that have an address in common are the same. -/
theorem eq_or_apart {all : List Element} (hall : all.Pairwise Element.Apart) (he : e ∈ all)
    (he' : e' ∈ all) : e = e' ∨ e.Apart e' := by
  induction hall with
  | nil => exact absurd he List.not_mem_nil
  | @cons a all ha _ ih =>
    rcases List.mem_cons.mp he with heq | hmem
    · rcases List.mem_cons.mp he' with heq' | hmem'
      · exact .inl (heq.trans heq'.symm)
      · exact .inr (heq ▸ ha e' hmem')
    · rcases List.mem_cons.mp he' with heq' | hmem'
      · exact .inr (heq' ▸ (ha e hmem).symm)
      · exact ih hmem hmem'

/-- A region beside other elements of the same machine. -/
structure Framed (nullElement : Nat) (m : Machine) (region : Nat × List Block)
    (es others : List Element) : Prop where
  has : HasRegion nullElement m region es
  apart : es.Pairwise Element.Apart
  valid : ∀ e ∈ others, e.Valid m
  away : ∀ e ∈ es, ∀ e' ∈ others, e.Apart e'

theorem set_mem (m : Machine) (a v x : Nat) :
    (m.set a v).mem x = if x = a then v else m.mem x :=
  Function.update_apply m.mem a v x

theorem set_mem_self (m : Machine) (a v : Nat) : (m.set a v).mem a = v :=
  Function.update_self ..

/-- A write to a field of a header is not one to another field, nor to one of another
header. -/
theorem set_field {all : List Element} (hall : all.Pairwise Element.Apart)
    (hheader : ∀ e ∈ all, e.start + 48 ≤ e.finish) (he : e ∈ all) (he' : e' ∈ all) {i j : Nat}
    (hi : i < 48) (hj : j < 48) (hne : e.Apart e' ∨ i ≠ j) (v : Nat) :
    (m.set (e.start + i) v).mem (e'.start + j) = m.mem (e'.start + j) := by
  have hheader₁ := hheader e he
  have hheader₂ := hheader e' he'
  have hfield : e'.start + j ≠ e.start + i := by
    rcases hne with (h | h) | hij
    · omega
    · omega
    · rcases eq_or_apart hall he he' with heq | h | h
      · rw [heq]
        omega
      · omega
      · omega
  rw [set_mem, if_neg hfield]

/-! ## New elements -/

theorem le_padSize (x nearest : Nat) : x ≤ padSize x nearest := Nat.le_add_right x _

theorem dvd_padSize (x : Nat) {nearest : Nat} (h : 0 < nearest) : nearest ∣ padSize x nearest := by
  have hlt := Nat.mod_lt x h
  have hdiv := Nat.div_add_mod x nearest
  by_cases hr : x % nearest = 0
  · have hpad : padSize x nearest = x := by simp [padSize, hr]
    rw [hpad]
    exact Nat.dvd_of_mod_eq_zero hr
  · have hpad : padSize x nearest = x + (nearest - x % nearest) := by simp [padSize, hr]
    refine ⟨x / nearest + 1, ?_⟩
    rw [hpad, Nat.mul_add]
    omega

theorem le_elementLength (capacity : Nat) : capacity + 48 ≤ elementLength capacity :=
  Nat.le_trans (Nat.le_max_left _ _) (le_padSize _ _)

/-- The element that `create-region` makes. -/
def newElement (capacity reg : Nat) : Element := ⟨reg, reg + elementLength capacity, []⟩

variable {capacity reg : Nat}

theorem createRegion_fields (nullElement capacity reg : Nat) (m : Machine) :
    (createRegion nullElement capacity reg m).nextElt reg = nullElement ∧
    (createRegion nullElement capacity reg m).prevElt reg = nullElement ∧
    (createRegion nullElement capacity reg m).lastElt reg = reg ∧
    (createRegion nullElement capacity reg m).currPos reg = reg + 48 ∧
    (createRegion nullElement capacity reg m).endPos reg = reg + elementLength capacity := by
  simp [createRegion, Machine.setNextElt, Machine.setPrevElt, Machine.setLastElt,
    Machine.setCurrPos, Machine.setEndPos, Machine.setMagicDbg, Machine.nextElt, Machine.prevElt,
    Machine.lastElt, Machine.currPos, Machine.endPos, set_mem]

theorem createRegion_mapped (x : Nat) : (createRegion nullElement capacity reg m).mapped x =
    ((reg ≤ x && x < reg + elementLength capacity) || m.mapped x) := rfl

/-- `create-region` touches nothing that was mapped. -/
theorem createRegion_changes (nullElement : Nat) (hfresh : m.Fresh reg (elementLength capacity)) :
    Changes m (createRegion nullElement capacity reg m) [] := by
  have hchanges : Changes m (createRegion nullElement capacity reg m)
      [newElement capacity reg] := by
    have hmmap : Changes m (m.mmap reg (elementLength capacity)) [newElement capacity reg] :=
      ⟨fun _ _ _ => rfl, fun x hx _ => by simp [Machine.mmap, hx]⟩
    have hmem : newElement capacity reg ∈ [newElement capacity reg] := List.mem_singleton_self _
    have h := hmmap.set hmem (i := 8) (by omega) nullElement
    have h := h.set hmem (i := 0) (by omega) nullElement
    have h := h.set hmem (i := 16) (by omega) reg
    have h := h.set hmem (i := 24) (by omega) (reg + regionElement)
    have h := h.set hmem (i := 32) (by omega) (reg + elementLength capacity)
    exact h.set hmem (i := 40) (by omega) 0xDEADBEEFDEADBEEF
  have hlength := le_elementLength capacity
  apply hchanges.of_cons
  · show reg + 48 ≤ reg + elementLength capacity
    omega
  · exact hfresh.2

theorem newElement_valid (nullElement : Nat) (hfresh : m.Fresh reg (elementLength capacity)) :
    (newElement capacity reg).Valid (createRegion nullElement capacity reg m) where
  aligned := Nat.dvd_trans (by decide) hfresh.1
  stacked := trivial
  room := by
    have := le_elementLength capacity
    show reg + 48 ≤ reg + elementLength capacity
    omega
  mapped x hx hx' := by
    have hx : reg ≤ x := hx
    have hx' : x < reg + elementLength capacity := hx'
    simp [createRegion_mapped, hx, hx']
  currPos := (createRegion_fields nullElement capacity reg m).2.2.2.1
  endPos := (createRegion_fields nullElement capacity reg m).2.2.2.2

/-- Nothing that is mapped is in a new element. -/
theorem newElement_apart (hfresh : m.Fresh reg (elementLength capacity)) (h : e.Valid m) :
    (newElement capacity reg).Apart e := by
  by_contra hover
  have hlength := le_elementLength capacity
  have hheader := h.header
  have hover : ¬ (reg + elementLength capacity ≤ e.start ∨ e.finish ≤ reg) := hover
  have hmapped := h.mapped (max reg e.start) (by omega) (by omega)
  rw [hfresh.2 (max reg e.start) (by omega) (by omega)] at hmapped
  cases hmapped

/-! ## `region-alloc` -/

variable {blocks : List Block} {others rest : List Element} {len newElt ref : Nat}

theorem Framed.header (h : Framed nullElement m region es others) :
    ∀ e ∈ es, e.start + 48 ≤ e.finish :=
  fun e he => (h.has.valid e he).header

/-- A region whose elements are changed only in their headers remains beside the others. -/
theorem Framed.of_changes {region' : Nat × List Block} {es' : List Element}
    (h : Framed nullElement m region es others) (hchanges : Changes m m' es)
    (hhas : HasRegion nullElement m' region' es') (hapart : es'.Pairwise Element.Apart)
    (haway : ∀ e ∈ es', ∀ e' ∈ others, e.Apart e') :
    Framed nullElement m' region' es' others where
  has := hhas
  apart := hapart
  valid e he := (h.valid e he).kept
    (hchanges.kept h.header h.valid h.away) he
  away := haway

/-- The last element takes another block. -/
theorem Framed.push (h : Framed nullElement m (reg, blocks) (e :: rest) others)
    (hroom : e.top + len ≤ e.finish) (hlen : 8 ∣ len) :
    Framed nullElement (m.setCurrPos e.start (e.top + len)) (reg, ⟨e.top, len⟩ :: blocks)
      ({ e with blocks := ⟨e.top, len⟩ :: e.blocks } :: rest) others := by
  have hchanges : Changes m (m.setCurrPos e.start (e.top + len)) (e :: rest) :=
    (Changes.refl m _).set List.mem_cons_self (by omega) _
  have hvalid := h.has.valid_head
  have hother : ∀ f ∈ e :: rest, ∀ j < 48, e.Apart f ∨ 24 ≠ j →
      (m.setCurrPos e.start (e.top + len)).mem (f.start + j) = m.mem (f.start + j) :=
    fun f hf j hj hne => set_field h.apart h.header List.mem_cons_self hf (by omega) hj hne _
  have hkept : Kept m (m.setCurrPos e.start (e.top + len)) rest := by
    have hrest : ∀ f ∈ rest, ∀ j < 48,
        (m.setCurrPos e.start (e.top + len)).mem (f.start + j) = m.mem (f.start + j) :=
      fun f hf j hj => hother f (List.mem_cons_of_mem e hf) j hj
        (.inl ((List.pairwise_cons.mp h.apart).1 f hf))
    refine ⟨?_, ?_, ?_, ?_, fun _ _ _ _ _ hx => hx⟩
    · exact fun f hf => hrest f hf 8 (by omega)
    · exact fun f hf => hrest f hf 0 (by omega)
    · exact fun f hf => hrest f hf 24 (by omega)
    · exact fun f hf => hrest f hf 32 (by omega)
  obtain ⟨hnext, hprev, hrest⟩ := h.has.linked
  refine h.of_changes hchanges ⟨?_, h.has.first, ⟨?_, ?_, linked_kept hrest hkept⟩, ?_, ?_⟩ ?_ ?_
  · obtain ⟨head, hhead, hstart⟩ := h.has.head_mem
    have hlast := hother head hhead 16 (by omega) (.inr (by omega))
    rw [hstart] at hlast
    exact h.has.last.trans (congrArg some hlast.symm)
  · exact (hother e List.mem_cons_self 8 (by omega) (.inr (by omega))).trans hnext
  · exact (hother e List.mem_cons_self 0 (by omega) (.inr (by omega))).trans hprev
  · intro f hf
    rcases List.mem_cons.mp hf with heq | hf
    · rw [heq]
      exact {
        aligned := hvalid.aligned
        stacked := ⟨rfl, hlen, hvalid.stacked⟩
        room := hroom
        mapped := hvalid.mapped
        currPos := set_mem_self m _ _
        endPos :=
          (hother e List.mem_cons_self 32 (by omega) (.inr (by omega))).trans hvalid.endPos }
    · exact (h.has.valid f (List.mem_cons_of_mem e hf)).kept hkept hf
  · have hblocks : blocks = (e :: rest).flatMap Element.blocks := h.has.blocks
    rw [hblocks]
    rfl
  · exact .cons (List.pairwise_cons.mp h.apart).1 (List.pairwise_cons.mp h.apart).2
  · intro f hf
    rcases List.mem_cons.mp hf with heq | hf
    · rw [heq]
      exact h.away e List.mem_cons_self
    · exact h.away f (List.mem_cons_of_mem e hf)

/-- What is mapped is kept when an element is made. -/
theorem Kept.createRegion (hfresh : m.Fresh newElt (elementLength capacity))
    (hvalid : ∀ e ∈ es, e.Valid m) : Kept m (createRegion nullElement capacity newElt m) es :=
  (createRegion_changes nullElement hfresh).kept (fun _ he => absurd he List.not_mem_nil) hvalid
    (fun _ he => absurd he List.not_mem_nil)

/-- A new element is put behind the last one. -/
def link (reg lastElt newElt : Nat) (m : Machine) : Machine :=
  ((m.setNextElt lastElt newElt).setLastElt reg newElt).setPrevElt newElt lastElt

/-- A valid element that is linked to nothing becomes the last one. -/
theorem HasRegion.link {f : Element} (h : HasRegion nullElement m (reg, blocks) (e :: rest))
    (hall : (f :: e :: rest).Pairwise Element.Apart) (hf : f.Valid m) (hempty : f.blocks = [])
    (hnextElt : m.nextElt f.start = nullElement) :
    HasRegion nullElement (link reg e.start f.start m) (reg, blocks) (f :: e :: rest) := by
  obtain ⟨head, hhead, hstart⟩ := h.head_mem
  have hstart : head.start = reg := hstart
  subst hstart
  have hapart := List.pairwise_cons.mp hall
  have hheader : ∀ g ∈ f :: e :: rest, g.start + 48 ≤ g.finish :=
    List.forall_mem_cons.mpr ⟨hf.header, fun g hg => (h.valid g hg).header⟩
  have hfmem : f ∈ f :: e :: rest := List.mem_cons_self
  have hemem : e ∈ f :: e :: rest := List.mem_cons_of_mem f List.mem_cons_self
  have hheadmem : head ∈ f :: e :: rest := List.mem_cons_of_mem f hhead
  -- The three fields that are written, the others being as they were.
  have hother : ∀ g ∈ f :: e :: rest, ∀ j < 48, f.Apart g ∨ 0 ≠ j → 16 ≠ j → e.Apart g ∨ 8 ≠ j →
      (RegionAllocator.link head.start e.start f.start m).mem (g.start + j)
        = m.mem (g.start + j) := by
    intro g hg j hj hprev hlast hnext
    calc (RegionAllocator.link head.start e.start f.start m).mem (g.start + j)
        = ((m.setNextElt e.start f.start).setLastElt head.start f.start).mem (g.start + j) :=
          set_field hall hheader hfmem hg (i := 0) (by omega) hj hprev _
      _ = (m.setNextElt e.start f.start).mem (g.start + j) :=
          set_field hall hheader hheadmem hg (by omega) hj (.inr hlast) _
      _ = m.mem (g.start + j) := set_field hall hheader hemem hg (by omega) hj hnext _
  have hlast : (RegionAllocator.link head.start e.start f.start m).lastElt head.start
      = f.start :=
    (set_field hall hheader hfmem hheadmem (i := 0) (by omega) (by omega) (.inr (by omega)) _).trans
      (set_mem_self _ _ _)
  have hnext : (RegionAllocator.link head.start e.start f.start m).nextElt e.start = f.start :=
    calc (RegionAllocator.link head.start e.start f.start m).mem (e.start + 8)
        = ((m.setNextElt e.start f.start).setLastElt head.start f.start).mem (e.start + 8) :=
          set_field hall hheader hfmem hemem (i := 0) (by omega) (by omega) (.inr (by omega)) _
      _ = (m.setNextElt e.start f.start).mem (e.start + 8) :=
          set_field hall hheader hheadmem hemem (by omega) (by omega) (.inr (by omega)) _
      _ = f.start := set_mem_self _ _ _
  have hkept : Kept m (RegionAllocator.link head.start e.start f.start m) rest := by
    have hrest : ∀ g ∈ rest, ∀ j < 48, 16 ≠ j →
        (RegionAllocator.link head.start e.start f.start m).mem (g.start + j)
          = m.mem (g.start + j) := by
      intro g hg j hj hne
      have hmem := List.mem_cons_of_mem e hg
      apply hother g (List.mem_cons_of_mem f hmem) j hj _ hne _
      · exact .inl (hapart.1 g hmem)
      · exact .inl ((List.pairwise_cons.mp hapart.2).1 g hg)
    refine ⟨?_, ?_, ?_, ?_, fun _ _ _ _ _ hx => hx⟩
    · exact fun g hg => hrest g hg 8 (by omega) (by omega)
    · exact fun g hg => hrest g hg 0 (by omega) (by omega)
    · exact fun g hg => hrest g hg 24 (by omega) (by omega)
    · exact fun g hg => hrest g hg 32 (by omega) (by omega)
  have hpositions : ∀ g ∈ f :: e :: rest, g.Valid m →
      g.Valid (RegionAllocator.link head.start e.start f.start m) := by
    intro g hg hvalid
    exact {
      aligned := hvalid.aligned
      stacked := hvalid.stacked
      room := hvalid.room
      mapped := hvalid.mapped
      currPos := (hother g hg 24 (by omega) (.inr (by omega)) (by omega) (.inr (by omega))).trans
        hvalid.currPos
      endPos := (hother g hg 32 (by omega) (.inr (by omega)) (by omega) (.inr (by omega))).trans
        hvalid.endPos }
  obtain ⟨-, hprev, hrest⟩ := h.linked
  refine ⟨congrArg some hlast.symm, h.first, ⟨?_, ?_, hnext, ?_, linked_kept hrest hkept⟩, ?_, ?_⟩
  · exact (hother f hfmem 8 (by omega) (.inr (by omega)) (by omega)
      (.inl (hapart.1 e List.mem_cons_self).symm)).trans hnextElt
  · exact set_mem_self _ _ _
  · exact (hother e hemem 0 (by omega) (.inl (hapart.1 e List.mem_cons_self)) (by omega)
      (.inr (by omega))).trans hprev
  · intro g hg
    apply hpositions g hg
    rcases List.mem_cons.mp hg with heq | hg
    · rw [heq]
      exact hf
    · exact h.valid g hg
  · show blocks = f.blocks ++ (e :: rest).flatMap Element.blocks
    rw [hempty]
    exact h.blocks

/-- The region gets a new last element. -/
theorem Framed.grow (h : Framed nullElement m (reg, blocks) (e :: rest) others)
    (hfresh : m.Fresh newElt (elementLength capacity)) :
    Framed nullElement (link reg e.start newElt (createRegion nullElement capacity newElt m))
      (reg, blocks) (newElement capacity newElt :: e :: rest) others ∧
    Changes m (link reg e.start newElt (createRegion nullElement capacity newElt m))
      (e :: rest) := by
  have hkept : Kept m (createRegion nullElement capacity newElt m) (e :: rest) :=
    Kept.createRegion hfresh h.has.valid
  have hchanges := (createRegion_changes nullElement hfresh).mono
    (List.nil_subset (newElement capacity newElt :: e :: rest))
  obtain ⟨head, hhead, hstart⟩ := h.has.head_mem
  have hstart : head.start = reg := hstart
  subst hstart
  have hlink : Changes m
      (link head.start e.start newElt (createRegion nullElement capacity newElt m))
        (e :: rest) := by
    have hset := hchanges.set (List.mem_cons_of_mem _ List.mem_cons_self) (i := 8) (by omega)
      newElt
    have hset := hset.set (List.mem_cons_of_mem _ hhead) (i := 16) (by omega) newElt
    have hset := hset.set List.mem_cons_self (i := 0) (by omega) e.start
    exact hset.of_cons (newElement_valid nullElement hfresh).header hfresh.2
  have hlast : (createRegion nullElement capacity newElt m).lastElt head.start
      = m.lastElt head.start := by
    have hheader := h.header head hhead
    have hmapped := (h.has.valid head hhead).mapped (head.start + 16) (by omega) (by omega)
    exact (createRegion_changes nullElement hfresh).mem _ hmapped
      (fun _ he => absurd he List.not_mem_nil)
  have hall : (newElement capacity newElt :: e :: rest).Pairwise Element.Apart :=
    .cons (fun f hf => newElement_apart hfresh (h.has.valid f hf)) h.apart
  refine ⟨h.of_changes hlink ?_ hall ?_, hlink⟩
  · exact (h.has.kept hkept hlast).link hall (newElement_valid nullElement hfresh) rfl
      (createRegion_fields ..).1
  · apply List.forall_mem_cons.mpr ⟨_, h.away⟩
    exact fun f hf => newElement_apart hfresh (h.valid f hf)

theorem isFull_iff (h : HasRegion nullElement m (reg, blocks) (e :: rest)) :
    isFull len reg m ↔ e.finish < e.top + padSize len 8 := by
  have hlast : m.lastElt reg = e.start := (Option.some.inj h.last).symm
  have hvalid := h.valid_head
  have hfull : isFull len reg m = decide (e.finish < e.top + padSize len 8) := by
    show decide (m.endPos (m.lastElt reg) < m.currPos (m.lastElt reg) + padSize len 8) = _
    rw [hlast, hvalid.currPos, hvalid.endPos]
  rw [hfull, decide_eq_true_iff]

/-- `region-alloc` answers the position that it has moved behind the block. -/
theorem regionAlloc_eq (len reg newElt : Nat) (m : Machine) :
    regionAlloc nullElement len reg newElt m =
      let (lastElt, m') := growRegion nullElement len reg newElt m
      (m'.currPos lastElt, m'.setCurrPos lastElt (m'.currPos lastElt + padSize len 8)) := by
  have hcurr : ∀ (m : Machine) (lastElt : Nat),
      (m.setCurrPos lastElt (m.currPos lastElt + padSize len 8)).currPos lastElt - padSize len 8
        = m.currPos lastElt := by
    intro m lastElt
    have hset : (m.setCurrPos lastElt (m.currPos lastElt + padSize len 8)).currPos lastElt
        = m.currPos lastElt + padSize len 8 := set_mem_self ..
    rw [hset, Nat.add_sub_cancel]
  exact congrArg (·, _) (hcurr _ _)

/-- `region-alloc` gives the region another block. -/
theorem Framed.alloc (h : Framed nullElement m (reg, blocks) es others)
    (hfresh : isFull len reg m → m.Fresh newElt (elementLength (padSize len allocAlignment)))
    (hcall : regionAlloc nullElement len reg newElt m = (ref, m')) :
    ∃ es', Framed nullElement m' (reg, ⟨ref, padSize len allocAlignment⟩ :: blocks) es' others ∧
      Changes m m' es := by
  obtain ⟨e, rest, rfl, hlast⟩ := h.has.exists_last
  have hlast : m.lastElt reg = e.start := hlast
  have hlen : 8 ∣ padSize len 8 := dvd_padSize len (by omega)
  have hvalid := h.has.valid_head
  rw [regionAlloc_eq] at hcall
  by_cases hfull : isFull len reg m = true
  · have hgrow : growRegion nullElement len reg newElt m = (newElt,
        link reg e.start newElt (createRegion nullElement (padSize len 8) newElt m)) := by
      rw [growRegion, if_pos hfull, hlast]
      rfl
    obtain ⟨hframed, hchanges⟩ := h.grow (hfresh hfull)
    have hcurr := hframed.has.valid_head.currPos
    have hcurr : (link reg e.start newElt
        (createRegion nullElement (padSize len 8) newElt m)).currPos newElt = newElt + 48 := hcurr
    have hlength := le_elementLength (padSize len 8)
    simp only [hgrow, hcurr, Prod.mk.injEq] at hcall
    obtain ⟨rfl, rfl⟩ := hcall
    refine ⟨_, hframed.push ?_ hlen, ?_⟩
    · show newElt + 48 + padSize len 8 ≤ newElt + elementLength (padSize len 8)
      omega
    · apply Changes.of_cons _ hframed.has.valid_head.header (hfresh hfull).2
      have hmono := hchanges.mono
        (List.subset_cons_self (newElement (padSize len 8) newElt) (e :: rest))
      exact hmono.set List.mem_cons_self (by omega) _
  · have hgrow : growRegion nullElement len reg newElt m = (e.start, m) := by
      rw [growRegion, if_neg hfull, hlast]
    simp only [hgrow, hvalid.currPos, Prod.mk.injEq] at hcall
    obtain ⟨rfl, rfl⟩ := hcall
    have hroom := mt (isFull_iff h.has).mpr hfull
    refine ⟨_, h.push (by omega) hlen, ?_⟩
    exact (Changes.refl m _).set List.mem_cons_self (i := 24) (by omega) _

/-! ## `region-free` -/

/-- The elements after the one with the reference are given back. -/
def unmap (newer : List Element) (m : Machine) : Machine :=
  newer.foldl (fun m f => m.munmap f.start (f.finish - f.start)) m

variable {newer : List Element}

theorem unmap_mem (newer : List Element) (m : Machine) : (unmap newer m).mem = m.mem := by
  induction newer generalizing m with
  | nil => rfl
  | cons f newer ih => exact ih _

theorem unmap_mapped {x : Nat} (hx : m.mapped x)
    (hout : ∀ f ∈ newer, ¬ (f.start ≤ x ∧ x < f.finish)) : (unmap newer m).mapped x := by
  induction newer generalizing m with
  | nil => exact hx
  | cons f newer ih =>
    obtain ⟨hf, hnewer⟩ := List.forall_mem_cons.mp hout
    apply ih _ hnewer
    show (m.mapped x && !(f.start ≤ x && x < f.start + (f.finish - f.start))) = true
    simp only [hx, Bool.true_and, Bool.not_eq_true', Bool.and_eq_false_iff, decide_eq_false_iff_not]
    omega

/-- The last element is cut off behind the reference. -/
def cut (nullElement ref reg lastElt : Nat) (m : Machine) : Machine :=
  ((m.setCurrPos lastElt ref).setLastElt reg lastElt).setNextElt lastElt nullElement

/-- The loop walks back to the element that the reference is in: the elements that it passes
begin or end before it. -/
theorem doFree_eq (hnewer : ∀ f ∈ newer, m.endPos f.start = f.finish ∧
      ¬ (f.start + 48 ≤ ref ∧ ref ≤ f.finish))
    {next : Nat} (hlinked : Linked nullElement m next ((newer ++ e :: rest).map Element.start))
    (hend : m.endPos e.start = e.finish) (href : e.start + 48 ≤ ref) (href' : ref ≤ e.finish)
    {n : Nat} (hn : newer.length < n) :
    doFree nullElement ref reg n (((newer ++ e :: rest).map Element.start).head?.getD nullElement) m
      = some (cut nullElement ref reg e.start (unmap newer m)) := by
  induction newer generalizing m n next with
  | nil =>
    obtain ⟨n, rfl⟩ := Nat.exists_eq_succ_of_ne_zero (Nat.ne_of_gt hn)
    show doFree nullElement ref reg (n + 1) e.start m = _
    have hin : e.start + regionElement ≤ ref ∧ ref ≤ m.endPos e.start := ⟨href, hend ▸ href'⟩
    rw [doFree, if_pos hin]
    rfl
  | cons f newer ih =>
    obtain ⟨n, rfl⟩ := Nat.exists_eq_succ_of_ne_zero (Nat.ne_of_gt (Nat.zero_lt_of_lt hn))
    obtain ⟨⟨hfinish, hout⟩, hrest⟩ := List.forall_mem_cons.mp hnewer
    obtain ⟨-, hprev, htail⟩ := hlinked
    have htail : Linked nullElement (m.munmap f.start (f.finish - f.start)) f.start
        ((newer ++ e :: rest).map Element.start) :=
      linked_of_mem (show _ = m.mem from rfl) htail
    show doFree nullElement ref reg (n + 1) f.start m = _
    have hnot : ¬ (f.start + regionElement ≤ ref ∧ ref ≤ m.endPos f.start) := hfinish ▸ hout
    rw [doFree, if_neg hnot]
    show doFree nullElement ref reg n (m.prevElt f.start)
      (m.munmap f.start (m.endPos f.start - f.start)) = _
    rw [hprev, hfinish]
    exact ih (m := m.munmap f.start (f.finish - f.start)) hrest htail hend
      (Nat.lt_of_succ_lt_succ hn)

theorem doFree_stable (nullElement ref reg : Nat) :
    Fuel.Stable (fun n (p : Nat × Machine) => doFree nullElement ref reg n p.1 p.2) := by
  intro n
  induction n with
  | zero => exact fun _ _ h => absurd h (by simp [doFree])
  | succ n ih =>
    intro ⟨lastElt, m⟩ m' h
    show doFree nullElement ref reg (n + 1 + 1) lastElt m = some m'
    have h : doFree nullElement ref reg (n + 1) lastElt m = some m' := h
    rw [doFree] at h ⊢
    split at h
    · next hin => rw [if_pos hin, h]
    · next hout =>
      rw [if_neg hout]
      exact ih (_, _) m' h

/-- A live block divides the stack of elements that its region is. -/
theorem exists_element {later earlier : List Block} {b : Block}
    (h : later ++ b :: earlier = es.flatMap Element.blocks) :
    ∃ newer e rest before after, es = newer ++ e :: rest ∧ e.blocks = before ++ b :: after ∧
      earlier = after ++ rest.flatMap Element.blocks := by
  induction es generalizing later with
  | nil => exact absurd h (by simp)
  | cons f es ih =>
    rw [List.flatMap_cons, List.append_eq_append_iff] at h
    rcases h with ⟨before, hf, hrest⟩ | ⟨before, hlater, hrest⟩
    · cases before with
      | nil =>
        have hrest : [] ++ b :: earlier = es.flatMap Element.blocks := hrest
        obtain ⟨newer, e, rest, before, after, rfl, he, hearlier⟩ := ih hrest
        exact ⟨f :: newer, e, rest, before, after, rfl, he, hearlier⟩
      | cons c after =>
        obtain ⟨rfl, hearlier⟩ := List.cons.inj hrest
        exact ⟨[], f, es, later, after, rfl, hf, hearlier⟩
    · obtain ⟨newer, e, rest, before, after, rfl, he, hearlier⟩ := ih hrest.symm
      exact ⟨f :: newer, e, rest, before, after, rfl, he, hearlier⟩

/-- A reference to a block is not inside of another element, not even at its end. -/
theorem Element.Apart.ref_out {b : Block} (h : e'.Apart e)
    (hb : e.start + 48 ≤ b.address) (hb' : b.address ≤ e.finish) :
    ¬ (e'.start + 48 ≤ b.address ∧ b.address ≤ e'.finish) := by
  rcases h with h | h <;> omega

/-- The region without the elements that come after one, which keeps some of its blocks. -/
theorem HasRegion.cut {before after : List Block} {b : Block}
    (h : HasRegion nullElement m (reg, blocks) (newer ++ e :: rest))
    (hapart : (newer ++ e :: rest).Pairwise Element.Apart)
    (he : e.blocks = before ++ b :: after) :
    HasRegion nullElement (cut nullElement b.address reg e.start (unmap newer m))
      (reg, after ++ rest.flatMap Element.blocks) ({ e with blocks := after } :: rest) ∧
    Changes m (cut nullElement b.address reg e.start (unmap newer m)) (newer ++ e :: rest) := by
  have hfirst : ((e :: rest).map Element.start).getLast? = some reg := by
    have hfirst := h.first
    rw [List.map_append, List.getLast?_append_of_ne_nil _ (by simp)] at hfirst
    exact hfirst
  obtain ⟨head, hhead, hstart⟩ := List.mem_map.mp (List.mem_of_getLast? hfirst)
  subst hstart
  have hheader : ∀ g ∈ newer ++ e :: rest, g.start + 48 ≤ g.finish :=
    fun g hg => (h.valid g hg).header
  have hemem : e ∈ newer ++ e :: rest := List.mem_append_right newer List.mem_cons_self
  have hheadmem : head ∈ newer ++ e :: rest := List.mem_append_right newer hhead
  have hrestmem : ∀ g ∈ rest, g ∈ newer ++ e :: rest :=
    fun g hg => List.mem_append_right newer (List.mem_cons_of_mem e hg)
  obtain ⟨-, herest, hacross⟩ := List.pairwise_append.mp hapart
  have herest := List.pairwise_cons.mp herest
  -- The three fields that are written, the others being as they were.
  have hother : ∀ g ∈ newer ++ e :: rest, ∀ j < 48, e.Apart g ∨ 24 ≠ j → 16 ≠ j →
      e.Apart g ∨ 8 ≠ j →
      (RegionAllocator.cut nullElement b.address head.start e.start (unmap newer m)).mem
        (g.start + j) = m.mem (g.start + j) := by
    intro g hg j hj hcurr hlast hnext
    calc (RegionAllocator.cut nullElement b.address head.start e.start (unmap newer m)).mem
          (g.start + j)
        = (((unmap newer m).setCurrPos e.start b.address).setLastElt head.start e.start).mem
            (g.start + j) := set_field hapart hheader hemem hg (by omega) hj hnext _
      _ = ((unmap newer m).setCurrPos e.start b.address).mem (g.start + j) :=
          set_field hapart hheader hheadmem hg (by omega) hj (.inr hlast) _
      _ = (unmap newer m).mem (g.start + j) :=
          set_field hapart hheader hemem hg (by omega) hj hcurr _
      _ = m.mem (g.start + j) := congrFun (unmap_mem newer m) _
  have hmapped : ∀ g ∈ e :: rest, ∀ x, g.start ≤ x → x < g.finish → m.mapped x →
      (unmap newer m).mapped x := by
    intro g hg x hx hx' hin
    apply unmap_mapped hin
    intro f hf hinf
    rcases hacross f hf g hg with h | h <;> omega
  have hkept : Kept m (RegionAllocator.cut nullElement b.address head.start e.start
      (unmap newer m)) rest := by
    have hrest : ∀ g ∈ rest, ∀ j < 48, 16 ≠ j →
        (RegionAllocator.cut nullElement b.address head.start e.start (unmap newer m)).mem
          (g.start + j) = m.mem (g.start + j) :=
      fun g hg j hj hne => hother g (hrestmem g hg) j hj (.inl (herest.1 g hg)) hne
        (.inl (herest.1 g hg))
    refine ⟨?_, ?_, ?_, ?_, fun g hg => hmapped g (List.mem_cons_of_mem e hg)⟩
    · exact fun g hg => hrest g hg 8 (by omega) (by omega)
    · exact fun g hg => hrest g hg 0 (by omega) (by omega)
    · exact fun g hg => hrest g hg 24 (by omega) (by omega)
    · exact fun g hg => hrest g hg 32 (by omega) (by omega)
  have hvalid := h.valid e hemem
  have hstacked := hvalid.stacked
  rw [he] at hstacked
  obtain ⟨⟨haddress, -, hafter⟩, htop⟩ := hstacked.of_append
  have hlast : (RegionAllocator.cut nullElement b.address head.start e.start
      (unmap newer m)).lastElt head.start = e.start :=
    (set_field hapart hheader hemem hheadmem (by omega) (by omega) (.inr (by omega)) _).trans
      (set_mem_self ..)
  have hcurr : (RegionAllocator.cut nullElement b.address head.start e.start
      (unmap newer m)).currPos e.start = b.address :=
    calc (RegionAllocator.cut nullElement b.address head.start e.start (unmap newer m)).mem
          (e.start + 24)
        = (((unmap newer m).setCurrPos e.start b.address).setLastElt head.start e.start).mem
            (e.start + 24) :=
          set_field hapart hheader hemem hemem (by omega) (by omega) (.inr (by omega)) _
      _ = ((unmap newer m).setCurrPos e.start b.address).mem (e.start + 24) :=
          set_field hapart hheader hheadmem hemem (by omega) (by omega) (.inr (by omega)) _
      _ = b.address := set_mem_self ..
  obtain ⟨next, hlinked⟩ : ∃ next, Linked nullElement m next ((e :: rest).map Element.start) := by
    have hlinked := h.linked
    rw [List.map_append] at hlinked
    exact linked_of_append hlinked
  obtain ⟨-, hprev, hrest⟩ := hlinked
  refine ⟨⟨congrArg some hlast.symm, hfirst, ⟨set_mem_self .., ?_, linked_kept hrest hkept⟩,
    ?_, rfl⟩, ?_⟩
  · exact (hother e hemem 0 (by omega) (.inr (by omega)) (by omega) (.inr (by omega))).trans hprev
  · intro g hg
    rcases List.mem_cons.mp hg with heq | hg
    · rw [heq]
      exact {
        aligned := hvalid.aligned
        stacked := hafter
        room := by
          have hroom := hvalid.room
          have htop : b.address + b.length ≤ topOf (e.start + 48) (before ++ b :: after) := htop
          rw [← he] at htop
          have haddress : b.address = topOf (e.start + 48) after := haddress
          show topOf (e.start + 48) after ≤ e.finish
          have hroom : topOf (e.start + 48) e.blocks ≤ e.finish := hroom
          omega
        mapped := fun x hx hx' =>
          hmapped e List.mem_cons_self x hx hx' (hvalid.mapped x hx hx')
        currPos := hcurr.trans haddress
        endPos := (hother e hemem 32 (by omega) (.inr (by omega)) (by omega)
          (.inr (by omega))).trans hvalid.endPos }
    · exact (h.valid g (hrestmem g hg)).kept hkept hg
  · have hunmap : Changes m (unmap newer m) (newer ++ e :: rest) := by
      refine ⟨fun x _ _ => congrFun (unmap_mem newer m) x, fun x hx hout => ?_⟩
      exact unmap_mapped hx (fun f hf => hout f (List.mem_append_left _ hf))
    have hset := hunmap.set hemem (i := 24) (by omega) b.address
    have hset := hset.set hheadmem (i := 16) (by omega) e.start
    exact hset.set hemem (i := 8) (by omega) nullElement

/-- `region-free` of a block ends, and the blocks before it remain. -/
theorem Framed.free {later earlier : List Block} {b : Block}
    (h : Framed nullElement m (reg, later ++ b :: earlier) es others) :
    ∃ es' m', Framed nullElement m' (reg, earlier) es' others ∧ Changes m m' es ∧
      ∃ rounds, ∀ n, rounds < n → regionFree nullElement n b.address reg m = some m' := by
  obtain ⟨newer, e, rest, before, after, rfl, he, rfl⟩ := exists_element h.has.blocks
  obtain ⟨hregion, hchanges⟩ := h.has.cut h.apart he
  obtain ⟨-, herest, hacross⟩ := List.pairwise_append.mp h.apart
  have herest := List.pairwise_cons.mp herest
  have hemem : e ∈ newer ++ e :: rest := List.mem_append_right newer List.mem_cons_self
  have hvalid := h.has.valid e hemem
  have hb : b ∈ e.blocks := by
    rw [he]
    exact List.mem_append_right before List.mem_cons_self
  have hin := hvalid.stacked.of_mem hb
  have href : b.address ≤ e.finish := by
    have hroom : topOf (e.start + 48) e.blocks ≤ e.finish := hvalid.room
    omega
  refine ⟨_, _, h.of_changes hchanges hregion (.cons herest.1 herest.2) ?_, hchanges,
    newer.length, ?_⟩
  · intro g hg
    rcases List.mem_cons.mp hg with heq | hg
    · rw [heq]
      exact h.away e hemem
    · exact h.away g (List.mem_append_right newer (List.mem_cons_of_mem e hg))
  · intro n hn
    have hlast : m.lastElt reg
        = ((newer ++ e :: rest).map Element.start).head?.getD nullElement := by
      rw [h.has.last]
      rfl
    show doFree nullElement b.address reg n (m.lastElt reg) m = _
    rw [hlast]
    apply doFree_eq _ h.has.linked hvalid.endPos hin.1 href hn
    intro f hf
    refine ⟨(h.has.valid f (List.mem_append_left _ hf)).endPos, ?_⟩
    exact (hacross f hf e List.mem_cons_self).ref_out hin.1 href

/-! ## Calls -/

variable {s s' : State} {regions : List (List Element)}

theorem valid_of_forall₂ {live : List (Nat × List Block)}
    (h : List.Forall₂ (HasRegion nullElement m) live regions) :
    ∀ e ∈ regions.flatten, e.Valid m := by
  induction h with
  | nil => exact fun e he => absurd he List.not_mem_nil
  | cons hregion _ ih =>
    intro e he
    rcases List.mem_append.mp he with he | he
    · exact hregion.valid e he
    · exact ih e he

/-- Regions whose headers hold what they held are as they were. -/
theorem hasRegion_kept {live : List (Nat × List Block)}
    (hlive : List.Forall₂ (HasRegion nullElement m) live regions)
    (hmem : ∀ e ∈ regions.flatten, ∀ i < 48, m'.mem (e.start + i) = m.mem (e.start + i))
    (hkept : Kept m m' regions.flatten) :
    List.Forall₂ (HasRegion nullElement m') live regions := by
  induction hlive with
  | nil => exact .nil
  | @cons _ gs _ _ hregion _ ih =>
    rw [List.flatten_cons] at hmem hkept
    apply List.Forall₂.cons _ (ih _ (hkept.sublist (List.subset_append_right _ _)))
    · apply hregion.kept (hkept.sublist (List.subset_append_left _ _))
      obtain ⟨head, hhead, hstart⟩ := hregion.head_mem
      rw [← hstart]
      exact hmem head (List.mem_append_left _ hhead) 16 (by omega)
    · exact fun e he => hmem e (List.mem_append_right gs he)

/-- Regions that are not touched are as they were. -/
theorem hasRegion_of_changes {live : List (Nat × List Block)} (hchanges : Changes m m' es)
    (hheader : ∀ e ∈ es, e.start + 48 ≤ e.finish)
    (hlive : List.Forall₂ (HasRegion nullElement m) live regions)
    (haway : ∀ e ∈ es, ∀ e' ∈ regions.flatten, e.Apart e') :
    List.Forall₂ (HasRegion nullElement m') live regions :=
  have hvalid := valid_of_forall₂ hlive
  hasRegion_kept hlive (hchanges.header_mem hheader hvalid haway)
    (hchanges.kept hheader hvalid haway)

theorem Element.Apart.symm (h : e.Apart e') : e'.Apart e := Or.symm h

/-- The regions before and after one are beside it. -/
theorem HasRegions.exists_framed {before after : List (Nat × List Block)}
    (h : HasRegions nullElement ⟨m, before ++ region :: after⟩ regions) :
    ∃ newer es older, regions = newer ++ es :: older ∧
      List.Forall₂ (HasRegion nullElement m) before newer ∧
      List.Forall₂ (HasRegion nullElement m) after older ∧
      (newer ++ older).flatten.Pairwise Element.Apart ∧
      Framed nullElement m region es (newer ++ older).flatten := by
  have hbefore := List.forall₂_take_append _ before (region :: after) h.each.flip
  have hafter := List.forall₂_drop_append _ before (region :: after) h.each.flip
  have hregions := List.take_append_drop before.length regions
  cases hdrop : regions.drop before.length with
  | nil =>
    rw [hdrop] at hafter
    cases hafter
  | cons es older =>
    rw [hdrop] at hafter hregions
    rw [List.forall₂_cons] at hafter
    refine ⟨regions.take before.length, es, older, hregions.symm, hbefore.flip,
      hafter.2.flip, ?_⟩
    have hperm : (regions.take before.length ++ es :: older).flatten.Perm
        (es ++ (regions.take before.length ++ older).flatten) :=
      List.perm_middle.flatten
    have hapart := h.apart
    rw [← hregions, hperm.pairwise_iff Element.Apart.symm, List.pairwise_append] at hapart
    refine ⟨hapart.2.1, hafter.1, hapart.1, ?_, hapart.2.2⟩
    exact valid_of_forall₂ (List.rel_append hbefore.flip hafter.2.flip)

/-- A call changes one region and leaves the others as they were. -/
theorem HasRegions.replace {before after : List (Nat × List Block)}
    {newer older : List (List Element)} {region' : Nat × List Block} {es' : List Element}
    (hbefore : List.Forall₂ (HasRegion nullElement m) before newer)
    (hafter : List.Forall₂ (HasRegion nullElement m) after older)
    (hapart : (newer ++ older).flatten.Pairwise Element.Apart)
    (h : Framed nullElement m region es (newer ++ older).flatten) (hchanges : Changes m m' es)
    (h' : Framed nullElement m' region' es' (newer ++ older).flatten) :
    HasRegions nullElement ⟨m', before ++ region' :: after⟩ (newer ++ es' :: older) where
  each := by
    have haway := h.away
    rw [List.flatten_append] at haway
    apply List.rel_append
    · exact hasRegion_of_changes hchanges h.header hbefore
        (fun e he e' he' => haway e he e' (List.mem_append_left _ he'))
    · exact .cons h'.has (hasRegion_of_changes hchanges h.header hafter
        (fun e he e' he' => haway e he e' (List.mem_append_right _ he')))
  apart := by
    have hperm : (newer ++ es' :: older).flatten.Perm (es' ++ (newer ++ older).flatten) :=
      List.perm_middle.flatten
    rw [hperm.pairwise_iff Element.Apart.symm, List.pairwise_append]
    exact ⟨h'.apart, hapart, h'.away⟩

theorem subset_flatten (newer : List (List Element)) (es : List Element)
    (older : List (List Element)) : es ⊆ (newer ++ es :: older).flatten := by
  intro e he
  exact List.mem_flatten.mpr ⟨es, List.mem_append_right newer List.mem_cons_self, he⟩

/-- A call leaves the program with regions, and changes nothing but headers. -/
theorem HasRegions.call (h : HasRegions nullElement s regions) (hcall : Call nullElement s s') :
    ∃ regions', HasRegions nullElement s' regions' ∧
      Changes s.machine s'.machine regions.flatten := by
  cases hcall with
  | @create _ capacity reg hfresh =>
    have hchanges := createRegion_changes nullElement hfresh
    have hvalid := valid_of_forall₂ h.each
    refine ⟨[newElement capacity reg] :: regions, ⟨.cons ?_ ?_, ?_⟩,
      hchanges.mono (List.nil_subset _)⟩
    · obtain ⟨hnext, hprev, hlast, -⟩ :=
        createRegion_fields nullElement capacity reg s.machine
      refine ⟨congrArg some hlast.symm, rfl, ⟨hnext, hprev, trivial⟩, ?_, rfl⟩
      intro e he
      rw [List.mem_singleton.mp he]
      exact newElement_valid nullElement hfresh
    · exact hasRegion_of_changes hchanges (fun _ he => absurd he List.not_mem_nil) h.each
        (fun _ he => absurd he List.not_mem_nil)
    · exact .cons (fun e he => newElement_apart hfresh (hvalid e he)) h.apart
  | alloc hfresh hcall =>
    obtain ⟨newer, es, older, rfl, hbefore, hafter, hapart, hframed⟩ := h.exists_framed
    obtain ⟨es', hframed', hchanges⟩ := hframed.alloc hfresh hcall
    exact ⟨_, .replace hbefore hafter hapart hframed hchanges hframed',
      hchanges.mono (subset_flatten newer es older)⟩
  | @free m m' _ _ reg _ _ b n hcall =>
    obtain ⟨newer, es, older, rfl, hbefore, hafter, hapart, hframed⟩ := h.exists_framed
    obtain ⟨es', m'', hframed', hchanges, rounds, hrounds⟩ := hframed.free
    have hanswer : m' = m'' :=
      (doFree_stable nullElement b.address reg).unique (a := (m.lastElt reg, m)) hcall
        (hrounds (rounds + 1) (Nat.lt_succ_self rounds))
    subst hanswer
    exact ⟨_, .replace hbefore hafter hapart hframed hchanges hframed',
      hchanges.mono (subset_flatten newer es older)⟩

/-! ## Runs -/

theorem blocks_eq {live : List (Nat × List Block)}
    (h : List.Forall₂ (HasRegion nullElement m) live regions) :
    live.flatMap Prod.snd = regions.flatten.flatMap Element.blocks := by
  induction h with
  | nil => rfl
  | cons hregion _ ih =>
    rw [List.flatMap_cons, List.flatten_cons, List.flatMap_append, ih, hregion.blocks]

/-- The blocks of elements of which each is valid are behind all headers. -/
theorem block_behind_header {all : List Element} {b : Block}
    (hall : all.Pairwise Element.Apart) (hvalid : ∀ e ∈ all, e.Valid m) (he : e ∈ all)
    (he' : e' ∈ all) (hb : b ∈ e'.blocks) :
    b.address + b.length ≤ e.start ∨ e.start + 48 ≤ b.address := by
  have hin := (hvalid e' he').stacked.of_mem hb
  have hroom : topOf (e'.start + 48) e'.blocks ≤ e'.finish := (hvalid e' he').room
  have hheader := (hvalid e he).header
  rcases eq_or_apart hall he he' with heq | h | h
  · subst heq
    exact .inr hin.1
  · right
    omega
  · left
    omega

/-- What the program writes to live blocks is in no header. -/
theorem HasRegions.write {mem : Nat → Nat} (h : HasRegions nullElement s regions)
    (hwrite : ∀ x, (∀ b ∈ s.blocks, ¬ b.Contains x) → mem x = s.machine.mem x) :
    HasRegions nullElement { s with machine := { s.machine with mem := mem } } regions where
  each := by
    have hvalid := valid_of_forall₂ h.each
    have hheader : ∀ e ∈ regions.flatten, ∀ i < 48,
        mem (e.start + i) = s.machine.mem (e.start + i) := by
      intro e he i hi
      apply hwrite
      intro b hb hcontains
      have hb : b ∈ s.live.flatMap Prod.snd := hb
      rw [blocks_eq h.each] at hb
      obtain ⟨e', he', hb⟩ := List.mem_flatMap.mp hb
      obtain ⟨hge, hlt⟩ := hcontains
      have := block_behind_header h.apart hvalid he he' hb
      omega
    exact hasRegion_kept h.each hheader
      (Kept.of_header_mem hheader (fun _ _ _ _ _ hx => hx))
  apart := h.apart

theorem HasRegions.step (h : HasRegions nullElement s regions) (hstep : Step nullElement s s') :
    ∃ regions', HasRegions nullElement s' regions' := by
  cases hstep with
  | call hcall =>
    obtain ⟨regions', h', -⟩ := h.call hcall
    exact ⟨regions', h'⟩
  | write hwrite => exact ⟨regions, h.write hwrite⟩

theorem Reachable.hasRegions (h : Reachable nullElement s) :
    ∃ regions, HasRegions nullElement s regions := by
  induction h with
  | start m => exact ⟨[], .nil, .nil⟩
  | step _ hstep ih =>
    obtain ⟨regions, h⟩ := ih
    exact h.step hstep

theorem HasRegion.safe (h : HasRegion nullElement m region es) :
    RegionSafe nullElement m region (es.map Element.start) where
  chain := ⟨h.last, h.first, h.linked⟩
  positions := by
    intro a ha
    obtain ⟨e, he, rfl⟩ := List.mem_map.mp ha
    have hvalid := h.valid e he
    rw [hvalid.currPos, hvalid.endPos]
    exact ⟨hvalid.stacked.base_le, hvalid.room⟩
  mapped := by
    intro a ha x hx hx'
    obtain ⟨e, he, rfl⟩ := List.mem_map.mp ha
    have hvalid := h.valid e he
    rw [hvalid.endPos] at hx'
    exact hvalid.mapped x hx hx'
  blocks := by
    intro b hb
    rw [h.blocks] at hb
    obtain ⟨e, he, hb⟩ := List.mem_flatMap.mp hb
    have hvalid := h.valid e he
    have hin := hvalid.stacked.of_mem hb
    have haligned : 8 ∣ e.start + 48 := Nat.dvd_add hvalid.aligned (by decide)
    refine ⟨(hvalid.stacked.aligned haligned).2 b hb, e.start,
      List.mem_map_of_mem he, hin.1, ?_⟩
    rw [hvalid.endPos]
    exact Nat.le_trans hin.2 hvalid.room

theorem HasRegions.safe (h : HasRegions nullElement s regions) : Safe nullElement s := by
  have hvalid := valid_of_forall₂ h.each
  have hblocks : s.blocks = regions.flatten.flatMap Element.blocks := blocks_eq h.each
  have hstarts : (regions.map (List.map Element.start)).flatten
      = regions.flatten.map Element.start := List.map_flatten.symm
  refine ⟨⟨regions.map (List.map Element.start), ?_, ?_, ?_⟩, ?_⟩
  · rw [List.forall₂_map_right_iff]
    exact h.each.imp (fun _ _ hregion => hregion.safe)
  · rw [hstarts, List.pairwise_map]
    apply h.apart.imp_of_mem
    intro e e' he he' hapart
    rw [(hvalid e he).endPos, (hvalid e' he').endPos]
    exact hapart
  · intro a ha b hb
    rw [hstarts] at ha
    rw [hblocks] at hb
    obtain ⟨e, he, rfl⟩ := List.mem_map.mp ha
    obtain ⟨e', he', hb⟩ := List.mem_flatMap.mp hb
    exact block_behind_header h.apart hvalid he he' hb
  · rw [hblocks, List.pairwise_flatMap]
    refine ⟨fun e he => (hvalid e he).stacked.apart, ?_⟩
    apply h.apart.imp_of_mem
    intro e e' he he' hapart b hb b' hb'
    have hin := (hvalid e he).stacked.of_mem hb
    have hin' := (hvalid e' he').stacked.of_mem hb'
    have hroom : topOf (e.start + 48) e.blocks ≤ e.finish := (hvalid e he).room
    have hroom' : topOf (e'.start + 48) e'.blocks ≤ e'.finish := (hvalid e' he').room
    rcases hapart with h | h
    · left
      omega
    · right
      omega

/-- What is in a live block is mapped and no part of a header. -/
theorem HasRegions.intact (h : HasRegions nullElement s regions)
    (hchanges : Changes s.machine s'.machine regions.flatten) : Intact s s' := by
  intro b hb _ x ⟨hge, hlt⟩
  have hvalid := valid_of_forall₂ h.each
  have hb : b ∈ s.live.flatMap Prod.snd := hb
  rw [blocks_eq h.each] at hb
  obtain ⟨e, he, hb⟩ := List.mem_flatMap.mp hb
  have hin := (hvalid e he).stacked.of_mem hb
  have hroom : topOf (e.start + 48) e.blocks ≤ e.finish := (hvalid e he).room
  apply hchanges.mem x
  · exact (hvalid e he).mapped x (by omega) (by omega)
  · intro e' he' hheader
    have := block_behind_header h.apart hvalid he' he hb
    omega

/-- In every state that a program gets to, the live blocks of its regions are aligned, mapped
and apart from one another and from the headers, the calls keep what the blocks hold that
live on, and `region-free` of a live block ends. -/
theorem reachable_safe (h : Reachable nullElement s) :
    Safe nullElement s ∧ (∀ s', Call nullElement s s' → Intact s s') ∧
      ∀ region ∈ s.live, ∀ b ∈ region.2, ∃ rounds m', ∀ n, rounds < n →
        regionFree nullElement n b.address region.1 s.machine = some m' := by
  obtain ⟨regions, hregions⟩ := h.hasRegions
  refine ⟨hregions.safe, ?_, ?_⟩
  · intro s' hcall
    obtain ⟨_, _, hchanges⟩ := hregions.call hcall
    exact hregions.intact hchanges
  · intro region hregion b hb
    obtain ⟨m, live⟩ := s
    obtain ⟨before, after, rfl⟩ := List.append_of_mem hregion
    obtain ⟨reg, blocks⟩ := region
    obtain ⟨later, earlier, rfl⟩ := List.append_of_mem hb
    obtain ⟨_, _, _, _, _, _, _, hframed⟩ := hregions.exists_framed
    obtain ⟨_, m', _, _, rounds, hrounds⟩ := hframed.free
    exact ⟨rounds, m', hrounds⟩

def firstRegion : Machine := createRegion 0 0 4096 ⟨fun _ => 0, fun _ => false⟩

def tenBytes : Nat × Machine := regionAlloc 0 10 4096 0 firstRegion

/-- The region has no room for these and grows by an element at 2097152. -/
def manyBytes : Nat × Machine := regionAlloc 0 2000000 4096 2097152 tenBytes.2

def fiveBytes : Nat × Machine := regionAlloc 0 5 4096 0 manyBytes.2

/-- The three blocks lie in two elements, and freeing the first one unmaps the second element. -/
theorem reachable_safe_grown :
    [tenBytes.1, manyBytes.1, fiveBytes.1] = [4144, 2097200, 4097200] ∧
    Safe 0 ⟨fiveBytes.2, [(4096, [⟨fiveBytes.1, 8⟩, ⟨manyBytes.1, 2000000⟩, ⟨tenBytes.1, 16⟩])]⟩ ∧
    ∃ m', regionFree 0 2 tenBytes.1 4096 fiveBytes.2 = some m' ∧ m'.mapped 2097152 = false ∧
      Safe 0 ⟨m', [(4096, [])]⟩ := by
  have hcreate : Reachable 0 ⟨firstRegion, [(4096, [])]⟩ :=
    .step (.start ⟨fun _ => 0, fun _ => false⟩)
      (.call (.create ⟨by decide, fun _ _ _ => rfl⟩))
  have hten : Reachable 0 ⟨tenBytes.2, [(4096, [⟨tenBytes.1, 16⟩])]⟩ := by
    apply hcreate.step
    apply Step.call
    refine @Call.alloc 0 firstRegion tenBytes.2 [] [] 4096 0 tenBytes.1 [] 10 ?_
      (Prod.eta tenBytes).symm
    intro hfull
    exact absurd hfull (by decide +kernel)
  have hpad : padSize 2000000 allocAlignment = 2000000 := by decide
  have hmany : Reachable 0 ⟨manyBytes.2,
      [(4096, [⟨manyBytes.1, padSize 2000000 allocAlignment⟩, ⟨tenBytes.1, 16⟩])]⟩ := by
    apply hten.step
    apply Step.call
    refine @Call.alloc 0 tenBytes.2 manyBytes.2 [] [] 4096 2097152 manyBytes.1
      [⟨tenBytes.1, 16⟩] 2000000 ?_ (Prod.eta manyBytes).symm
    intro _
    refine ⟨by decide, ?_⟩
    intro x hx _
    show ((4096 ≤ x && x < 4096 + elementLength 0) || false) = false
    have hlength : elementLength 0 = 1048576 := by decide
    rw [hlength]
    simp only [Bool.or_false, Bool.and_eq_false_iff, decide_eq_false_iff_not]
    omega
  rw [hpad] at hmany
  have hfive : Reachable 0 ⟨fiveBytes.2,
      [(4096, [⟨fiveBytes.1, 8⟩, ⟨manyBytes.1, 2000000⟩, ⟨tenBytes.1, 16⟩])]⟩ := by
    apply hmany.step
    apply Step.call
    refine @Call.alloc 0 manyBytes.2 fiveBytes.2 [] [] 4096 0 fiveBytes.1
      [⟨manyBytes.1, 2000000⟩, ⟨tenBytes.1, 16⟩] 5 ?_ (Prod.eta fiveBytes).symm
    intro hfull
    exact absurd hfull (by decide +kernel)
  have hunmapped : (regionFree 0 2 tenBytes.1 4096 fiveBytes.2).map
      (fun m' => m'.mapped 2097152) = some false := by decide +kernel
  obtain ⟨m', hfree, hmapped⟩ := Option.map_eq_some_iff.mp hunmapped
  have hfreed : Reachable 0 ⟨m', [(4096, [])]⟩ := by
    apply hfive.step
    apply Step.call
    exact @Call.free 0 fiveBytes.2 m' [] [] 4096
      [⟨fiveBytes.1, 8⟩, ⟨manyBytes.1, 2000000⟩] [] ⟨tenBytes.1, 16⟩ 2 hfree
  exact ⟨by decide +kernel, (reachable_safe hfive).1, m', hfree, hmapped,
    (reachable_safe hfreed).1⟩

end L2.SelfHost.RegionAllocator
