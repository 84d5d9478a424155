import L2.Bootstrap.Integrity
import L2.Bootstrap.SymbolTable
import L2.X86.Bytes

/-!
# Reading a written file

The loader reads from a file that has been written what has been written to it: the headers,
the contents of the sections, the symbols and the relocations.
-/

namespace L2.Bootstrap

open X86 (Word Byte Memory bytesOf low BytesAt bytesAt_append)
open ObjectFile (Shdr Sym SHT_SYMTAB SHT_RELA SHT_NOBITS readNumber readShdr readSym readRela
  fileShdrs contents fileTable fileSyms fileRelas copied fileSection SectionIntact)

/-! ## Numbers -/

theorem toNat_low {k n : Nat} (h : k < 2 ^ (8 * n)) (hn : n ≤ 8) :
    (low n (BitVec.ofNat 64 k)).toNat = k := by
  have hword : k < 2 ^ 64 := Nat.lt_of_lt_of_le h (Nat.pow_le_pow_right (by omega) (by omega))
  unfold low
  rw [BitVec.toNat_setWidth, BitVec.toNat_setWidth, BitVec.toNat_ofNat, Nat.mod_eq_of_lt hword,
    Nat.mod_eq_of_lt h, Nat.mod_eq_of_lt hword]

theorem readNumber_bytesOf {k n : Nat} (h : k < 2 ^ (8 * n)) (hn : n ≤ 8) (rest : List Byte) :
    readNumber (bytesOf n (BitVec.ofNat 64 k) ++ rest) 0 n = some k := by
  unfold readNumber
  rw [List.drop_zero, X86.takeBytes_bytesOf]
  exact congrArg some (toNat_low h hn)

/-- What stands before a number does not matter. -/
theorem readNumber_append (before rest : List Byte) (pos n : Nat) :
    readNumber (before ++ rest) (before.length + pos) n = readNumber rest pos n := by
  unfold readNumber
  rw [← List.drop_drop, List.drop_left]

theorem readNumber_skip {m : Nat} (v : Word) (rest : List Byte) (pos n : Nat) :
    readNumber (bytesOf m v ++ rest) (m + pos) n = readNumber rest pos n := by
  have h := readNumber_append (bytesOf m v) rest pos n
  rwa [X86.length_bytesOf] at h

/-! ## Headers -/

/-- The fields have room where they are written. -/
structure SectionHeader.Fits (h : SectionHeader) : Prop where
  name : h.shName < 2 ^ 32
  type : h.shType < 2 ^ 32
  offset : h.shOffset < 2 ^ 64
  size : h.shSize < 2 ^ 64
  link : h.shLink < 2 ^ 32
  info : h.shInfo < 2 ^ 32
  entsize : h.shEntsize < 2 ^ 64

variable {h : SectionHeader} {hs : List SectionHeader}

theorem readShdr_bytes (hfits : h.Fits) (rest : List Byte) :
    readShdr (h.bytes ++ rest) 0 = some h.toShdr := by
  have htype : readNumber (h.bytes ++ rest) (4 + 0) 4 = some h.shType := by
    unfold SectionHeader.bytes
    simp only [List.append_assoc]
    rw [readNumber_skip, readNumber_bytesOf hfits.type (by omega)]
  have hoffset : readNumber (h.bytes ++ rest) (4 + (4 + (8 + (8 + 0)))) 8 = some h.shOffset := by
    unfold SectionHeader.bytes
    simp only [List.append_assoc]
    rw [readNumber_skip, readNumber_skip, readNumber_skip, readNumber_skip,
      readNumber_bytesOf hfits.offset (by omega)]
  have hsize : readNumber (h.bytes ++ rest) (4 + (4 + (8 + (8 + (8 + 0))))) 8 =
      some h.shSize := by
    unfold SectionHeader.bytes
    simp only [List.append_assoc]
    rw [readNumber_skip, readNumber_skip, readNumber_skip, readNumber_skip, readNumber_skip,
      readNumber_bytesOf hfits.size (by omega)]
  have hlink : readNumber (h.bytes ++ rest) (4 + (4 + (8 + (8 + (8 + (8 + 0)))))) 4 =
      some h.shLink := by
    unfold SectionHeader.bytes
    simp only [List.append_assoc]
    rw [readNumber_skip, readNumber_skip, readNumber_skip, readNumber_skip, readNumber_skip,
      readNumber_skip, readNumber_bytesOf hfits.link (by omega)]
  have hinfo : readNumber (h.bytes ++ rest) (4 + (4 + (8 + (8 + (8 + (8 + (4 + 0))))))) 4 =
      some h.shInfo := by
    unfold SectionHeader.bytes
    simp only [List.append_assoc]
    rw [readNumber_skip, readNumber_skip, readNumber_skip, readNumber_skip, readNumber_skip,
      readNumber_skip, readNumber_skip, readNumber_bytesOf hfits.info (by omega)]
  have hentsize : readNumber (h.bytes ++ rest)
      (4 + (4 + (8 + (8 + (8 + (8 + (4 + (4 + (8 + 0))))))))) 8 = some h.shEntsize := by
    unfold SectionHeader.bytes
    simp only [List.append_assoc]
    rw [readNumber_skip, readNumber_skip, readNumber_skip, readNumber_skip, readNumber_skip,
      readNumber_skip, readNumber_skip, readNumber_skip, readNumber_skip,
      readNumber_bytesOf hfits.entsize (by omega)]
  unfold readShdr
  simp only [Nat.zero_add]
  simp only [Nat.add_zero, Nat.reduceAdd] at htype hoffset hsize hlink hinfo hentsize
  rw [htype, hoffset, hsize, hlink, hinfo, hentsize]
  rfl

theorem readName_bytes (hfits : h.Fits) (rest : List Byte) :
    readNumber (h.bytes ++ rest) 0 4 = some h.shName := by
  unfold SectionHeader.bytes
  simp only [List.append_assoc]
  exact readNumber_bytesOf hfits.name (by omega) _

theorem readShdr_append (before rest : List Byte) :
    readShdr (before ++ rest) before.length = readShdr rest 0 := by
  unfold readShdr
  simp only [readNumber_append, Nat.zero_add]

/-- The bytes from a header of a row on. -/
theorem flatMap_headers {i : Nat} (hi : hs[i]? = some h) (before rest : List Byte) :
    ∃ front after, before ++ (hs.flatMap SectionHeader.bytes ++ rest) =
      front ++ (h.bytes ++ after) ∧ front.length = before.length + 64 * i := by
  obtain ⟨hlt, rfl⟩ := List.getElem?_eq_some_iff.mp hi
  refine ⟨before ++ (hs.take i).flatMap SectionHeader.bytes,
    (hs.drop (i + 1)).flatMap SectionHeader.bytes ++ rest, ?_, ?_⟩
  · have hsplit : hs = hs.take i ++ hs[i] :: hs.drop (i + 1) := by
      rw [List.getElem_cons_drop, List.take_append_drop]
    nth_rewrite 1 [hsplit]
    rw [List.flatMap_append, List.flatMap_cons]
    simp only [List.append_assoc]
  · rw [List.length_append, length_flatMap_of length_sectionHeader, List.length_take,
      Nat.min_eq_left (Nat.le_of_lt hlt)]

theorem mapM_range' {α : Type} {f : Nat → Option α} {l : List α} {start : Nat}
    (hf : ∀ i a, l[i]? = some a → f (start + i) = some a) :
    (List.range' start l.length).mapM f = some l := by
  induction l generalizing start with
  | nil => rfl
  | cons a l ih =>
    have hrest : (List.range' (start + 1) l.length).mapM f = some l := by
      apply ih
      intro i b hb
      rw [Nat.add_assoc, Nat.add_comm 1]
      exact hf (i + 1) b hb
    have hfirst : f start = some a := hf 0 a rfl
    rw [List.length_cons, List.range'_succ, List.mapM_cons, hfirst, hrest]
    rfl

theorem mapM_range {α : Type} {f : Nat → Option α} {l : List α}
    (hf : ∀ i a, l[i]? = some a → f i = some a) : (List.range l.length).mapM f = some l := by
  rw [List.range_eq_range']
  apply mapM_range'
  intro i a ha
  rw [Nat.zero_add]
  exact hf i a ha

/-- The headers of a row are read. -/
theorem mapM_readShdr (before rest : List Byte) (hfits : ∀ h ∈ hs, h.Fits) :
    (List.range hs.length).mapM (fun i =>
      readShdr (before ++ (hs.flatMap SectionHeader.bytes ++ rest)) (before.length + 64 * i)) =
      some (hs.map SectionHeader.toShdr) := by
  rw [← List.length_map SectionHeader.toShdr]
  apply mapM_range
  intro i shdr hi
  rw [List.getElem?_map] at hi
  obtain ⟨h, hh, rfl⟩ := Option.map_eq_some_iff.mp hi
  obtain ⟨front, after, heq, hlength⟩ := flatMap_headers hh before rest
  rw [heq, ← hlength, readShdr_append]
  exact readShdr_bytes (hfits h (List.mem_of_getElem? hh)) after

theorem mapM_readName (before rest : List Byte) (hfits : ∀ h ∈ hs, h.Fits) :
    (List.range hs.length).mapM (fun i =>
      readNumber (before ++ (hs.flatMap SectionHeader.bytes ++ rest)) (before.length + 64 * i) 4) =
      some (hs.map SectionHeader.shName) := by
  rw [← List.length_map SectionHeader.shName]
  apply mapM_range
  intro i name hi
  rw [List.getElem?_map] at hi
  obtain ⟨h, hh, rfl⟩ := Option.map_eq_some_iff.mp hi
  obtain ⟨front, after, heq, hlength⟩ := flatMap_headers hh before rest
  rw [heq, ← hlength]
  exact (readNumber_append front (h.bytes ++ after) 0 4).trans
    (readName_bytes (hfits h (List.mem_of_getElem? hh)) after)

/-! ## Contents of sections -/

variable {shdr : Shdr} {bytes before after : List Byte} {mem : Memory} {seg : Word}

/-- Memory that holds a section has the bytes that the file has there. -/
theorem bytesAt_of_holds (hholds : ObjectFile.Holds (before ++ (bytes ++ after)) shdr seg mem)
    (hoffset : shdr.shOffset = before.length) (hsize : shdr.shSize = bytes.length)
    (hlt : bytes.length < 2 ^ 64) : BytesAt mem seg bytes := by
  intro i b hb
  obtain ⟨hi, -⟩ := List.getElem?_eq_some_iff.mp hb
  rw [hholds i (by omega)]
  unfold contents
  rw [BitVec.toNat_ofNat, Nat.mod_eq_of_lt (by omega), hoffset, List.getD_eq_getElem?_getD,
    List.getElem?_append_right (by omega), Nat.add_sub_cancel_left, List.getElem?_append_left hi,
    hb]
  rfl

/-- The contents of a section of the file, from address 0 on. -/
theorem bytesAt_contents (hoffset : shdr.shOffset = before.length) (hlt : bytes.length < 2 ^ 64) :
    BytesAt (contents (before ++ (bytes ++ after)) shdr) 0#64 bytes := by
  intro i b hb
  obtain ⟨hi, -⟩ := List.getElem?_eq_some_iff.mp hb
  unfold contents
  rw [BitVec.zero_add, BitVec.toNat_ofNat, Nat.mod_eq_of_lt (by omega), hoffset,
    List.getD_eq_getElem?_getD, List.getElem?_append_right (by omega), Nat.add_sub_cancel_left,
    List.getElem?_append_left hi, hb]
  rfl

/-! ## Tables -/

/-- The fields have room where they are written. -/
structure SymFits (sym : Sym) : Prop where
  name : sym.stName < 2 ^ 32
  shndx : sym.stShndx < 2 ^ 16

theorem readSym_bytes {sym : Sym} {a : Word} (hfits : SymFits sym)
    (hbytes : BytesAt mem a (symBytes sym)) : readSym mem a = sym := by
  unfold symBytes at hbytes
  simp only [bytesAt_append, X86.length_bytesOf, List.length_singleton, BitVec.add_assoc,
    ← BitVec.ofNat_add] at hbytes
  obtain ⟨hname, hinfo, -, hshndx, hvalue, hsize⟩ := hbytes
  have hinfo4 : mem (a + 4) = sym.stInfo := (X86.bytesAt_cons.mp hinfo).1
  have hname4 := congrArg BitVec.toNat hname.load_bytesOf
  have hshndx2 := congrArg BitVec.toNat hshndx.load_bytesOf
  rw [toNat_low hfits.name (by omega)] at hname4
  rw [toNat_low hfits.shndx (by omega)] at hshndx2
  have hvalue8 := hvalue.load_bytesOf
  have hsize8 := hsize.load_bytesOf
  rw [X86.low_eight] at hvalue8 hsize8
  unfold readSym
  cases sym
  simp_all

theorem readRela_bytes {rela : ObjectFile.Rela} {a : Word}
    (hbytes : BytesAt mem a (relaBytes rela)) : readRela SHT_RELA mem a = rela := by
  unfold relaBytes at hbytes
  simp only [bytesAt_append, X86.length_bytesOf, BitVec.add_assoc, ← BitVec.ofNat_add] at hbytes
  obtain ⟨hoffset, hinfo, haddend⟩ := hbytes
  have hoffset8 := hoffset.load_bytesOf
  have hinfo8 := hinfo.load_bytesOf
  have haddend8 := haddend.load_bytesOf
  rw [X86.low_eight] at hoffset8 hinfo8 haddend8
  unfold readRela
  cases rela
  simp_all

/-- Bytes of a row of things that take `n` bytes each. -/
theorem bytesAt_flatMap {α : Type} {f : α → List Byte} {n : Nat} (hf : ∀ x, (f x).length = n)
    {l : List α} {a : Word} (hbytes : BytesAt mem a (l.flatMap f)) {i : Nat} {x : α}
    (hx : l[i]? = some x) : BytesAt mem (a + BitVec.ofNat 64 (n * i)) (f x) := by
  obtain ⟨hlt, rfl⟩ := List.getElem?_eq_some_iff.mp hx
  have hsplit : l = l.take i ++ l[i] :: l.drop (i + 1) := by
    rw [List.getElem_cons_drop, List.take_append_drop]
  rw [hsplit, List.flatMap_append, List.flatMap_cons, bytesAt_append, bytesAt_append] at hbytes
  have hlength : ((l.take i).flatMap f).length = n * i := by
    rw [length_flatMap_of hf, List.length_take, Nat.min_eq_left (Nat.le_of_lt hlt)]
  rw [hlength] at hbytes
  exact hbytes.2.1

/-- A table of entries that can be read is read. -/
theorem fileTable_eq {α : Type} {f : α → List Byte} {n : Nat} (hf : ∀ x, (f x).length = n)
    (hn : 0 < n) {read : Word → α} {l : List α} {m : Memory}
    (hread : ∀ x ∈ l, ∀ a, BytesAt m a (f x) → read a = x) (hbytes : BytesAt m 0#64 (l.flatMap f))
    (hentsize : shdr.shEntsize = n) (hsize : shdr.shSize = n * l.length) :
    fileTable read shdr = l := by
  unfold fileTable
  rw [hsize, hentsize, Nat.mul_div_cancel_left _ hn]
  apply List.ext_getElem?
  intro i
  rw [List.getElem?_map]
  by_cases hi : i < l.length
  · have hx : l[i]? = some l[i] := List.getElem?_eq_getElem hi
    rw [List.getElem?_range hi, hx, Option.map_some]
    have hentry := bytesAt_flatMap hf hbytes hx
    rw [BitVec.zero_add] at hentry
    rw [hread _ (List.getElem_mem hi) _ hentry]
  · rw [List.getElem?_eq_none (by rw [List.length_range]; omega),
      List.getElem?_eq_none (by omega)]
    rfl

theorem fileSyms_eq {syms : List Sym} (hoffset : shdr.shOffset = before.length)
    (hlt : (syms.flatMap symBytes).length < 2 ^ 64) (hfits : ∀ sym ∈ syms, SymFits sym)
    (htype : shdr.shType = SHT_SYMTAB) (hentsize : shdr.shEntsize = 24)
    (hsize : shdr.shSize = 24 * syms.length) :
    fileSyms (before ++ (syms.flatMap symBytes ++ after)) shdr = syms := by
  unfold fileSyms
  rw [if_pos htype]
  exact fileTable_eq length_symBytes (by omega)
    (fun sym hsym a h => readSym_bytes (hfits sym hsym) h) (bytesAt_contents hoffset hlt) hentsize
    hsize

theorem fileRelas_eq {relas : List ObjectFile.Rela} (hoffset : shdr.shOffset = before.length)
    (hlt : (relas.flatMap relaBytes).length < 2 ^ 64) (htype : shdr.shType = SHT_RELA)
    (hentsize : shdr.shEntsize = 24) (hsize : shdr.shSize = 24 * relas.length) :
    fileRelas (before ++ (relas.flatMap relaBytes ++ after)) shdr = relas := by
  have hrel : shdr.isRelocations = true := by
    unfold Shdr.isRelocations
    rw [htype]
    decide
  unfold fileRelas
  rw [if_pos hrel, htype]
  exact fileTable_eq length_relaBytes (by omega) (fun rela _ a h => readRela_bytes h)
    (bytesAt_contents hoffset hlt) hentsize hsize

/-! ## Sections in memory -/

/-- Sections at their addresses have no byte in common. -/
def SegmentsApart (l : List (Word × Shdr)) : Prop :=
  l.Pairwise fun x y => ∀ a : Word,
    ¬ ((a - x.1).toNat < x.2.shSize ∧ (a - y.1).toNat < y.2.shSize)

variable {objsrc : List Byte} {l : List (Word × Shdr)} {x : Word × Shdr}

/-- Memory after the section has been read to its address. -/
def copyOf (objsrc : List Byte) (mem : Memory) (x : Word × Shdr) : Memory :=
  if x.2.shType = SHT_NOBITS then mem else copied objsrc x.2 x.1 mem

theorem copyOf_outside {a : Word} (h : ¬ (a - x.1).toNat < x.2.shSize) (mem : Memory) :
    copyOf objsrc mem x a = mem a := by
  unfold copyOf
  split
  · rfl
  · exact if_neg h

theorem readSection_copyOf {pos : Nat} (hshdr : readShdr objsrc pos = some shdr)
    (hintact : SectionIntact objsrc shdr) (seg : Word) (mem : Memory) :
    ObjectFile.readSection objsrc pos seg mem =
      some (fileSection objsrc shdr seg, copyOf objsrc mem (seg, shdr)) := by
  obtain ⟨mem', hread⟩ := ObjectFile.readSection_some.mpr ⟨shdr, hshdr, hintact, rfl⟩
  have hmem := hread
  rw [ObjectFile.readSection_eq, hshdr, Option.bind_some] at hmem
  obtain ⟨mem₁, hmem₁, hmem⟩ := Option.bind_eq_some_iff.mp hmem
  obtain ⟨tables, -, hmem⟩ := Option.map_eq_some_iff.mp hmem
  have heq : mem' = copyOf objsrc mem (seg, shdr) := by
    have hsame : mem₁ = mem' := congrArg Prod.snd hmem
    rw [← hsame]
    unfold copyOf
    split at hmem₁
    · next hnobits =>
      rw [if_pos hnobits]
      exact (Option.some.inj hmem₁).symm
    · next hnobits =>
      rw [if_neg hnobits]
      split at hmem₁
      · exact (Option.some.inj hmem₁).symm
      · cases hmem₁
  rw [hread, heq]

theorem readSections_copyOf {shoff shentsize : Nat} (place : Nat → Word) {is : List Nat}
    {shdrs : List Shdr}
    (h : is.mapM (fun i => readShdr objsrc (shoff + shentsize * i)) = some shdrs)
    (hall : ∀ shdr ∈ shdrs, SectionIntact objsrc shdr) (mem : Memory) :
    ObjectFile.readSections objsrc shoff shentsize place is mem =
      some (((is.map place).zip shdrs).map fun x => fileSection objsrc x.2 x.1,
        ((is.map place).zip shdrs).foldl (copyOf objsrc) mem) := by
  induction is generalizing mem shdrs with
  | nil =>
    cases h
    rfl
  | cons i is ih =>
    rw [List.mapM_cons] at h
    obtain ⟨shdr, hshdr, h⟩ := Option.bind_eq_some_iff.mp h
    obtain ⟨rest, hrest, h⟩ := Option.bind_eq_some_iff.mp h
    cases h
    obtain ⟨hintact, hall⟩ := List.forall_mem_cons.mp hall
    unfold ObjectFile.readSections
    rw [readSection_copyOf hshdr hintact, Option.bind_eq_bind, Option.bind_some]
    show Option.bind _ _ = _
    rw [ih hrest hall]
    rfl

theorem copies_outside {a : Word} (h : ∀ x ∈ l, ¬ (a - x.1).toNat < x.2.shSize) (mem : Memory) :
    l.foldl (copyOf objsrc) mem a = mem a := by
  induction l generalizing mem with
  | nil => rfl
  | cons x l ih =>
    obtain ⟨hx, hl⟩ := List.forall_mem_cons.mp h
    rw [List.foldl_cons, ih hl, copyOf_outside hx]

/-- What has been copied of a section stays where the sections are apart. -/
theorem holds_copies (objsrc : List Byte) (hapart : SegmentsApart l) (hx : x ∈ l)
    (hnobits : x.2.shType ≠ SHT_NOBITS) (hsize : x.2.shSize < 2 ^ 64) (mem : Memory) :
    ObjectFile.Holds objsrc x.2 x.1 (l.foldl (copyOf objsrc) mem) := by
  induction l generalizing mem with
  | nil => exact absurd hx List.not_mem_nil
  | cons y l ih =>
    unfold SegmentsApart at hapart
    obtain ⟨hy, hl⟩ := List.pairwise_cons.mp hapart
    rw [List.foldl_cons]
    rcases List.mem_cons.mp hx with rfl | hx
    · intro i hi
      have hplace := X86.toNat_add_sub x.1 (i := i) (by omega)
      have hrest : l.foldl (copyOf objsrc) (copyOf objsrc mem x) (x.1 + BitVec.ofNat 64 i) =
          copyOf objsrc mem x (x.1 + BitVec.ofNat 64 i) :=
        copies_outside (fun z hz hin => hy z hz _ ⟨by omega, hin⟩) _
      rw [hrest]
      unfold copyOf
      rw [if_neg hnobits]
      exact ObjectFile.holds_copied hsize x.1 mem i hi
    · exact ih hl hx (copyOf objsrc mem y)

end L2.Bootstrap
