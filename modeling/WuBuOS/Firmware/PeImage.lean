import WuBuOS.Firmware.PeLoad

/-!
# What an image file asks for

The loader beside the account of it that never goes wrong: a section is written where it says (`placeSection`),
a fixup is added where its entry says (`moveEntry`), `none` where the file is refused.  `SectionFits`,
`EntryFits` and `BlockFits` are what the bytes of the file must meet for the code to keep to the account;
where they do not, an access of the code leaves its buffer.
-/

namespace WuBuOS.Firmware

open Guarded

/-! ## Headers -/

/-- What the loader can rely on once it has accepted the headers. -/
structure PeHeaders.Sound (h : PeHeaders) : Prop where
  base : h.imageBase < 2 ^ 64
  pos : 0 < h.sizeOfImage
  le : h.sizeOfImage ≤ 2 ^ 29

theorem readFields_ok {f : Buffer} {coff : Nat} (hin : coff + coffSize + optSize ≤ f.size) :
    ∃ h, readFields f coff = .ok h ∧ h.imageBase < 2 ^ 64 := by
  simp only [coffSize, optSize] at hin
  have hbase : Bytes.get f.byte (coff + 20 + 24) 8 < 2 ^ 64 := Bytes.get_lt ..
  unfold readFields
  simp only [coffSize, dirBasereloc]
  rw [Buffer.get_eq (show coff + 2 + 2 ≤ f.size by omega), Buffer.get_eq (show coff + 16 + 2 ≤ f.size by omega),
    Buffer.get_eq (show coff + 20 + 16 + 4 ≤ f.size by omega),
    Buffer.get_eq (show coff + 20 + 24 + 8 ≤ f.size by omega),
    Buffer.get_eq (show coff + 20 + 56 + 4 ≤ f.size by omega),
    Buffer.get_eq (show coff + 20 + 60 + 4 ≤ f.size by omega),
    Buffer.get_eq (show coff + 20 + 68 + 2 ≤ f.size by omega),
    Buffer.get_eq (show coff + 20 + 108 + 4 ≤ f.size by omega),
    Buffer.get_eq (show coff + 20 + 112 + 8 * 5 + 4 ≤ f.size by omega),
    Buffer.get_eq (show coff + 20 + 116 + 8 * 5 + 4 ≤ f.size by omega)]
  simp only [ok_bind]
  exact ⟨_, rfl, hbase⟩

/-- **Headers are refused, or they are sound.** -/
theorem readHeaders_cases (f : Buffer) :
    readHeaders f = .error .refused ∨ ∃ h : PeHeaders, readHeaders f = .ok h ∧ h.Sound := by
  unfold readHeaders
  split
  · exact .inl rfl
  rename_i hsize
  rw [Buffer.get_eq (show 0 + 2 ≤ f.size by omega), ok_bind]
  split
  · exact .inl rfl
  rw [Buffer.get_eq (show 0x3C + 4 ≤ f.size by omega), ok_bind]
  generalize Bytes.get f.byte 0x3C 4 = lfanew
  split
  · exact .inl rfl
  rename_i hin
  simp only [coffSize, optSize] at hin
  rw [Buffer.get_eq (show lfanew + 4 ≤ f.size by omega), ok_bind]
  split
  · exact .inl rfl
  obtain ⟨h, hread, hbase⟩ := readFields_ok (show lfanew + 4 + coffSize + optSize ≤ f.size by simp only [coffSize, optSize]; omega)
  rw [Buffer.get_eq (show lfanew + 4 + 2 ≤ f.size by omega), hread, ok_bind, ok_bind]
  split
  · exact .inl rfl
  split
  · exact .inl rfl
  split
  · exact .inl rfl
  · exact .inr ⟨h, rfl, hbase, by omega, by omega⟩

theorem PeHeaders.size_le (h : PeHeaders) : h.sizeOfImage ≤ h.pages * efiPageSize := by
  unfold PeHeaders.pages
  simp only [efiPageSize]
  omega

theorem PeHeaders.Sound.pages_le {h : PeHeaders} (hs : h.Sound) : h.pages * efiPageSize ≤ 2 ^ 29 := by
  have hle := hs.le
  unfold PeHeaders.pages
  simp only [efiPageSize]
  omega

theorem PeHeaders.Sound.pages_ne_zero {h : PeHeaders} (hs : h.Sound) : h.pages ≠ 0 := by
  have hpos := hs.pos
  unfold PeHeaders.pages
  simp only [efiPageSize]
  omega

/-! ## Sections -/

/-- `VirtualSize`, `VirtualAddress`, `SizeOfRawData` and `PointerToRawData` of the section header at `s`. -/
def virtualSize (f : Buffer) (s : Nat) : Nat := Bytes.get f.byte (s + 8) 4

def virtualAddress (f : Buffer) (s : Nat) : Nat := Bytes.get f.byte (s + 12) 4

def sizeOfRawData (f : Buffer) (s : Nat) : Nat := Bytes.get f.byte (s + 16) 4

def pointerToRawData (f : Buffer) (s : Nat) : Nat := Bytes.get f.byte (s + 20) 4

/-- The number of bytes that the section copies. -/
def rawBytes (f : Buffer) (s : Nat) : Nat :=
  rawSize f.size (sizeOfRawData f s) (pointerToRawData f s) (virtualSize f s)

/-- The image with the section in it. -/
def placeSection (f : Buffer) (h : PeHeaders) (s : Nat) (m : Nat → UInt8) : Option (Nat → UInt8) :=
  if h.sizeOfImage < virtualAddress f s + virtualSize f s then none
  else some (Bytes.write m (virtualAddress f s) (rawBytes f s) fun i => f.byte (pointerToRawData f s + i))

/-- The section header is in the file, as far as it is read, and a section without a virtual size does not copy
more than there is room for. -/
def SectionFits (f : Buffer) (h : PeHeaders) (s : Nat) : Prop :=
  s + 16 ≤ f.size ∧ (virtualAddress f s + virtualSize f s ≤ h.sizeOfImage →
    s + 20 ≤ f.size ∧ (sizeOfRawData f s ≠ 0 → s + 24 ≤ f.size ∧
      (virtualSize f s = 0 → virtualAddress f s + rawBytes f s ≤ h.pages * efiPageSize)))

instance (f : Buffer) (h : PeHeaders) (s : Nat) : Decidable (SectionFits f h s) :=
  inferInstanceAs (Decidable (_ ∧ (_ → _ ∧ (_ → _ ∧ (_ → _)))))

section

variable {fileSize raw start vsize : Nat}

/-- What the file has of the raw data. -/
theorem rawSize_eq : ∃ r ≤ raw, (r = 0 ∨ start + r ≤ fileSize) ∧
    rawSize fileSize raw start vsize = if vsize < r ∧ vsize ≠ 0 then vsize else r := by
  refine ⟨_, ?_, ?_, rfl⟩
  · split
    · split <;> omega
    · omega
  · split
    · split <;> omega
    · omega

@[simp]
theorem rawSize_zero : rawSize fileSize 0 start vsize = 0 := by
  obtain ⟨r, hr, -, he⟩ := @rawSize_eq fileSize 0 start vsize
  rw [he]
  split <;> omega

/-- What is copied is in the file. -/
theorem rawSize_file (h : rawSize fileSize raw start vsize ≠ 0) :
    start + rawSize fileSize raw start vsize ≤ fileSize := by
  obtain ⟨r, -, hfile, he⟩ := @rawSize_eq fileSize raw start vsize
  rw [he] at h ⊢
  split at h <;> rename_i hv
  · rw [if_pos hv]
    omega
  · rw [if_neg hv]
    omega

theorem rawSize_le (h : vsize ≠ 0) : rawSize fileSize raw start vsize ≤ vsize := by
  obtain ⟨r, -, -, he⟩ := @rawSize_eq fileSize raw start vsize
  rw [he]
  split <;> omega

end

variable {f : Buffer} {h : PeHeaders} {s : Nat} {m : Nat → UInt8}

theorem write_nothing (m : Nat → UInt8) (a : Nat) (g : Nat → UInt8) : Bytes.write m a 0 g = m :=
  funext fun _ => Bytes.write_outside (by omega)

/-- **A section that fits is placed, and one that does not is read or written out of bounds.** -/
theorem loadSection_checks (s : Nat) (m : Nat → UInt8) :
    (SectionFits f h s → loadSection f h (h.pages * efiPageSize) s m = answer (placeSection f h s m)) ∧
      (¬SectionFits f h s → loadSection f h (h.pages * efiPageSize) s m = .error .wild) := by
  have hsize := h.size_le
  unfold loadSection
  by_cases h16 : s + 16 ≤ f.size
  case neg =>
    rw [Buffer.get_wild (show f.size < s + 12 + 4 by omega)]
    exact ⟨fun hfit => absurd hfit.1 h16, fun _ => rfl⟩
  rw [Buffer.get_eq (show s + 12 + 4 ≤ f.size by omega), Buffer.get_eq (show s + 8 + 4 ≤ f.size by omega), ok_bind,
    ok_bind]
  show (_ → (if h.sizeOfImage < virtualAddress f s + virtualSize f s then _ else _) = _) ∧
    (_ → (if h.sizeOfImage < virtualAddress f s + virtualSize f s then _ else _) = _)
  unfold placeSection SectionFits
  by_cases hout : h.sizeOfImage < virtualAddress f s + virtualSize f s
  · rw [if_pos hout, if_pos hout]
    exact ⟨fun _ => rfl, fun hfit => absurd ⟨h16, fun hle => absurd hle (Nat.not_le_of_lt hout)⟩ hfit⟩
  have hin := Nat.le_of_not_lt hout
  rw [if_neg hout, if_neg hout]
  by_cases h20 : s + 20 ≤ f.size
  case neg =>
    rw [Buffer.get_wild (show f.size < s + 16 + 4 by omega)]
    exact ⟨fun hfit => absurd (hfit.2 hin).1 h20, fun _ => rfl⟩
  rw [Buffer.get_eq (show s + 16 + 4 ≤ f.size by omega), ok_bind]
  show (_ → (if sizeOfRawData f s = 0 then _ else _) = _) ∧ (_ → (if sizeOfRawData f s = 0 then _ else _) = _)
  by_cases hraw : sizeOfRawData f s = 0
  · rw [if_pos hraw, rawBytes, hraw, rawSize_zero, write_nothing]
    exact ⟨fun _ => rfl, fun hfit => absurd ⟨h16, fun _ => ⟨h20, fun hne => absurd rfl hne⟩⟩ hfit⟩
  rw [if_neg hraw]
  by_cases h24 : s + 24 ≤ f.size
  case neg =>
    rw [Buffer.get_wild (show f.size < s + 20 + 4 by omega)]
    exact ⟨fun hfit => absurd ((hfit.2 hin).2 hraw).1 h24, fun _ => rfl⟩
  rw [Buffer.get_eq (show s + 20 + 4 ≤ f.size by omega), ok_bind]
  show (_ → (if rawBytes f s = 0 then _ else Buffer.copy _ _ f (pointerToRawData f s) (rawBytes f s)) = _) ∧
    (_ → (if rawBytes f s = 0 then _ else Buffer.copy _ _ f (pointerToRawData f s) (rawBytes f s)) = _)
  by_cases hzero : rawBytes f s = 0
  · rw [if_pos hzero, hzero, write_nothing]
    refine ⟨fun _ => rfl, fun hfit => absurd ⟨h16, fun _ => ⟨h20, fun _ => ⟨h24, fun _ => ?_⟩⟩⟩ hfit⟩
    omega
  rw [if_neg hzero]
  have hfile : pointerToRawData f s + rawBytes f s ≤ f.size := rawSize_file hzero
  by_cases hroom : virtualSize f s = 0 → virtualAddress f s + rawBytes f s ≤ h.pages * efiPageSize
  · have hdst : virtualAddress f s + rawBytes f s ≤ h.pages * efiPageSize := by
      by_cases hv : virtualSize f s = 0
      · exact hroom hv
      · have hle : rawBytes f s ≤ virtualSize f s := rawSize_le hv
        omega
    rw [Buffer.copy_eq hdst hfile]
    exact ⟨fun _ => rfl, fun hfit => absurd ⟨h16, fun _ => ⟨h20, fun _ => ⟨h24, hroom⟩⟩⟩ hfit⟩
  · rw [Buffer.copy_wild (show h.pages * efiPageSize < virtualAddress f s + rawBytes f s by omega)]
    exact ⟨fun hfit => absurd ((hfit.2 hin).2 hraw).2 hroom, fun _ => rfl⟩

/-- The image with the headers in it, all else is clear. -/
def headerImage (f : Buffer) (h : PeHeaders) : Nat → UInt8 :=
  Bytes.write (fun _ => 0) 0 (headerSize f h) fun i => f.byte (0 + i)

/-- The image with the headers and the sections in it. -/
def sectionImage (f : Buffer) (h : PeHeaders) : Option (Nat → UInt8) :=
  eachSome sectionSize (placeSection f h) h.numberOfSections h.sections (headerImage f h)

/-- All sections up to the first that is outside of the image fit. -/
def SectionsFit (f : Buffer) (h : PeHeaders) : Prop :=
  Each sectionSize (placeSection f h) (fun s _ => SectionFits f h s) h.numberOfSections h.sections (headerImage f h)

theorem headerSize_le (f : Buffer) (h : PeHeaders) : headerSize f h ≤ f.size ∧ headerSize f h ≤ h.sizeOfImage := by
  unfold headerSize
  dsimp only
  split <;> split <;> omega

theorem loadSections_checks : (SectionsFit f h → loadSections f h (h.pages * efiPageSize) = answer (sectionImage f h)) ∧
      (¬SectionsFit f h → loadSections f h (h.pages * efiPageSize) = .error .wild) := by
  obtain ⟨hfile, himage⟩ := headerSize_le f h
  have hsize := h.size_le
  have hchecks : Checks sectionSize (loadSection f h (h.pages * efiPageSize)) (placeSection f h)
      (fun s _ => SectionFits f h s) h.numberOfSections h.sections :=
    ⟨fun _ _ m => (loadSection_checks _ m).1, fun _ _ m => (loadSection_checks _ m).2⟩
  unfold loadSections
  rw [Buffer.copy_eq (show 0 + headerSize f h ≤ h.pages * efiPageSize by omega) (show 0 + headerSize f h ≤ f.size by omega),
    ok_bind]
  exact ⟨each_eq hchecks, each_wild hchecks⟩

/-! ## Fixups -/

/-- The image with the fixup added to it. -/
def moveEntry (h : PeHeaders) (delta page a : Nat) (m : Nat → UInt8) : Option (Nat → UInt8) :=
  let ent := Bytes.get m a 2
  if ent / 2 ^ 12 = relAbsolute then some m
  else if h.sizeOfImage < add32 (target page ent) 8 then none
  else (fixup delta (ent / 2 ^ 12)).map fun (width, d) =>
    Bytes.put m (target page ent) width (Bytes.get m (target page ent) width + d)

/-- A fixup of a known type does not have the last 8 addresses of the 32 bits as its target. -/
def EntryFits (delta page a : Nat) (m : Nat → UInt8) : Prop :=
  let ent := Bytes.get m a 2
  ent / 2 ^ 12 ≠ relAbsolute → fixup delta (ent / 2 ^ 12) ≠ none → target page ent + 8 < 2 ^ 32

theorem fixup_width {delta type width d : Nat} (h : fixup delta type = some (width, d)) : width ≤ 8 := by
  unfold fixup at h
  split at h
  · cases h; decide
  split at h
  · cases h; decide
  split at h
  · cases h; decide
  split at h
  · cases h; decide
  · cases h

theorem target_lt (page ent : Nat) : target page ent < 2 ^ 32 := Nat.mod_lt _ (by decide)

variable {delta page a : Nat}

/-- **An entry of the image whose target does not wrap is added, and one whose target does is written out of
bounds.** -/
theorem relocEntry_checks (delta page : Nat) {size : Nat} (himage : h.sizeOfImage ≤ size) (hsize : size ≤ 2 ^ 29) (h8 : 8 ≤ h.sizeOfImage)
    (ha : a + 2 ≤ size) (m : Nat → UInt8) :
    (EntryFits delta page a m → relocEntry h delta size page a m = answer (moveEntry h delta page a m)) ∧
      (¬EntryFits delta page a m → relocEntry h delta size page a m = .error .wild) := by
  unfold relocEntry moveEntry EntryFits
  rw [Buffer.get_eq (show a + 2 ≤ (Buffer.mk size m).size from ha), ok_bind]
  dsimp only
  generalize Bytes.get m a 2 = ent
  by_cases habs : ent / 2 ^ 12 = relAbsolute
  · rw [if_pos habs, if_pos habs]
    exact ⟨fun _ => rfl, fun hfit => absurd (fun hne => absurd habs hne) hfit⟩
  rw [if_neg habs, if_neg habs]
  have htarget := target_lt page ent
  by_cases hwrap : target page ent + 8 < 2 ^ 32
  · refine ⟨fun _ => ?_, fun hfit => absurd (fun _ _ => hwrap) hfit⟩
    rw [add32, Nat.mod_eq_of_lt hwrap]
    by_cases hout : h.sizeOfImage < target page ent + 8
    · rw [if_pos hout, if_pos hout]
      rfl
    rw [if_neg hout, if_neg hout]
    cases hfix : fixup delta (ent / 2 ^ 12) with
    | none => rfl
    | some wd =>
      obtain ⟨width, d⟩ := wd
      have hwidth := fixup_width hfix
      have hin : target page ent + width ≤ (Buffer.mk size m).size := by
        show _ ≤ size
        omega
      dsimp only
      rw [Buffer.get_eq hin, ok_bind, Buffer.put_eq hin]
      rfl
  · have hin : ¬h.sizeOfImage < add32 (target page ent) 8 := by
      unfold add32
      omega
    rw [if_neg hin, if_neg hin]
    cases hfix : fixup delta (ent / 2 ^ 12) with
    | none => exact ⟨fun _ => rfl, fun hfit => absurd (fun _ hne => absurd rfl hne) hfit⟩
    | some wd =>
      refine ⟨fun hfit => absurd (hfit habs (Option.some_ne_none _)) hwrap, fun _ => ?_⟩
      dsimp only
      rw [Buffer.get_wild (show size < target page ent + wd.1 by omega)]
      rfl

/-! ## Blocks -/

/-- The page and the size of the block at the offset, and where its entries are. -/
def blockPage (h : PeHeaders) (off : Nat) (m : Nat → UInt8) : Nat := Bytes.get m (h.relocRva + off) 4

def blockSize (h : PeHeaders) (off : Nat) (m : Nat → UInt8) : Nat := Bytes.get m (h.relocRva + off + 4) 4

def blockEntries (h : PeHeaders) (off : Nat) : Nat := h.relocRva + off + 8

/-- The image with the first `n` fixups of the block added to it. -/
def moveEntries (h : PeHeaders) (delta off n : Nat) (m : Nat → UInt8) : Option (Nat → UInt8) :=
  eachSome 2 (moveEntry h delta (blockPage h off m)) n (blockEntries h off) m

def EntriesFit (h : PeHeaders) (delta off n : Nat) (m : Nat → UInt8) : Prop :=
  Each 2 (moveEntry h delta (blockPage h off m)) (EntryFits delta (blockPage h off m)) n (blockEntries h off) m

/-- The number of entries that the pages of the image have room for. -/
def entryRoom (h : PeHeaders) (off : Nat) : Nat := (h.pages * efiPageSize - blockEntries h off) / 2

/-- The block does not wrap, or it is refused for an entry inside the image. -/
def BlockFits (h : PeHeaders) (delta off : Nat) (m : Nat → UInt8) : Prop :=
  if off + blockSize h off m < 2 ^ 32 then EntriesFit h delta off ((blockSize h off m - 8) / 2) m
  else EntriesFit h delta off (entryRoom h off) m ∧ moveEntries h delta off (entryRoom h off) m = none

/-- The directory of relocations is one that the loader goes through. -/
structure Relocates (h : PeHeaders) (delta : Nat) : Prop where
  moved : delta ≠ 0
  given : dirBasereloc < h.numberOfRvaAndSizes
  rva : h.relocRva ≠ 0
  size : h.relocSize ≠ 0
  inside : h.relocRva + h.relocSize ≤ h.sizeOfImage

/-- The loader takes the block at the offset. -/
structure Taken (h : PeHeaders) (off : Nat) (m : Nat → UInt8) : Prop where
  room : off + 8 ≤ h.relocSize
  size : 8 ≤ blockSize h off m
  inside : add32 off (blockSize h off m) ≤ h.relocSize

/-- The blocks that are reached from the image `m₀`, each with the image at that point: an earlier block may have
changed a later one. -/
inductive Reached (h : PeHeaders) (delta : Nat) (m₀ : Nat → UInt8) : Nat → (Nat → UInt8) → Prop
  | first : Reached h delta m₀ 0 m₀
  | next {off : Nat} {m m' : Nat → UInt8} (hr : Reached h delta m₀ off m) (ht : Taken h off m)
      (hwrap : off + blockSize h off m < 2 ^ 32)
      (hm : moveEntries h delta off ((blockSize h off m - 8) / 2) m = some m') :
      Reached h delta m₀ (off + blockSize h off m) m'

/-- All blocks that are reached fit. -/
def RelocsFit (h : PeHeaders) (delta : Nat) (m₀ : Nat → UInt8) : Prop :=
  Relocates h delta → ∀ off m, Reached h delta m₀ off m → Taken h off m → BlockFits h delta off m

end WuBuOS.Firmware
