import WuBuOS.Firmware.Memory
import WuBuOS.Lib.Guarded

/-!
# The loader for EFI images

`firmware/fw_pe.c`.  The file and the pages of the image are two buffers, and every access is checked against
the size of its own (`Guarded.Buffer`); the code itself checks what it checks.  A field of a header is read
where the code reads it, by its offset.  What is printed is left out.
-/

namespace WuBuOS.Firmware

open Guarded

/-! ## Constants -/

abbrev mzMagic : Nat := 0x5A4D
abbrev peMagic : Nat := 0x00004550
abbrev machAmd64 : Nat := 0x8664

/-- `SUBSYS_EFI_APP`, `SUBSYS_EFI_BOOT_DRV` and `SUBSYS_EFI_RT_DRV`. -/
abbrev subsysEfiApp : Nat := 10
abbrev subsysEfiBootDrv : Nat := 11
abbrev subsysEfiRtDrv : Nat := 12

abbrev dirBasereloc : Nat := 5

abbrev relAbsolute : Nat := 0
abbrev relHigh : Nat := 1
abbrev relLow : Nat := 2
abbrev relHighlow : Nat := 3
abbrev relDir64 : Nat := 10

abbrev efiLoaderCode : MemoryType := 1

/-- The sizes of `pe_coff`, `pe_opt64` and `pe_section`. -/
abbrev coffSize : Nat := 20
abbrev optSize : Nat := 240
abbrev sectionSize : Nat := 40

/-- The sum of two `uint32_t`. -/
def add32 (a b : Nat) : Nat := (a + b) % 2 ^ 32

/-! ## Headers -/

/-- What the loader reads in `pe_coff` and `pe_opt64`.  `opt` is where the optional header is in the file, and
`relocRva` and `relocSize` are the entry `DIR_BASERELOC` of the data directory. -/
structure PeHeaders where
  opt : Nat
  numberOfSections : Nat
  sizeOfOptionalHeader : Nat
  addressOfEntryPoint : Nat
  imageBase : Nat
  sizeOfImage : Nat
  sizeOfHeaders : Nat
  subsystem : Nat
  numberOfRvaAndSizes : Nat
  relocRva : Nat
  relocSize : Nat
  deriving DecidableEq

/-- The fields, once the headers are known to be in the file. -/
def readFields (f : Buffer) (coff : Nat) : Except Stop PeHeaders := do
  let opt := coff + coffSize
  let numberOfSections ← f.get (coff + 2) 2
  let sizeOfOptionalHeader ← f.get (coff + 16) 2
  let addressOfEntryPoint ← f.get (opt + 16) 4
  let imageBase ← f.get (opt + 24) 8
  let sizeOfImage ← f.get (opt + 56) 4
  let sizeOfHeaders ← f.get (opt + 60) 4
  let subsystem ← f.get (opt + 68) 2
  let numberOfRvaAndSizes ← f.get (opt + 108) 4
  let relocRva ← f.get (opt + 112 + 8 * dirBasereloc) 4
  let relocSize ← f.get (opt + 116 + 8 * dirBasereloc) 4
  return ⟨opt, numberOfSections, sizeOfOptionalHeader, addressOfEntryPoint, imageBase, sizeOfImage, sizeOfHeaders,
    subsystem, numberOfRvaAndSizes, relocRva, relocSize⟩

/-- `fw_pe_load` up to the allocation. -/
def readHeaders (f : Buffer) : Except Stop PeHeaders :=
  if f.size < 0x40 then .error .refused else do
    let magic ← f.get 0 2
    if magic ≠ mzMagic then .error .refused else
      let lfanew ← f.get 0x3C 4
      if f.size < lfanew + 4 + coffSize + optSize then .error .refused else
        let signature ← f.get lfanew 4
        if signature ≠ peMagic then .error .refused else
          let machine ← f.get (lfanew + 4) 2
          let h ← readFields f (lfanew + 4)
          if machine ≠ machAmd64 then .error .refused
          else if h.subsystem ≠ subsysEfiApp ∧ h.subsystem ≠ subsysEfiBootDrv ∧ h.subsystem ≠ subsysEfiRtDrv then
            .error .refused
          else if h.sizeOfImage = 0 ∨ 512 * 1024 * 1024 < h.sizeOfImage then .error .refused
          else .ok h

/-- The pages of the image. -/
def PeHeaders.pages (h : PeHeaders) : Nat := (h.sizeOfImage + efiPageSize - 1) / efiPageSize

/-- The preferred base is one that the loader asks for. -/
def PeHeaders.Preferred (h : PeHeaders) : Prop :=
  h.imageBase ≠ 0 ∧ h.imageBase % efiPageSize = 0 ∧ fwHeapBase ≤ h.imageBase

instance (h : PeHeaders) : Decidable h.Preferred := inferInstanceAs (Decidable (_ ∧ _ ∧ _))

/-- The pages for the image: those at its preferred base, or any others.  The address is 0 for `NULL`. -/
def allocImage (st : Mem) (h : PeHeaders) : Mem × Nat :=
  let (st, img) := if h.Preferred then fwAllocPagesAt st h.imageBase h.pages efiLoaderCode else (st, 0)
  if img = 0 then fwAllocPages st h.pages efiLoaderCode else (st, img)

/-! ## Sections -/

/-- The number of bytes of a section that are copied from the file. -/
def rawSize (fileSize sizeOfRawData pointerToRawData virtualSize : Nat) : Nat :=
  let raw := if fileSize < pointerToRawData + sizeOfRawData then
    if fileSize ≤ pointerToRawData then 0 else fileSize - pointerToRawData else sizeOfRawData
  if virtualSize < raw ∧ virtualSize ≠ 0 then virtualSize else raw

/-- The body of the loop over the sections: the section header is at `s` in the file, and the image has `size`
bytes `m`. -/
def loadSection (f : Buffer) (h : PeHeaders) (size s : Nat) (m : Nat → UInt8) : Except Stop (Nat → UInt8) := do
  let virtualAddress ← f.get (s + 12) 4
  let virtualSize ← f.get (s + 8) 4
  if h.sizeOfImage < virtualAddress + virtualSize then .error .refused else
    let sizeOfRawData ← f.get (s + 16) 4
    if sizeOfRawData = 0 then .ok m else
      let pointerToRawData ← f.get (s + 20) 4
      let raw := rawSize f.size sizeOfRawData pointerToRawData virtualSize
      if raw = 0 then .ok m else Buffer.copy ⟨size, m⟩ virtualAddress f pointerToRawData raw

/-- Where the section table is in the file. -/
def PeHeaders.sections (h : PeHeaders) : Nat := h.opt + h.sizeOfOptionalHeader

/-- The number of bytes of headers that are copied. -/
def headerSize (f : Buffer) (h : PeHeaders) : Nat :=
  let hdrsz := if f.size < h.sizeOfHeaders then f.size else h.sizeOfHeaders
  if h.sizeOfImage < hdrsz then h.sizeOfImage else hdrsz

/-- The image is cleared, and the headers and the sections are copied. -/
def loadSections (f : Buffer) (h : PeHeaders) (size : Nat) : Except Stop (Nat → UInt8) := do
  let m ← Buffer.copy ⟨size, fun _ => 0⟩ 0 f 0 (headerSize f h)
  each sectionSize (loadSection f h size) h.numberOfSections h.sections m

/-! ## Relocations -/

/-- The width of what a fixup of the type adds to, and what it adds; no other types are known. -/
def fixup (delta type : Nat) : Option (Nat × Nat) :=
  if type = relDir64 then some (8, delta)
  else if type = relHighlow then some (4, delta)
  else if type = relHigh then some (2, delta / 2 ^ 16 % 2 ^ 16)
  else if type = relLow then some (2, delta % 2 ^ 16)
  else none

/-- The target of a fixup, from its page and its entry. -/
def target (page ent : Nat) : Nat := add32 page (ent % 2 ^ 12)

/-- The body of the loop over the entries of a block. -/
def relocEntry (h : PeHeaders) (delta size page a : Nat) (m : Nat → UInt8) : Except Stop (Nat → UInt8) := do
  let ent ← Buffer.get ⟨size, m⟩ a 2
  if ent / 2 ^ 12 = relAbsolute then .ok m
  else if h.sizeOfImage < add32 (target page ent) 8 then .error .refused
  else match fixup delta (ent / 2 ^ 12) with
    | none => .error .refused
    | some (width, d) =>
      let v ← Buffer.get ⟨size, m⟩ (target page ent) width
      Buffer.put ⟨size, m⟩ (target page ent) width (v + d)

/-- The loop over the blocks.  It may go on for ever, and ends as `hung` when the fuel does. -/
def relocBlocks (h : PeHeaders) (delta size : Nat) : Nat → Nat → (Nat → UInt8) → Except Stop (Nat → UInt8)
  | 0, _, _ => .error .hung
  | fuel + 1, off, m =>
    if add32 off 8 ≤ h.relocSize then do
      let page ← Buffer.get ⟨size, m⟩ (h.relocRva + off) 4
      let bsize ← Buffer.get ⟨size, m⟩ (h.relocRva + off + 4) 4
      if bsize < 8 ∨ h.relocSize < add32 off bsize then .error .refused else
        let m ← each 2 (relocEntry h delta size page) ((bsize - 8) / 2) (h.relocRva + off + 8) m
        relocBlocks h delta size fuel (add32 off bsize) m
    else .ok m

/-- A block that does not wrap takes off at least 8, so that the size is fuel enough. -/
def applyRelocs (h : PeHeaders) (delta size : Nat) (m : Nat → UInt8) : Except Stop (Nat → UInt8) :=
  if delta = 0 then .ok m
  else if h.numberOfRvaAndSizes ≤ dirBasereloc then .error .refused
  else if h.relocRva = 0 ∨ h.relocSize = 0 then .error .refused
  else if h.sizeOfImage < h.relocRva + h.relocSize then .error .refused
  else relocBlocks h delta size (h.relocSize + 1) 0 m

/-! ## The loader -/

/-- `fw_pe_image`. -/
structure PeImage where
  base : Nat
  size : Nat
  entry : Nat
  subsystem : Nat
  deriving DecidableEq

/-- What `fw_pe_load` leaves behind.  `block` are the pages that it allocated, and `bytes` is what is in them
when it succeeds. -/
structure Loaded where
  status : Int
  mem : Mem
  block : Option (Nat × Nat)
  bytes : Option (Nat → UInt8)
  out : Option PeImage

/-- The image is filled in and moved to its address. -/
def fillImage (f : Buffer) (h : PeHeaders) (img : Nat) : Except Stop (Nat → UInt8) := do
  let size := h.pages * efiPageSize
  let m ← loadSections f h size
  applyRelocs h (sub64 img h.imageBase) size m

/-- `fw_pe_load` once the headers are accepted. -/
def loadImage (st : Mem) (f : Buffer) (h : PeHeaders) (out : PeImage) : Except Stop Loaded :=
  let (st, img) := allocImage st h
  if img = 0 then .ok ⟨-1, st, none, none, some out⟩
  else match fillImage f h img with
    | .ok m => .ok ⟨0, st, some (img, h.pages), some m,
        some ⟨img, h.sizeOfImage, add64 img h.addressOfEntryPoint, h.subsystem⟩⟩
    | .error .refused => .ok ⟨-1, fwFreePages st img h.pages, some (img, h.pages), none, some out⟩
    | .error e => .error e

/-- `file` and `out` are pointers, `none` for `NULL`; the file comes with its size. -/
def fwPeLoad (st : Mem) (file : Option Buffer) (out : Option PeImage) : Except Stop Loaded :=
  match file, out with
  | some f, some out =>
    match readHeaders f with
    | .ok h => loadImage st f h out
    | .error .refused => .ok ⟨-1, st, none, none, some out⟩
    | .error e => .error e
  | _, _ => .ok ⟨-1, st, none, none, out⟩

end WuBuOS.Firmware
