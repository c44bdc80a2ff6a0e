import RiriaKernel.Pagemaps

/-!
# The ELF loader

`elf64_load` and the two functions of `vmm.c` that fill mapped pages. The image is a
function of the offset from `elf_data`, taken modulo 2^64 as pointer arithmetic does: the
file is the part below `len`, and what lies beyond is whatever memory holds there.
-/

namespace RiriaKernel.ElfLoader

open ByteMemory KernelState PhysicalAllocator PageTables Pagemaps

/-- The bytes around `elf_data`, by their offset from it. -/
abbrev Image := Nat → UInt8

def imageByte (image : Image) (offset : Nat) : UInt8 := image (offset % 2 ^ 64)

def imageWord (image : Image) (offset width : Nat) : Nat :=
  loadLE (fun index => imageByte image (offset + index)) 0 width

/-! ## Pointers into the image

The build checks every sum of a pointer and every pointer to a structure.
-/

/-- `elf_data + offset` stays in the address space. The compiler takes an offset from 2^63 on for
a negative one. -/
def SumFits (elfData offset : Nat) : Prop :=
  if offset < 2 ^ 63 then elfData + offset < 2 ^ 64 else 2 ^ 64 ≤ elfData + offset

instance (elfData offset : Nat) : Decidable (SumFits elfData offset) :=
  inferInstanceAs (Decidable (if offset < 2 ^ 63 then _ else _))

/-- A pointer to a structure with eight-byte fields. -/
def StructPointer (pointer : Nat) : Prop := pointer ≠ 0 ∧ pointer % 8 = 0

instance (pointer : Nat) : Decidable (StructPointer pointer) :=
  inferInstanceAs (Decidable (_ ∧ _))

/-! ## Filling mapped pages -/

def chunkSize (currVirt remaining : Nat) : Nat :=
  let chunk := pageSize - currVirt % pageSize
  if chunk > remaining then remaining else chunk

/-- The loop that `vmm_map_copy` and `vmm_map_zero` share: page by page, whatever fills the
next `chunk` bytes. Every round advances, so `len` rounds are enough. -/
def fillLoop (pagemap virt len : Nat) (message : String) (fill : Nat → Nat → Nat → Kernel PUnit) :
    (fuel filled : Nat) → Kernel PUnit
  | 0, _ => throw .unbounded
  | fuel + 1, filled =>
      if filled < len then do
        let currVirt := add64 virt filled
        let currPhys ← vmmVirtToPhys pagemap currVirt
        require (currPhys ≠ 0) message
        let chunk := chunkSize currVirt (len - filled)
        fill filled currPhys chunk
        fillLoop pagemap virt len message fill fuel (filled + chunk)
      else pure ⟨⟩

/-- `memcpy(dest, buffer + copied, chunk)`, where `src` is the offset of `buffer`. -/
def copyChunk (image : Image) (src copied dest chunk : Nat) : Kernel PUnit :=
  modify fun machine =>
    { machine with
      phys := copyIn machine.phys dest (fun index => imageByte image (src + copied + index)) chunk }

/-- `memset(dest, 0, chunk)`. -/
def clearChunk (_cleared dest chunk : Nat) : Kernel PUnit :=
  modify fun machine => { machine with phys := memset machine.phys dest 0 chunk }

def vmmMapCopy (pagemap virt : Nat) (image : Image) (src len : Nat) : Kernel PUnit := do
  spinLock .vmm
  fillLoop pagemap virt len "vmm_map_copy: target not mapped" (copyChunk image src) (len + 1) 0
  spinUnlock .vmm

def vmmMapZero (pagemap virt len : Nat) : Kernel PUnit := do
  spinLock .vmm
  fillLoop pagemap virt len "vmm_map_zero: target not mapped" clearChunk (len + 1) 0
  spinUnlock .vmm

/-! ## The loader -/

def ptLoad : Nat := 1
def pfX : Nat := 1
def pfW : Nat := 2

/-- `sizeof(elf64_header_t)` and `sizeof(elf64_phdr_t)`. -/
def headerBytes : Nat := 64
def phdrBytes : Nat := 56

structure ElfInfo where
  entry : Nat
  size : Nat
  base : Nat
  deriving DecidableEq, Repr

def segmentFlags (phdrFlags : Nat) : Nat :=
  let flags := ptePresent ||| pteUser
  let flags := if phdrFlags &&& pfW ≠ 0 then flags ||| pteWritable else flags
  if phdrFlags &&& pfX = 0 then flags ||| pteNx else flags

/-- `while (addr < end_page)`: a fresh frame for every page of the segment. -/
def mapSegment (pagemap flags endPage : Nat) : (fuel addr : Nat) → Kernel PUnit
  | 0, _ => throw .unbounded
  | fuel + 1, addr =>
      if addr < endPage then do
        let exitingPhys ← vmmVirtToPhys pagemap addr
        require (exitingPhys = 0) "elf64_load: virtual address already mapped!\n"
        let page ← pmmAllocate
        assertThat (page ≠ 0)
        let _ ← vmmMapPage pagemap addr page flags
        mapSegment pagemap flags endPage fuel (add64 addr pageSize)
      else pure ⟨⟩

/-- The part of the loop body behind the mapping of the pages. -/
def fillSegment (pagemap elfData : Nat) (image : Image) (len phStart vaddr memsz : Nat) :
    Kernel PUnit := do
  let fileStart := imageWord image (phStart + 8) 8
  let filesz := imageWord image (phStart + 32) 8
  require (¬add64 fileStart filesz > len) "segment out of bound!\n"
  require (SumFits elfData fileStart) "pointer overflow detected"
  assertThat (add64 elfData fileStart ≠ 0)
  assertThat (vaddr ≠ 0)
  assertThat (filesz > 0)
  vmmMapCopy pagemap vaddr image fileStart filesz
  if memsz > filesz then vmmMapZero pagemap (add64 vaddr filesz) (sub64 memsz filesz)
  else pure ⟨⟩

/-- The loop body for a `PT_LOAD` header. It gives the bounds of the segment. -/
def loadSegment (pagemap elfData : Nat) (image : Image) (len phStart : Nat) :
    Kernel (Nat × Nat) := do
  let flags := segmentFlags (imageWord image (phStart + 4) 4)
  let vaddr := imageWord image (phStart + 16) 8
  let memsz := imageWord image (phStart + 40) 8
  let startPage := pageFloor vaddr
  let segmentEnd := add64 vaddr memsz
  let endPage := pageCeil segmentEnd
  assertThat (startPage < endPage)
  assertThat (endPage > startPage)
  assertThat (startPage % pageSize = 0)
  assertThat (endPage % pageSize = 0)
  assertThat (startPage ≠ 0)
  mapSegment pagemap flags endPage pageLoopBound startPage
  fillSegment pagemap elfData image len phStart vaddr memsz
  return (vaddr, segmentEnd)

structure Bounds where
  base : Nat
  stop : Nat
  deriving DecidableEq, Repr

def Bounds.extend (bounds : Bounds) (vaddr segmentEnd : Nat) : Bounds where
  base := if vaddr < bounds.base then vaddr else bounds.base
  stop := if segmentEnd > bounds.stop then segmentEnd else bounds.stop

def loadHeaders (pagemap elfData : Nat) (image : Image) (len phOffset : Nat) :
    (count index : Nat) → Bounds → Kernel Bounds
  | 0, _, bounds => pure bounds
  | count + 1, index, bounds => do
      let phStart := add64 phOffset (index * phdrBytes)
      require (¬add64 phStart phdrBytes > len) "header out of bound!\n"
      require (SumFits elfData phStart) "pointer overflow detected"
      require (StructPointer (add64 elfData phStart)) "type mismatch detected"
      if imageWord image phStart 4 ≠ ptLoad then
        loadHeaders pagemap elfData image len phOffset count (index + 1) bounds
      else do
        let (vaddr, segmentEnd) ← loadSegment pagemap elfData image len phStart
        loadHeaders pagemap elfData image len phOffset count (index + 1)
          (bounds.extend vaddr segmentEnd)

def elf64Load (pagemap elfData : Nat) (image : Image) (len : Nat) : Kernel ElfInfo := do
  require (¬len < headerBytes) "elf64_load: invalid ELF header size\n"
  require (StructPointer elfData) "type mismatch detected"
  require (¬(image 0 ≠ 0x7F ∨ image 1 ≠ 0x45 ∨ image 2 ≠ 0x4C ∨ image 3 ≠ 0x46)) "invalid magic\n"
  require (¬image 4 ≠ 2) "not an elf64\n"
  require (¬imageWord image 18 2 ≠ 0x3E) "not amd64\n"
  require (¬imageWord image 54 2 ≠ phdrBytes) "invalid phentsize\n"
  let phOffset := imageWord image 32 8
  let phCount := imageWord image 56 2
  let bounds ← loadHeaders pagemap elfData image len phOffset phCount 0
    { base := 2 ^ 64 - 1, stop := 0 }
  return { entry := imageWord image 24 8, size := sub64 bounds.stop bounds.base, base := bounds.base }

end RiriaKernel.ElfLoader
