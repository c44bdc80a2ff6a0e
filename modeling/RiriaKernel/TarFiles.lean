import Mathlib.Data.List.Basic
import RiriaKernel.KernelState

/-!
# The archive file system

`tarfs.c`. The initial archive stays where the boot loader put it: bytes are addressed by
their offset from `initramfs`, which is an `Int` since a header with a bad size field moves
the walk backwards as well. Sizes are C ints and the build traps their overflow. Both walks,
over the headers in `tarfs_init` and in `tarfs_read`, are given a number of steps and end in
`unbounded` behind it. `reads` records which bytes of the archive were looked at; no code
reads it. What `malloc` leaves in the position of a new file is the argument `garbage`.
-/

namespace RiriaKernel.TarFiles

open KernelState

abbrev Content := Int → UInt8

structure TarfsFile where
  loc : List UInt8
  seekPos : Int
  len : Nat
  deriving DecidableEq, Repr

structure Tarfs where
  files : List TarfsFile
  reads : List Int

abbrev Tar := EStateM Stop Tarfs

def FitsInt (value : Int) : Prop := -2147483648 ≤ value ∧ value ≤ 2147483647

instance (value : Int) : Decidable (FitsInt value) := inferInstanceAs (Decidable (_ ∧ _))

/-- A C int that the sanitizer lets pass. -/
def checkedInt (message : String) (value : Int) : Tar Int :=
  if FitsInt value then return value else throw (.panic message)

/-- `(size_t)value`. -/
def toSize (value : Int) : Nat := (value % 2 ^ 64).toNat

/-- `(int)value`. -/
def intOf (value : Nat) : Int := Int.bmod value (2 ^ 32)

/-- `(ssize_t)value`. -/
def ssizeOf (value : Nat) : Int := Int.bmod value (2 ^ 64)

def ustar : List UInt8 := [0x75, 0x73, 0x74, 0x61, 0x72]

section Walks

variable (content : Content)

def fetch (offset : Int) : Tar UInt8 := do
  modify fun tarfs => { tarfs with reads := offset :: tarfs.reads }
  return content offset

/-- `memcmp(ptr, bytes, sizeof bytes) == 0`. -/
def memcmpEq : (ptr : Int) → (bytes : List UInt8) → Tar Bool
  | _, [] => return true
  | ptr, byte :: rest => do
      if (← fetch content ptr) = byte then memcmpEq (ptr + 1) rest else return false

/-- `strcmp(ptr, string) == 0`. -/
def strcmpEq : (ptr : Int) → (string : List UInt8) → Tar Bool
  | ptr, [] => return (← fetch content ptr) = 0
  | ptr, byte :: rest => do
      if (← fetch content ptr) = byte then strcmpEq (ptr + 1) rest else return false

/-- The string at `ptr`, as `strlen` and `strcpy` read it. -/
def readString : (fuel : Nat) → (ptr : Int) → Tar (List UInt8)
  | 0, _ => throw .unbounded
  | fuel + 1, ptr => do
      let byte ← fetch content ptr
      if byte = 0 then return []
      else
        let rest ← readString fuel (ptr + 1)
        return byte :: rest

def copyBytes : (ptr : Int) → (count : Nat) → Tar (List UInt8)
  | _, 0 => return []
  | ptr, count + 1 => do
      let byte ← fetch content ptr
      let rest ← copyBytes (ptr + 1) count
      return byte :: rest

def oct2bin : (str : Int) → (size : Nat) → (n : Int) → Tar Int
  | _, 0, n => return n
  | str, size + 1, n => do
      let shifted ← checkedInt "multiplication overflow detected" (n * 8)
      let digit ← fetch content str
      let sum ← checkedInt "addition overflow detected" (shifted + ((digit.toNat : Int) - 48))
      oct2bin (str + 1) size sum

/-- `ptr + (((file_size + 511) / 512) + 1) * 512`; the division of C rounds towards zero. -/
def nextHeader (ptr fileSize : Int) : Tar Int := do
  let raised ← checkedInt "addition overflow detected" (fileSize + 511)
  let blocks ← checkedInt "addition overflow detected" (raised.tdiv 512 + 1)
  let step ← checkedInt "multiplication overflow detected" (blocks * 512)
  return ptr + step

/-! ## The index -/

def tarfsAddFile (garbage : Nat → Int) (fuel : Nat) (ptr : Int) (size : Nat) : Tar PUnit := do
  let first ← fetch content ptr
  let loc ←
    if first = 0x2E then readString content fuel (ptr + 1)
    else do
      let name ← readString content fuel ptr
      pure (0x2F :: name)
  modify fun tarfs => { tarfs with
    files := tarfs.files ++ [{ loc, seekPos := garbage tarfs.files.length, len := size }] }

def indexHeaders (garbage : Nat → Int) (names : Nat) : (fuel : Nat) → (ptr : Int) → Tar PUnit
  | 0, _ => throw .unbounded
  | fuel + 1, ptr => do
      if ← memcmpEq content (ptr + 257) ustar then
        let fileSize ← oct2bin content (ptr + 0x7c) 11 0
        if fileSize > 0 then tarfsAddFile content garbage names ptr (toSize fileSize)
        let next ← nextHeader ptr fileSize
        indexHeaders garbage names fuel next
      else return ⟨⟩

def tarfsInit (garbage : Nat → Int) (fuel : Nat) : Tar PUnit :=
  indexHeaders content garbage fuel fuel 0

/-- The position in the list of the first file at `path`. -/
def tarfsFindFile (path : List UInt8) : Tar Nat := do
  match (← get).files.findIdx? fun file => file.loc = path with
  | some index => return index
  | none => throw (.panic "Assertion failure")

def setSeekPos (index : Nat) (seekPos : Int) : Tar PUnit :=
  modify fun tarfs => { tarfs with
    files := tarfs.files.modify index fun file => { file with seekPos } }

/-! ## Reading -/

/-- The part of `tarfs_read` behind a matching header. -/
def readFile (path : List UInt8) (buffer sz : Nat) (ptr fileSize : Int) :
    Tar (Int × List UInt8) := do
  let index ← tarfsFindFile path
  let seekPos := toSize (((← get).files[index]?.map TarfsFile.seekPos).getD 0)
  if seekPos > toSize fileSize then return (0, [])
  else
    let bytesToRead := min (toSize fileSize - seekPos) sz
    if bytesToRead = 0 then return (0, [])
    else if buffer = 0 then throw (.panic "Assertion failure")
    else
      let data ← copyBytes content (ptr + 512 + seekPos) bytesToRead
      setSeekPos index (intOf (seekPos + bytesToRead))
      return (ssizeOf bytesToRead, data)

def readHeaders (path : List UInt8) (buffer sz : Nat) :
    (fuel : Nat) → (ptr : Int) → Tar (Int × List UInt8)
  | 0, _ => throw .unbounded
  | fuel + 1, ptr => do
      if ← memcmpEq content (ptr + 257) ustar then
        let fileSize ← oct2bin content (ptr + 0x7c) 11 0
        if ← strcmpEq content ptr path.tail then readFile content path buffer sz ptr fileSize
        else
          let next ← nextHeader ptr fileSize
          readHeaders path buffer sz fuel next
      else return (-1, [])

/-- The returned count and the bytes stored to `buffer`. -/
def tarfsRead (fuel : Nat) (path : List UInt8) (buffer sz : Nat) : Tar (Int × List UInt8) :=
  readHeaders content path buffer sz fuel 0

end Walks

/-- `whence` is not looked at. -/
def tarfsSeek (path : List UInt8) (offset : Nat) : Tar Int := do
  let index ← tarfsFindFile path
  setSeekPos index (intOf offset)
  return intOf offset

/-- The size `tarfs_stat` reports. -/
def tarfsStat (path : List UInt8) : Tar Nat := do
  let index ← tarfsFindFile path
  return ((← get).files[index]?.map TarfsFile.len).getD 0

def tarfsExists (path : List UInt8) : Tar Bool := do
  let _ ← tarfsFindFile path
  return true

end RiriaKernel.TarFiles
