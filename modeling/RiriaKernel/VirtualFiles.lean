import RiriaKernel.KeyboardBuffer
import RiriaKernel.TarFiles
import RiriaKernel.UserProcesses

/-!
# The virtual file system

`vfs.c`, `vfs_sys.c` and the dispatch of `devfs.c`. A path is an address in the memory of
whoever calls: every function takes the bytes of the address space that is active during
the call. The `vfs_file_t` records live on the heap, at addresses that `malloc` chose; the
table of open files holds such addresses. `calls` records which function of which backend
was called with which path; no code reads it. The field `mmap` of the archive's backend is
never set, so its value is an argument.
-/

namespace RiriaKernel.VirtualFiles

open ByteMemory KernelState KeyboardBuffer TarFiles
open UserProcesses (Device FbInfo framebufferMmap vfsMaxFileDescriptors)

def ascii (text : List Char) : List UInt8 := text.map fun char => UInt8.ofNat char.toNat

def cString (memory : Memory) : (fuel address : Nat) → List UInt8
  | 0, _ => []
  | fuel + 1, address =>
      if memory address = 0 then [] else memory address :: cString memory fuel (address + 1)

/-- A string as long as the address space has no terminator. -/
def pathAt (memory : Memory) (address : Nat) : List UInt8 := cString memory (2 ^ 64) address

/-! ## Mount points and devices -/

inductive Mount
  | dev
  | init
  deriving DecidableEq, Repr

def Mount.mnt : Mount → List UInt8
  | .dev => ascii ['/', 'd', 'e', 'v', '/']
  | .init => ascii ['/', 'i', 'n', 'i', 't', '/']

/-- `strncmp(str, mnt, strlen(mnt)) == 0`. -/
def startswith (memory : Memory) : (address : Nat) → List UInt8 → Bool
  | _, [] => true
  | address, byte :: rest => memory address = byte && startswith memory (address + 1) rest

def vfsFindMnt (memory : Memory) (path : Nat) : Option Mount :=
  [Mount.dev, Mount.init].find? fun mount => startswith memory path mount.mnt

def deviceLoc : Device → List UInt8
  | .zero => ascii ['/', 'z', 'e', 'r', 'o']
  | .stdout => ascii ['/', 's', 't', 'd', 'o', 'u', 't']
  | .audio => ascii ['/', 'a', 'u', 'd', 'i', 'o']
  | .keyboard => ascii ['/', 'k', 'e', 'y', 'b', 'o', 'a', 'r', 'd']
  | .framebuffer => ascii ['/', 'f', 'b', '0']

/-- In the order of `devfs_init`. -/
def devices : List Device := [.zero, .stdout, .audio, .keyboard, .framebuffer]

def devfsFindDev (path : List UInt8) : Option Device :=
  devices.find? fun device => deviceLoc device = path

/-! ## State -/

inductive Operation
  | read
  | write
  | seek
  | stat
  | exists
  | mmap
  deriving DecidableEq, Repr

/-- A call of a backend; `wild` is a call through the pointer that nobody set. -/
inductive Call
  | backend (mount : Mount) (operation : Operation) (path : List UInt8)
  | wild
  deriving DecidableEq, Repr

structure VfsFile where
  id : Int
  loc : Nat
  flags : Int
  mode : Int
  fs : Mount

structure Vfs where
  openFiles : Nat → Option Nat
  files : Nat → Option VfsFile
  tarfs : Tarfs
  keyboard : Keyboard
  fbInfo : FbInfo
  hhdm : Nat
  calls : List Call

abbrev VfsM := EStateM Stop Vfs

def vfsFdOffset : Nat := 10

def runTar {Value : Type} (program : Tar Value) : VfsM Value := fun vfs =>
  match program vfs.tarfs with
  | .ok value tarfs => .ok value { vfs with tarfs }
  | .error stop tarfs => .error stop { vfs with tarfs }

def runKeyboard {Value : Type} (program : Driver Value) : VfsM Value := fun vfs =>
  match program vfs.keyboard with
  | .ok value keyboard => .ok value { vfs with keyboard }
  | .error stop keyboard => .error stop { vfs with keyboard }

def record (call : Call) : VfsM PUnit :=
  modify fun vfs => { vfs with calls := call :: vfs.calls }

/-! ## The device backend -/

/-- The returned count and the bytes stored to the buffer. -/
def devfsRead (path : List UInt8) (buffer sz : Nat) : VfsM (Int × List UInt8) := do
  if buffer = 0 then return (-2, [])
  else
    match devfsFindDev path with
    | none => return (-3, [])
    | some .zero => return (ssizeOf sz, List.replicate sz 0)
    | some .stdout => return (ssizeOf sz, [])
    | some .keyboard => do
        let chars ← runKeyboard (keyboardRead sz)
        return (ssizeOf sz, chars)
    | some .audio => return (-4, [])
    | some .framebuffer => return (-4, [])

/-- `audio` is what the sound driver returns. -/
def devfsWrite (audio : Int) (path : List UInt8) (buffer sz : Nat) : VfsM Int := do
  if buffer = 0 then return -2
  else
    match devfsFindDev path with
    | none => return -3
    | some .audio => return audio
    | some _ => return ssizeOf sz

/-- The address and the new value of `*len`. -/
def devfsMmap (path : List UInt8) (len : Nat) : VfsM (Nat × Nat) := do
  let vfs ← get
  match devfsFindDev path with
  | some .framebuffer => return framebufferMmap vfs.fbInfo vfs.hhdm
  | _ => return (0, len)

def devfsExists (path : List UInt8) : Bool := (devfsFindDev path).isSome

/-! ## Descriptors -/

/-- The scan of `_vfs_get_fd`. -/
def firstFree (openFiles : Nat → Option Nat) : (count start : Nat) → Option Nat
  | 0, _ => none
  | count + 1, start =>
      match openFiles start with
      | none => some start
      | some _ => firstFree openFiles count (start + 1)

/-- The id is also stored in the file. -/
def vfsGetFd (file : Nat) : VfsM Int := do
  let vfs ← get
  match firstFree vfs.openFiles (vfsMaxFileDescriptors - vfsFdOffset) vfsFdOffset with
  | some i =>
      set { vfs with
        openFiles := Function.update vfs.openFiles i (some file)
        files := Function.update vfs.files file
          ((vfs.files file).map fun (opened : VfsFile) => { opened with id := i }) }
      return i
  | none => return -1

def vfsGetFromFd (openFiles : Nat → Option Nat) (fd : Int) : Option Nat :=
  if fd < 0 ∨ fd ≥ vfsMaxFileDescriptors then none else openFiles fd.toNat

/-- `open_files[id] = file`, with the sanitizer's bounds check. -/
def storeOpenFile (id : Int) (file : Option Nat) : VfsM PUnit :=
  if 0 ≤ id ∧ id < vfsMaxFileDescriptors then
    modify fun vfs => { vfs with openFiles := Function.update vfs.openFiles id.toNat file }
  else throw (.panic "out of bounds detected")

def mountExists (mount : Mount) (path : List UInt8) : VfsM Bool := do
  record (.backend mount .exists path)
  match mount with
  | .dev => return devfsExists path
  | .init => runTar (tarfsExists path)

def freshFile : VfsFile := ⟨0, 0, 0, 0, .dev⟩

/-- The part of a path that is passed on: from the last byte of the mount point on. -/
def locWoMnt (memory : Memory) (mount : Mount) (path : Nat) : List UInt8 :=
  pathAt memory (path + mount.mnt.length - 1)

/-- `block` is what `malloc` returns. -/
def vfsOpen (memory : Memory) (block path : Nat) (flags mode : Int) : VfsM (Option Nat) := do
  if path = 0 then return none
  else
    match vfsFindMnt memory path with
    | none => return none
    | some mount => do
        modify fun vfs => { vfs with files := Function.update vfs.files block (some freshFile) }
        let found ← mountExists mount (locWoMnt memory mount path)
        if found = false then
          modify fun vfs => { vfs with files := Function.update vfs.files block none }
          return none
        else
          let id ← vfsGetFd block
          modify fun vfs => { vfs with
            files := Function.update vfs.files block (some { id, loc := path, flags, mode, fs := mount }) }
          storeOpenFile id (some block)
          return some block

def vfsClose (file : Option Nat) : VfsM Int := do
  let vfs ← get
  match file with
  | none => return -1
  | some block =>
      let id := ((vfs.files block).map VfsFile.id).getD 0
      if id < 0 ∨ id ≥ vfsMaxFileDescriptors ∨ vfs.openFiles id.toNat = none then return -2
      else
        storeOpenFile id none
        modify fun vfs => { vfs with files := Function.update vfs.files block none }
        return 0

/-! ## Operations on an open file -/

/-- `(int)value`. -/
def toCInt (value : Int) : Int := Int.bmod value (2 ^ 32)

/-- A negative result is reported as zero. -/
def mlibcHack (result : Int) : Int := if result < 0 then 0 else result

section Operations

variable (content : Content) (fuel : Nat) (memory : Memory)

/-- The file behind a descriptor, with the path it passes to its backend. -/
def fileOf (fd : Int) : VfsM (Option (VfsFile × List UInt8)) := do
  let vfs ← get
  match vfsGetFromFd vfs.openFiles fd with
  | none => return none
  | some block => return (vfs.files block).map fun file => (file, locWoMnt memory file.fs file.loc)

def vfsRead (fd : Int) (buffer sz : Nat) : VfsM (Int × List UInt8) := do
  match ← fileOf memory fd with
  | none => return (-1, [])
  | some (file, path) =>
      if file.loc = 0 then return (-2, [])
      else do
        record (.backend file.fs .read path)
        match file.fs with
        | .dev => devfsRead path buffer sz
        | .init => runTar (tarfsRead content fuel path buffer sz)

def vfsWrite (audio : Int) (fd : Int) (buffer sz : Nat) : VfsM Int := do
  match ← fileOf memory fd with
  | none => return -1
  | some (file, path) =>
      if file.loc = 0 then return -2
      else
        match file.fs with
        | .dev => do
            record (.backend .dev .write path)
            devfsWrite audio path buffer sz
        | .init => return 0

def vfsSeek (fd : Int) (offset : Nat) : VfsM Int := do
  match ← fileOf memory fd with
  | none => return -1
  | some (file, path) =>
      if file.loc = 0 then return -2
      else
        match file.fs with
        | .dev => return 0
        | .init => do
            record (.backend .init .seek path)
            runTar (tarfsSeek path offset)

/-- `tarMmap` is the value of the pointer that `tarfs_init` does not set. -/
def vfsMmap (tarMmap : Nat) (fd : Int) (len : Nat) : VfsM (Nat × Nat) := do
  match ← fileOf memory fd with
  | none => return (0, len)
  | some (file, path) =>
      if file.loc = 0 then return (0, len)
      else
        match file.fs with
        | .dev => do
            record (.backend .dev .mmap path)
            devfsMmap path len
        | .init =>
            if tarMmap = 0 then return (0, len)
            else do
              record .wild
              return (0, len)

/-! ## The system call layer -/

def vfsSysOpen (block path : Nat) (flags mode : Int) : VfsM Int := do
  match ← vfsOpen memory block path flags mode with
  | none => return -1
  | some file => return (((← get).files file).map VfsFile.id).getD 0

def vfsSysRead (fd : Int) (buffer sz : Nat) : VfsM (Int × List UInt8) := do
  let (result, data) ← vfsRead content fuel memory fd buffer sz
  return (mlibcHack (toCInt result), data)

def vfsSysWrite (audio : Int) (fd : Int) (buffer sz : Nat) : VfsM Int := do
  let result ← vfsWrite memory audio fd buffer sz
  return mlibcHack (toCInt result)

def vfsSysSeek (fd : Int) (offset : Nat) : VfsM Int := do
  let result ← vfsSeek memory fd offset
  return mlibcHack (toCInt result)

def vfsSysMmap (tarMmap : Nat) (fd : Int) (len : Nat) : VfsM (Nat × Nat) :=
  vfsMmap memory tarMmap fd len

def vfsSysClose (fd : Int) : VfsM Int := do
  let vfs ← get
  vfsClose (vfsGetFromFd vfs.openFiles fd)

end Operations

end RiriaKernel.VirtualFiles
