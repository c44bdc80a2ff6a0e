import RiriaKernel.CStrings
import RiriaKernel.VirtualFiles

/-!
# Mount tables

`_vfs_find_mnt`, `vfs_open` and the operations on an open file, over any table of mount points
and any backends. Mount names and paths are strings in one memory. A backend is given by its
functions, which see the string that the passed pointer designates; `calls` records these
strings and is read by nobody.
-/

namespace RiriaKernel.MountTables

open ByteMemory CStrings HaltingPrograms KernelState
open UserProcesses (vfsMaxFileDescriptors)
open VirtualFiles (Operation cString pathAt firstFree vfsFdOffset)

section Model

variable {Backend : Type}

/-- The functions that a backend sets; each gets the path and its other arguments. -/
abbrev VfsImpl (Backend : Type) :=
  Operation → Option (List UInt8 → List Int → EStateM Stop Backend Int)

structure MountPoint (Backend : Type) where
  mnt : Nat
  impl : Option (VfsImpl Backend)

structure VfsFile (Backend : Type) where
  id : Int
  loc : Nat
  flags : Int
  mode : Int
  fs : MountPoint Backend

structure Vfs (Backend : Type) where
  openFiles : Nat → Option Nat
  backend : Backend
  calls : List (Operation × List UInt8)

abbrev VfsM (Backend : Type) := EStateM Stop (Vfs Backend)

variable (memory : Memory)

def startswith (str mnt : Nat) : Bool := strncmp memory str mnt (strlen memory mnt) = 0

def vfsFindMnt (mountpoints : List (MountPoint Backend)) (path : Nat) :
    Option (MountPoint Backend) :=
  if path = 0 then none
  else mountpoints.find? fun mount => mount.mnt ≠ 0 && startswith memory path mount.mnt

/-- A call through a function pointer of the backend. -/
def callBackend (operation : Operation)
    (function : List UInt8 → List Int → EStateM Stop Backend Int) (path : Nat)
    (arguments : List Int) : VfsM Backend Int := fun vfs =>
  let calls := (operation, pathAt memory path) :: vfs.calls
  match function (pathAt memory path) arguments vfs.backend with
  | .ok result backend => .ok result { vfs with backend, calls }
  | .error stop backend => .error stop { vfs with backend, calls }

/-- The pointer into the path at the last byte of the mount name. -/
def locWoMnt (mount : MountPoint Backend) (path : Nat) : Nat :=
  path + strlen memory mount.mnt - 1

/-- `block` is what `malloc` returns. -/
def vfsOpen (mountpoints : List (MountPoint Backend)) (block path : Nat) (flags mode : Int) :
    VfsM Backend (Option (VfsFile Backend)) := do
  if path = 0 then return none
  else
    match vfsFindMnt memory mountpoints path with
    | none => return none
    | some mount =>
        match mount.impl.bind (· .exists) with
        | none => return none
        | some function =>
            if block = 0 then return none
            else
              let found ← callBackend memory .exists function (locWoMnt memory mount path) []
              if found = 0 then return none
              else
                let vfs ← get
                match firstFree vfs.openFiles (vfsMaxFileDescriptors - vfsFdOffset) vfsFdOffset with
                | none => throw (.panic "out of bounds detected")
                | some i =>
                    set { vfs with openFiles := Function.update vfs.openFiles i (some block) }
                    return some { id := i, loc := path, flags, mode, fs := mount }

/-- The common body of the operations; `refused` is what the failing checks return. -/
def vfsCall (operation : Operation) (refused : Int → Int) (file : Option (VfsFile Backend))
    (arguments : List Int) : VfsM Backend Int := do
  match file with
  | none => return refused (-1)
  | some file =>
      if file.loc = 0 then return refused (-2)
      else
        match file.fs.impl with
        | none => return refused (-4)
        | some impl =>
            match impl operation with
            | none => return 0
            | some function =>
                callBackend memory operation function (locWoMnt memory file.fs file.loc) arguments

def vfsRead (file : Option (VfsFile Backend)) (buffer sz : Int) : VfsM Backend Int :=
  vfsCall memory .read id file [buffer, sz]

def vfsWrite (file : Option (VfsFile Backend)) (buffer sz : Int) : VfsM Backend Int :=
  vfsCall memory .write id file [buffer, sz]

def vfsSeek (file : Option (VfsFile Backend)) (offset whence : Int) : VfsM Backend Int :=
  vfsCall memory .seek id file [offset, whence]

def vfsStat (file : Option (VfsFile Backend)) (stat : Int) : VfsM Backend Int :=
  vfsCall memory .stat id file [stat]

/-- Every failing check returns a null pointer. -/
def vfsMmap (file : Option (VfsFile Backend)) (len prot flags : Int) : VfsM Backend Int :=
  vfsCall memory .mmap (fun _ => 0) file [len, prot, flags]

/-- Unlike the others it passes `file->loc` itself, and it does not check the pointers it calls
through. -/
def vfsExists (file : Option (VfsFile Backend)) : VfsM Backend Int := do
  match file with
  | none => return -1
  | some file =>
      if file.loc = 0 then return -2
      else
        match file.fs.impl.bind (· .exists) with
        | none => throw (.panic "type mismatch detected")
        | some function =>
            let found ← callBackend memory .exists function file.loc []
            return if found ≠ 0 then 1 else 0

end Model

/-! ## Strings -/

structure StringAt (memory : Memory) (address : Nat) (text : List UInt8) : Prop where
  held : TextAt memory address text
  fits : address + text.length < 2 ^ 64

def slash : UInt8 := 47

def Named {Backend : Type} (memory : Memory) (mountpoints : List (MountPoint Backend)) : Prop :=
  ∀ mount ∈ mountpoints, mount.mnt ≠ 0 → ∃ name, StringAt memory mount.mnt (name ++ [slash])

def Matches {Backend : Type} (memory : Memory) (text : List UInt8) (mount : MountPoint Backend) :
    Prop :=
  mount.mnt ≠ 0 ∧ ∃ name, StringAt memory mount.mnt name ∧ name <+: text

structure FindsFirst {Backend : Type} (memory : Memory) (mountpoints : List (MountPoint Backend))
    (path : Nat) (text : List UInt8) : Prop where
  first : ∀ mount, vfsFindMnt memory mountpoints path = some mount ↔ Matches memory text mount ∧
    ∃ before behind, mountpoints = before ++ mount :: behind ∧
      ∀ other ∈ before, ¬Matches memory text other
  none : vfsFindMnt memory mountpoints path = none ↔
    ∀ mount ∈ mountpoints, ¬Matches memory text mount

section Strings

variable {Backend : Type} {memory : Memory} {address path : Nat} {text name : List UInt8}
  {mount : MountPoint Backend} {mountpoints : List (MountPoint Backend)}

theorem cString_eq {fuel : Nat} (held : TextAt memory address text) (short : text.length < fuel) :
    cString memory fuel address = text := by
  induction text generalizing address fuel with
  | nil =>
    cases fuel with
    | zero => exact absurd short (Nat.not_lt_zero _)
    | succ fuel => exact if_pos held
  | cons byte rest induction =>
    cases fuel with
    | zero => exact absurd short (Nat.not_lt_zero _)
    | succ fuel =>
      have more : memory address ≠ 0 := held.1 ▸ held.2.1
      rw [cString, if_neg more, held.1, induction held.2.2 (Nat.lt_of_succ_lt_succ short)]

theorem StringAt.short (string : StringAt memory address text) : text.length < 2 ^ 64 :=
  Nat.lt_of_le_of_lt (Nat.le_add_left _ _) string.fits

theorem StringAt.path_at (string : StringAt memory address text) : pathAt memory address = text :=
  cString_eq string.held string.short

theorem StringAt.startswith_iff (string : StringAt memory address text)
    (named : StringAt memory path name) : startswith memory address path = true ↔ name <+: text := by
  rw [startswith, decide_eq_true_iff, strlen_eq named.held named.short,
    strncmp_eq_zero_iff string.held named.held]

theorem matches_iff (named : Named memory mountpoints) (string : StringAt memory path text)
    (member : mount ∈ mountpoints) :
    (mount.mnt ≠ 0 && startswith memory path mount.mnt) = true ↔ Matches memory text mount := by
  rw [Bool.and_eq_true, decide_eq_true_iff, Matches]
  refine and_congr_right fun present => ?_
  obtain ⟨name, nameAt⟩ := named mount member present
  rw [string.startswith_iff nameAt]
  constructor
  · exact fun begins => ⟨_, nameAt, begins⟩
  · rintro ⟨other, otherAt, begins⟩
    rwa [text_unique nameAt.held otherAt.held]

theorem finds_first (named : Named memory mountpoints) (nonnull : path ≠ 0)
    (string : StringAt memory path text) : FindsFirst memory mountpoints path text where
  first := by
    intro mount
    rw [vfsFindMnt, if_neg nonnull, List.find?_eq_some_iff_append]
    constructor
    · rintro ⟨found, before, behind, rfl, skipped⟩
      refine ⟨(matches_iff named string (by simp)).mp found, before, behind, rfl, ?_⟩
      intro other earlier matched
      have passed := (matches_iff named string (List.mem_append_left _ earlier)).mpr matched
      exact absurd (skipped other earlier) (by rw [passed]; decide)
    · rintro ⟨matched, before, behind, rfl, unmatched⟩
      refine ⟨(matches_iff named string (by simp)).mpr matched, before, behind, rfl, ?_⟩
      intro other earlier
      rw [Bool.not_eq_true', ← Bool.not_eq_true, matches_iff named string (by simp [earlier])]
      exact unmatched other earlier
  none := by
    rw [vfsFindMnt, if_neg nonnull, List.find?_eq_none]
    exact forall₂_congr fun mount member => not_congr (matches_iff named string member)

theorem passed_eq (string : StringAt memory path text) (named : StringAt memory mount.mnt name)
    (begins : name <+: text) (positive : 0 < name.length) :
    pathAt memory (locWoMnt memory mount path) = text.drop (name.length - 1) := by
  have inside : name.length - 1 ≤ text.length := Nat.le_trans (Nat.sub_le _ _) begins.length_le
  have dropped := text_drop string.held inside
  have short := string.short
  rw [locWoMnt, strlen_eq named.held named.short, Nat.add_sub_assoc positive]
  apply cString_eq dropped
  rw [List.length_drop]
  omega

end Strings

/-! ## What the backends are given -/

def Passes {Backend : Type} (program : VfsM Backend Int) (operation : Operation)
    (passed : List UInt8) : Prop :=
  ∀ vfs, Ends program (fun _ after => after.calls = (operation, passed) :: vfs.calls)
    (fun _ after => after.calls = (operation, passed) :: vfs.calls) vfs

def Offers {Backend : Type} (file : VfsFile Backend) (operation : Operation) : Prop :=
  file.fs.impl.bind (· operation) ≠ none

/-- Every operation on the file names it by the same string, and the file exists as long as the
backend has it under that name. -/
structure SameName {Backend : Type} (memory : Memory) (file : VfsFile Backend)
    (passed : List UInt8) : Prop where
  read : Offers file .read → ∀ buffer sz, Passes (vfsRead memory (some file) buffer sz) .read passed
  write : Offers file .write →
    ∀ buffer sz, Passes (vfsWrite memory (some file) buffer sz) .write passed
  seek : Offers file .seek →
    ∀ offset whence, Passes (vfsSeek memory (some file) offset whence) .seek passed
  stat : Offers file .stat → ∀ stat, Passes (vfsStat memory (some file) stat) .stat passed
  mmap : Offers file .mmap →
    ∀ len prot flags, Passes (vfsMmap memory (some file) len prot flags) .mmap passed
  asked : Passes (vfsExists memory (some file)) .exists passed
  present : ∀ function, file.fs.impl.bind (· .exists) = some function → ∀ vfs found backend,
    function passed [] vfs.backend = .ok found backend → found ≠ 0 →
      ∃ after, vfsExists memory (some file) vfs = .ok 1 after

section Operations

variable {Backend : Type} {memory : Memory} {path : Nat} {text name passed : List UInt8}
  {file : VfsFile Backend} {mountpoints : List (MountPoint Backend)} {vfs after : Vfs Backend}

theorem passes_callBackend (operation : Operation)
    (function : List UInt8 → List Int → EStateM Stop Backend Int) (arguments : List Int) :
    Passes (callBackend memory operation function path arguments) operation
      (pathAt memory path) := by
  intro vfs
  rw [Ends, callBackend]
  cases function (pathAt memory path) arguments vfs.backend with
  | ok result backend => rfl
  | error stop backend => rfl

theorem passes_vfsCall {operation : Operation} (offers : Offers file operation)
    (located : file.loc ≠ 0) (refused : Int → Int) (arguments : List Int) :
    Passes (vfsCall memory operation refused (some file) arguments) operation
      (pathAt memory (locWoMnt memory file.fs file.loc)) := by
  rw [vfsCall, if_neg located]
  cases impl : file.fs.impl with
  | none => exact absurd (by rw [impl]; rfl) offers
  | some functions =>
    cases set : functions operation with
    | none => exact absurd (by rw [impl]; exact set) offers
    | some function =>
      simp only [set]
      exact passes_callBackend operation function arguments

theorem passes_vfsExists (offers : Offers file .exists) (located : file.loc ≠ 0) :
    Passes (vfsExists memory (some file)) .exists (pathAt memory file.loc) := by
  intro vfs
  rw [vfsExists, if_neg located]
  cases set : file.fs.impl.bind (· .exists) with
  | none => exact absurd set offers
  | some function =>
    rw [ends_bind]
    apply ends_mono (passes_callBackend .exists function [] vfs) _ fun _ _ => id
    intro found after logged
    rwa [ends_pure]

theorem vfs_open_some {block : Nat} {flags mode : Int}
    (run : vfsOpen memory mountpoints block path flags mode vfs = .ok (some file) after) :
    file.loc = path ∧ vfsFindMnt memory mountpoints path = some file.fs ∧ Offers file .exists ∧
      after.calls = (.exists, pathAt memory (locWoMnt memory file.fs path)) :: vfs.calls := by
  have spec : Ends (vfsOpen memory mountpoints block path flags mode)
      (fun result after => ∀ file, result = some file → file.loc = path ∧
        vfsFindMnt memory mountpoints path = some file.fs ∧ Offers file .exists ∧
        after.calls = (.exists, pathAt memory (locWoMnt memory file.fs path)) :: vfs.calls)
      (fun _ _ => True) vfs := by
    rw [vfsOpen, ends_ite]
    split
    · exact (ends_pure _).mpr fun _ opened => nomatch opened
    · cases found : vfsFindMnt memory mountpoints path with
      | none => exact (ends_pure _).mpr fun _ opened => nomatch opened
      | some mount =>
        cases set : mount.impl.bind (· .exists) with
        | none =>
          simp only [set]
          exact (ends_pure _).mpr fun _ opened => nomatch opened
        | some function =>
          simp only [set, ends_ite]
          split
          · exact (ends_pure _).mpr fun _ opened => nomatch opened
          · rw [ends_bind]
            apply ends_mono (passes_callBackend .exists function [] vfs) _ fun _ _ _ => trivial
            intro result asked logged
            rw [ends_ite]
            split
            · exact (ends_pure _).mpr fun _ opened => nomatch opened
            · rw [ends_bind, ends_get]
              cases firstFree asked.openFiles (vfsMaxFileDescriptors - vfsFdOffset)
                  vfsFdOffset with
              | none => exact (ends_throw _).mpr trivial
              | some i =>
                rw [ends_bind, ends_set, ends_pure]
                rintro _ ⟨⟩
                exact ⟨rfl, rfl, by rw [Offers, set]; exact Option.some_ne_none _, logged⟩
  exact spec.returns run file rfl

theorem same_name_iff (located : file.loc ≠ 0) (offers : Offers file .exists)
    (string : StringAt memory file.loc text) (named : StringAt memory file.fs.mnt name)
    (begins : name <+: text) (positive : 0 < name.length) (vfs : Vfs Backend) :
    SameName memory file (text.drop (name.length - 1)) ↔ name.length = 1 := by
  have asks := @passes_vfsExists Backend memory file offers located
  have passes := passed_eq string named begins positive
  rw [string.path_at] at asks
  constructor
  · intro same
    have both : Ends (vfsExists memory (some file))
        (fun _ _ => text.drop (name.length - 1) = text)
        (fun _ _ => text.drop (name.length - 1) = text) vfs := by
      apply ends_mono (ends_and (same.asked vfs) (asks vfs))
      all_goals
        rintro _ _ ⟨first, second⟩
        simpa using first.symm.trans second
    have whole : text.drop (name.length - 1) = text := by
      cases ended : vfsExists memory (some file) vfs with
      | ok _ _ => exact both.returns ended
      | error _ _ => exact both.stops ended
    have shorter := congrArg List.length whole
    have longer := begins.length_le
    rw [List.length_drop] at shorter
    omega
  · intro one
    have root : text.drop (name.length - 1) = text := by rw [one]; rfl
    have calls : ∀ operation, Offers file operation → ∀ refused arguments,
        Passes (vfsCall memory operation refused (some file) arguments) operation
          (text.drop (name.length - 1)) := by
      intro operation offered refused arguments
      rw [← passes]
      exact passes_vfsCall offered located refused arguments
    rw [root] at calls ⊢
    refine ⟨fun offered _ _ => calls _ offered _ _, fun offered _ _ => calls _ offered _ _,
      fun offered _ _ => calls _ offered _ _, fun offered _ => calls _ offered _ _,
      fun offered _ _ _ => calls _ offered _ _, asks, ?_⟩
    intro function set vfs found backend has nonzero
    refine ⟨{ vfs with backend, calls := (.exists, text) :: vfs.calls }, ?_⟩
    simp [vfsExists, located, set, callBackend, string.path_at, has, nonzero, bind, EStateM.bind,
      pure, EStateM.pure]

end Operations

/-- In any table of mounts whose names end in `'/'`, the first one that begins a path is found;
and the operations on a file that is opened on the path all name it as `vfs_open` did if and only
if the name of its mount is `"/"`. -/
theorem same_name_iff_root {Backend : Type} {memory : Memory}
    {mountpoints : List (MountPoint Backend)} (named : Named memory mountpoints) {path : Nat}
    {text : List UInt8} (nonnull : path ≠ 0) (string : StringAt memory path text) :
    FindsFirst memory mountpoints path text ∧
      ∀ block flags mode vfs file after,
        vfsOpen memory mountpoints block path flags mode vfs = .ok (some file) after →
        ∃ name, StringAt memory file.fs.mnt (name ++ [slash]) ∧ name ++ [slash] <+: text ∧
          after.calls = (.exists, text.drop name.length) :: vfs.calls ∧
          (SameName memory file (text.drop name.length) ↔ name = []) := by
  have finds := finds_first named nonnull string
  refine ⟨finds, ?_⟩
  intro block flags mode vfs file after run
  obtain ⟨located, found, offers, logged⟩ := vfs_open_some run
  obtain ⟨⟨present, other, otherAt, begins⟩, before, behind, table, -⟩ := (finds.first file.fs).mp found
  obtain ⟨name, nameAt⟩ := named file.fs (by rw [table]; simp) present
  obtain rfl := text_unique nameAt.held otherAt.held
  have size : (name ++ [slash]).length - 1 = name.length := by simp
  have positive : 0 < (name ++ [slash]).length := by simp
  rw [passed_eq string nameAt begins positive, size] at logged
  rw [← located] at nonnull string
  have same := same_name_iff nonnull offers string nameAt begins positive vfs
  rw [size] at same
  refine ⟨name, nameAt, begins, logged, ?_⟩
  rw [same]
  simp

/-! ## Two tables -/

def zeroPath : List UInt8 := VirtualFiles.ascii ['/', 'z', 'e', 'r', 'o']

def zeroImpl : VfsImpl Unit
  | .exists => some fun path _ =>
      pure (if path = zeroPath then 1 else 0)
  | _ => none

def sampleMemory (mnt : List Char) : Memory := fun address =>
  if address < 200 then (VirtualFiles.ascii mnt).getD (address - 100) 0
  else (VirtualFiles.ascii (mnt ++ ['z', 'e', 'r', 'o'])).getD (address - 200) 0

def sampleMounts : List (MountPoint Unit) := [⟨100, some zeroImpl⟩]

def sampleVfs : Vfs Unit := ⟨fun _ => none, (), []⟩

def sampleFile : VfsFile Unit := ⟨10, 200, 0, 0, ⟨100, some zeroImpl⟩⟩

def sampleOpened : Vfs Unit :=
  ⟨Function.update (fun _ => none) 10 (some 1), (), [(.exists, zeroPath)]⟩

theorem sample_opens {memory : Memory} {name : List UInt8}
    (nameAt : StringAt memory 100 (name ++ [slash])) (string : StringAt memory 200 (name ++ zeroPath)) :
    vfsOpen memory sampleMounts 1 200 0 0 sampleVfs = .ok (some sampleFile) sampleOpened := by
  have begins : name ++ [slash] <+: name ++ zeroPath :=
    (List.prefix_append_right_inj name).mpr ⟨_, rfl⟩
  have found : vfsFindMnt memory sampleMounts 200 = some ⟨100, some zeroImpl⟩ := by
    simp [vfsFindMnt, sampleMounts, (string.startswith_iff nameAt).mpr begins]
  have passed : pathAt memory (locWoMnt memory (⟨100, some zeroImpl⟩ : MountPoint Unit) 200) =
      zeroPath := by
    rw [passed_eq string nameAt begins (by simp)]
    simp
  have free : firstFree (fun _ => none) (vfsMaxFileDescriptors - vfsFdOffset) vfsFdOffset = some 10 :=
    rfl
  simp [vfsOpen, found, zeroImpl, callBackend, passed, sampleVfs, free, bind, EStateM.bind, pure,
    EStateM.pure, get, getThe, MonadStateOf.get, EStateM.get, set, MonadStateOf.set, EStateM.set,
    sampleFile, sampleOpened, zeroPath]

/-- A file of the file system that is mounted at `/` exists once it is open. -/
theorem same_name_iff_root_zero : ∃ file after,
    vfsOpen (sampleMemory ['/']) sampleMounts 1 200 0 0 sampleVfs = .ok (some file) after ∧
      SameName (sampleMemory ['/']) file zeroPath := by
  have rootAt : StringAt (sampleMemory ['/']) 100 ([] ++ [slash]) := ⟨by decide, by decide⟩
  have string : StringAt (sampleMemory ['/']) 200 ([] ++ zeroPath) := ⟨by decide, by decide⟩
  have named : Named (sampleMemory ['/']) sampleMounts := by
    intro mount member _
    rw [List.mem_singleton.mp member]
    exact ⟨[], rootAt⟩
  have opens := sample_opens rootAt string
  obtain ⟨name, nameAt, -, -, same⟩ :=
    (same_name_iff_root named (by decide) string).2 _ _ _ _ _ _ opens
  obtain rfl := List.append_cancel_right (text_unique nameAt.held rootAt.held)
  exact ⟨_, _, opens, same.mpr rfl⟩

/-- A device that has just been opened as `/dev/zero` does not exist. -/
theorem open_device_missing : ∃ file after last,
    vfsOpen (sampleMemory ['/', 'd', 'e', 'v', '/']) sampleMounts 1 200 0 0 sampleVfs =
        .ok (some file) after ∧
      after.calls = [(.exists, zeroPath)] ∧
      vfsExists (sampleMemory ['/', 'd', 'e', 'v', '/']) (some file) after = .ok 0 last ∧
      last.calls = (.exists, VirtualFiles.ascii ['/', 'd', 'e', 'v'] ++ zeroPath) :: after.calls := by
  have nameAt : StringAt (sampleMemory ['/', 'd', 'e', 'v', '/']) 100
      (VirtualFiles.ascii ['/', 'd', 'e', 'v'] ++ [slash]) := ⟨by decide, by decide⟩
  have string : StringAt (sampleMemory ['/', 'd', 'e', 'v', '/']) 200
      (VirtualFiles.ascii ['/', 'd', 'e', 'v'] ++ zeroPath) := ⟨by decide, by decide⟩
  have other : ¬VirtualFiles.ascii ['/', 'd', 'e', 'v'] ++ zeroPath = zeroPath := by decide
  refine ⟨_, _, { sampleOpened with calls := _ :: sampleOpened.calls }, sample_opens nameAt string,
    rfl, ?_, rfl⟩
  simp [vfsExists, sampleFile, zeroImpl, callBackend, string.path_at, other, bind, EStateM.bind,
    pure, EStateM.pure, sampleOpened]

end RiriaKernel.MountTables
