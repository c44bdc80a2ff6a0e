import Mathlib.Data.List.Induction
import RiriaKernel.FileDescriptors

/-!
# Sessions of file system calls

Any sequence of calls of `vfs_sys.c`, each made with the memory that is mapped when it is
made: a process may have overwritten its path in between, or another process may be running.
A session records, for every open descriptor, what its path named when it was opened and
where its own reads and seeks have left it; no code reads that. `vfs_open` keeps the address
of the path and not the path, so every later call spells it again.
-/

namespace RiriaKernel.FileSessions

open ByteMemory HaltingPrograms KernelState TarFiles TarReads VirtualFiles
open FileDescriptors
open UserProcesses (vfsMaxFileDescriptors)

/-- A call and the memory it is made with; `block` is what `malloc` returns, `audio` what the
sound driver does, `tarMmap` the pointer that `tarfs_init` does not set. -/
inductive Event
  | sysOpen (memory : Memory) (block path : Nat) (flags mode : Int)
  | sysRead (memory : Memory) (fd : Int) (buffer sz : Nat)
  | sysWrite (memory : Memory) (audio fd : Int) (buffer sz : Nat)
  | sysSeek (memory : Memory) (fd : Int) (offset : Nat)
  | sysMmap (memory : Memory) (tarMmap : Nat) (fd : Int) (len : Nat)
  | sysClose (fd : Int)

/-- What a descriptor was opened on, and the position of its own cursor. -/
structure Target where
  mount : Mount
  path : List UInt8
  pos : Nat

structure Session where
  vfs : Vfs
  targets : Int → Option Target

def returning {Value : Type} (program : VfsM Value) (vfs : Vfs) (targets : Value → Int → Option Target) :
    Option Session :=
  match program vfs with
  | .ok value after => some ⟨after, targets value⟩
  | .error _ _ => none

def openTargets (memory : Memory) (path : Nat) (targets : Int → Option Target) (id : Int) :
    Int → Option Target :=
  match vfsFindMnt memory path with
  | none => targets
  | some mount =>
      if 0 ≤ id then Function.update targets id (some ⟨mount, locWoMnt memory mount path, 0⟩)
      else targets

def moveTarget (targets : Int → Option Target) (fd : Int) (pos : Nat → Nat) :
    Int → Option Target :=
  Function.update targets fd
    ((targets fd).map fun (target : Target) => { target with pos := pos target.pos })

section Playing

variable (content : Content) (fuel : Nat)

/-- One call; nothing if it panics, so that a session is what happens up to the first panic. A
record that `malloc` returns is not in use. -/
def stepEvent (session : Session) : Event → Option Session
  | .sysOpen memory block path flags mode =>
      if (session.vfs.files block).isSome then none
      else returning (vfsSysOpen memory block path flags mode) session.vfs
        (openTargets memory path session.targets)
  | .sysRead memory fd buffer sz =>
      returning (vfsSysRead content fuel memory fd buffer sz) session.vfs fun result =>
        moveTarget session.targets fd (· + result.2.length)
  | .sysWrite memory audio fd buffer sz =>
      returning (vfsSysWrite memory audio fd buffer sz) session.vfs fun _ => session.targets
  | .sysSeek memory fd offset =>
      returning (vfsSysSeek memory fd offset) session.vfs fun _ =>
        moveTarget session.targets fd fun _ => offset
  | .sysMmap memory tarMmap fd len =>
      returning (vfsSysMmap memory tarMmap fd len) session.vfs fun _ => session.targets
  | .sysClose fd =>
      returning (vfsSysClose fd) session.vfs fun result =>
        if result = 0 then Function.update session.targets fd none else session.targets

def play (start : Session) (events : List Event) : Option Session :=
  events.foldlM (stepEvent content fuel) start

end Playing

/-! ## What the calls keep -/

def openFile (vfs : Vfs) (fd : Int) : Option VfsFile :=
  (vfsGetFromFd vfs.openFiles fd).bind vfs.files

section Calls

variable {memory : Memory} {vfs : Vfs} {fd : Int}

theorem ends_fileOf {returned : Option (VfsFile × List UInt8) → Vfs → Prop}
    {stopped : Stop → Vfs → Prop} :
    Ends (fileOf memory fd) returned stopped vfs = returned ((openFile vfs fd).map fun file =>
      (file, locWoMnt memory file.fs file.loc)) vfs := by
  simp only [fileOf, ends_bind, ends_get, openFile]
  cases vfsGetFromFd vfs.openFiles fd with
  | none => exact ends_pure ..
  | some block => exact ends_pure ..

theorem ends_runTar {Value : Type} {program : Tar Value} {returned : Value → Vfs → Prop}
    {stopped : Stop → Vfs → Prop} :
    Ends (runTar program) returned stopped vfs =
      Ends program (fun value tarfs => returned value { vfs with tarfs })
        (fun stop tarfs => stopped stop { vfs with tarfs }) vfs.tarfs := by
  unfold Ends runTar
  cases program vfs.tarfs <;> rfl

theorem ends_runKeyboard {Value : Type} {program : KeyboardBuffer.Driver Value}
    {returned : Value → Vfs → Prop} {stopped : Stop → Vfs → Prop} :
    Ends (runKeyboard program) returned stopped vfs =
      Ends program (fun value keyboard => returned value { vfs with keyboard })
        (fun stop keyboard => stopped stop { vfs with keyboard }) vfs.keyboard := by
  unfold Ends runKeyboard
  cases program vfs.keyboard <;> rfl

def reached (tarMmap : Nat) (path : List UInt8) : Operation → Mount → List Call
  | .write, .init => []
  | .seek, .dev => []
  | .mmap, .init => if tarMmap = 0 then [] else [.wild]
  | operation, mount => [.backend mount operation path]

def dispatched (memory : Memory) (vfs : Vfs) (tarMmap : Nat) (fd : Int) (operation : Operation) :
    List Call :=
  match openFile vfs fd with
  | none => []
  | some file =>
      if file.loc = 0 then []
      else reached tarMmap (locWoMnt memory file.fs file.loc) operation file.fs

structure Kept (vfs : Vfs) (made : List Call) (after : Vfs) : Prop where
  openFiles : after.openFiles = vfs.openFiles
  files : after.files = vfs.files
  calls : after.calls = made ++ vfs.calls

theorem ends_devfsRead_frame (frame : Vfs → Prop) (path : List UInt8) (buffer sz : Nat)
    (kept : ∀ keyboard, frame { vfs with keyboard }) :
    Ends (devfsRead path buffer sz) (fun _ after => frame after) (fun _ after => frame after) vfs := by
  have unchanged : frame vfs := kept vfs.keyboard
  have keyboard : Ends (runKeyboard (KeyboardBuffer.keyboardRead sz))
      (fun _ after => frame after) (fun _ after => frame after) vfs := by
    rw [ends_runKeyboard]
    exact ends_of_forall (fun _ => kept) fun _ => kept
  rw [devfsRead, ends_ite]
  split
  · rwa [ends_pure]
  · cases devfsFindDev path with
    | none => rwa [ends_pure]
    | some device =>
      cases device with
      | keyboard =>
        rw [ends_bind]
        exact ends_mono keyboard (fun _ _ held => by rwa [ends_pure]) fun _ _ => id
      | _ => rwa [ends_pure]

theorem ends_devfsWrite_frame (frame : Vfs → Prop) (audio : Int) (path : List UInt8)
    (buffer sz : Nat) (kept : frame vfs) :
    Ends (devfsWrite audio path buffer sz) (fun _ after => frame after)
      (fun _ after => frame after) vfs := by
  rw [devfsWrite, ends_ite]
  split
  · rwa [ends_pure]
  · cases devfsFindDev path with
    | none => rwa [ends_pure]
    | some device => cases device <;> rwa [ends_pure]

theorem ends_devfsMmap_frame (frame : Vfs → Prop) (path : List UInt8) (len : Nat)
    (kept : frame vfs) :
    Ends (devfsMmap path len) (fun _ after => frame after) (fun _ after => frame after) vfs := by
  rw [devfsMmap, ends_bind, ends_get]
  split <;> rwa [ends_pure]

theorem ends_runTar_frame {Value : Type} (frame : Vfs → Prop) (program : Tar Value)
    (kept : ∀ tarfs, frame { vfs with tarfs }) :
    Ends (runTar program) (fun _ after => frame after) (fun _ after => frame after) vfs := by
  rw [ends_runTar]
  exact ends_of_forall (fun _ => kept) fun _ => kept

theorem ends_on_file {Value : Type} {closed unnamed : Value}
    {body : VfsFile → List UInt8 → VfsM Value} {returned : Value → Vfs → Prop}
    {stopped : Stop → Vfs → Prop} (onClosed : openFile vfs fd = none → returned closed vfs)
    (onUnnamed : ∀ file, openFile vfs fd = some file → file.loc = 0 → returned unnamed vfs)
    (onFile : ∀ file, openFile vfs fd = some file → file.loc ≠ 0 →
      Ends (body file (locWoMnt memory file.fs file.loc)) returned stopped vfs) :
    Ends (fileOf memory fd >>= fun found =>
        match found with
        | none => pure closed
        | some (file, path) => if file.loc = 0 then pure unnamed else body file path)
      returned stopped vfs := by
  rw [ends_bind, ends_fileOf]
  cases found : openFile vfs fd with
  | none => exact (ends_pure ..).mpr (onClosed found)
  | some file =>
    rw [Option.map_some]
    dsimp only
    rw [ends_ite]
    by_cases null : file.loc = 0
    · rw [if_pos null, ends_pure]
      exact onUnnamed file found null
    · rw [if_neg null]
      exact onFile file found null

theorem ends_on_file_kept {Value : Type} {closed unnamed : Value}
    {body : VfsFile → List UInt8 → VfsM Value} {tarMmap : Nat} {operation : Operation}
    (onFile : ∀ file, openFile vfs fd = some file → file.loc ≠ 0 →
      Ends (body file (locWoMnt memory file.fs file.loc))
        (fun _ after => Kept vfs
          (reached tarMmap (locWoMnt memory file.fs file.loc) operation file.fs) after)
        (fun _ after => Kept vfs
          (reached tarMmap (locWoMnt memory file.fs file.loc) operation file.fs) after) vfs) :
    Ends (fileOf memory fd >>= fun found =>
        match found with
        | none => pure closed
        | some (file, path) => if file.loc = 0 then pure unnamed else body file path)
      (fun _ after => Kept vfs (dispatched memory vfs tarMmap fd operation) after)
      (fun _ after => Kept vfs (dispatched memory vfs tarMmap fd operation) after) vfs := by
  unfold dispatched
  apply ends_on_file
  · intro missing
    rw [missing]
    exact ⟨rfl, rfl, rfl⟩
  · intro file found null
    rw [found]
    dsimp only
    rw [if_pos null]
    exact ⟨rfl, rfl, rfl⟩
  · intro file found named
    rw [found]
    dsimp only
    rw [if_neg named]
    exact onFile file found named

theorem ends_vfsSysRead_kept (content : Content) (fuel buffer sz : Nat) :
    Ends (vfsSysRead content fuel memory fd buffer sz)
      (fun _ after => Kept vfs (dispatched memory vfs 0 fd .read) after)
      (fun _ after => Kept vfs (dispatched memory vfs 0 fd .read) after) vfs := by
  rw [vfsSysRead, ends_bind]
  refine ends_mono (ends_on_file_kept ?_) (fun _ _ kept => by rwa [ends_pure]) fun _ _ => id
  intro file found named
  rw [ends_bind, record, ends_modify]
  cases file.fs with
  | dev => exact ends_devfsRead_frame _ _ _ _ fun _ => ⟨rfl, rfl, rfl⟩
  | init => exact ends_runTar_frame _ _ fun _ => ⟨rfl, rfl, rfl⟩

theorem ends_vfsSysWrite_kept (audio : Int) (buffer sz : Nat) :
    Ends (vfsSysWrite memory audio fd buffer sz)
      (fun _ after => Kept vfs (dispatched memory vfs 0 fd .write) after)
      (fun _ after => Kept vfs (dispatched memory vfs 0 fd .write) after) vfs := by
  rw [vfsSysWrite, ends_bind]
  refine ends_mono (ends_on_file_kept ?_) (fun _ _ kept => by rwa [ends_pure]) fun _ _ => id
  intro file found named
  cases file.fs with
  | dev =>
    rw [ends_bind, record, ends_modify]
    exact ends_devfsWrite_frame _ _ _ _ _ ⟨rfl, rfl, rfl⟩
  | init => exact (ends_pure ..).mpr ⟨rfl, rfl, rfl⟩

theorem ends_vfsSysSeek_kept (offset : Nat) :
    Ends (vfsSysSeek memory fd offset)
      (fun _ after => Kept vfs (dispatched memory vfs 0 fd .seek) after)
      (fun _ after => Kept vfs (dispatched memory vfs 0 fd .seek) after) vfs := by
  rw [vfsSysSeek, ends_bind]
  refine ends_mono (ends_on_file_kept ?_) (fun _ _ kept => by rwa [ends_pure]) fun _ _ => id
  intro file found named
  cases file.fs with
  | dev => exact (ends_pure ..).mpr ⟨rfl, rfl, rfl⟩
  | init =>
    rw [ends_bind, record, ends_modify]
    exact ends_runTar_frame _ _ fun _ => ⟨rfl, rfl, rfl⟩

theorem ends_vfsSysMmap_kept (tarMmap len : Nat) :
    Ends (vfsSysMmap memory tarMmap fd len)
      (fun _ after => Kept vfs (dispatched memory vfs tarMmap fd .mmap) after)
      (fun _ after => Kept vfs (dispatched memory vfs tarMmap fd .mmap) after) vfs := by
  rw [vfsSysMmap, vfsMmap]
  apply ends_on_file_kept
  intro file found named
  cases file.fs with
  | dev =>
    rw [ends_bind, record, ends_modify]
    exact ends_devfsMmap_frame _ _ _ ⟨rfl, rfl, rfl⟩
  | init =>
    rw [ends_ite, reached]
    by_cases unset : tarMmap = 0
    · rw [if_pos unset, if_pos unset, ends_pure]
      exact ⟨rfl, rfl, rfl⟩
    · rw [if_neg unset, if_neg unset, ends_bind, record, ends_modify, ends_pure]
      exact ⟨rfl, rfl, rfl⟩

theorem ends_vfsSysOpen_any {block path : Nat} (flags mode : Int)
    (fresh : vfs.files block = none) :
    Ends (vfsSysOpen memory block path flags mode)
      (fun id after => (id = -1 ∧ after.openFiles = vfs.openFiles ∧ after.files = vfs.files ∧
          after.tarfs = vfs.tarfs ∧ ∀ mount, ¬PathExists memory vfs path mount) ∨
        ∃ mount fd, PathExists memory vfs path mount ∧ Slot fd ∧ vfs.openFiles fd = none ∧
          id = (fd : Int) ∧ Opened vfs block path flags mode mount fd after)
      (fun _ _ => True) vfs := by
  by_cases null : path = 0
  · rw [vfsSysOpen, ends_bind, vfsOpen, if_pos null, ends_pure, ends_pure]
    exact .inl ⟨rfl, rfl, rfl, rfl, fun mount known => known.1 null⟩
  · cases mounted : vfsFindMnt memory path with
    | none =>
      simp only [vfsSysOpen, ends_bind, vfsOpen, if_neg null, mounted, ends_pure]
      refine .inl ⟨trivial, trivial, trivial, trivial, fun mount known => ?_⟩
      have named := known.2.1
      rw [mounted] at named
      cases named
    | some mount =>
      by_cases known : Known vfs (locWoMnt memory mount path) mount
      · have exist : PathExists memory vfs path mount := ⟨null, mounted, known⟩
        apply ends_mono (ends_vfsSysOpen flags mode exist)
        · intro id after opened
          obtain ⟨fd, least, same, opened⟩ := opened
          exact .inr ⟨mount, fd, exist, least.1.1, least.1.2, same, opened⟩
        · exact fun _ _ _ => trivial
      · simp only [vfsSysOpen, vfsOpen, if_neg null, mounted, ends_bind, ends_modify]
        cases mount with
        | dev =>
          have missing : devfsExists (locWoMnt memory .dev path) = false :=
            Bool.eq_false_iff.mpr known
          simp only [mountExists, ends_bind, record, ends_modify, ends_pure, missing, if_true]
          refine .inl ⟨trivial, trivial, ?_, trivial, fun mount named => ?_⟩
          · rw [Function.update_idem, ← fresh, Function.update_eq_self]
          · obtain rfl := Option.some.inj (named.2.1.symm.trans mounted)
            exact known named.2.2
        | init =>
          simp only [mountExists, ends_bind, record, ends_modify, ends_runTar, tarfsExists]
          apply ends_mono (ends_tarfsFindFile _ _)
          · intro index after search
            obtain ⟨-, file, found, -⟩ := search
            exact absurd ⟨file, found⟩ known
          · exact fun _ _ _ => trivial

end Calls

/-! ## What a session keeps track of -/

structure Tracked (session : Session) : Prop where
  table : TableMatches session.vfs (vfsGetFromFd session.vfs.openFiles)
  bound : ∀ fd target, session.targets fd = some target → ∃ file,
    openFile session.vfs fd = some file ∧ file.fs = target.mount ∧ file.loc ≠ 0 ∧
    ∃ memory, locWoMnt memory file.fs file.loc = target.path
  complete : ∀ fd file, openFile session.vfs fd = some file → session.targets fd ≠ none

section Tables

variable {vfs after : Vfs} {block path fd : Nat}

section

variable (table : TableMatches vfs (vfsGetFromFd vfs.openFiles))

include table

theorem table_matches_open {flags mode : Int} {mount : Mount} (slot : Slot fd)
    (free : vfs.openFiles fd = none) (fresh : vfs.files block = none)
    (opened : Opened vfs block path flags mode mount fd after) :
    vfsGetFromFd after.openFiles =
        Function.update (vfsGetFromFd vfs.openFiles) fd (some block) ∧
      TableMatches after (vfsGetFromFd after.openFiles) := by
  have next := table.open slot free fresh opened
  have same := funext next.get_from_fd
  exact ⟨same, same ▸ next⟩

theorem open_file_open {flags mode : Int} {mount : Mount} (slot : Slot fd)
    (free : vfs.openFiles fd = none) (fresh : vfs.files block = none)
    (opened : Opened vfs block path flags mode mount fd after) (other : Int) :
    openFile after other =
      if other = fd then some ⟨fd, path, flags, mode, mount⟩ else openFile vfs other := by
  obtain ⟨fds, -⟩ := table_matches_open table slot free fresh opened
  rw [openFile, fds, opened.files]
  by_cases here : other = fd
  · rw [if_pos here, here, Function.update_self, Option.bind_some, Function.update_self]
  · rw [if_neg here, Function.update_of_ne here, openFile]
    cases owner : vfsGetFromFd vfs.openFiles other with
    | none => rfl
    | some owned =>
      obtain ⟨i, -, -, file, stored, -⟩ := table.placed other owned owner
      have different : owned ≠ block := by
        intro same
        rw [same, fresh] at stored
        cases stored
      rw [Option.bind_some, Option.bind_some, Function.update_of_ne different]

theorem open_file_close {file : VfsFile} (stored : vfs.files block = some file)
    (owner : vfsGetFromFd vfs.openFiles fd = some block) (closed : Closed vfs block fd after)
    (other : Int) : TableMatches after (vfsGetFromFd after.openFiles) ∧
      openFile after other = if other = fd then none else openFile vfs other := by
  have next := table.close stored owner closed
  have fds := funext next.get_from_fd
  refine ⟨fds ▸ next, ?_⟩
  rw [openFile, fds, closed.files]
  by_cases here : other = fd
  · rw [if_pos here, here, Function.update_self, Option.bind_none]
  · rw [if_neg here, Function.update_of_ne here, openFile]
    cases holder : vfsGetFromFd vfs.openFiles other with
    | none => rfl
    | some owned =>
      have different : owned ≠ block := by
        intro same
        rw [same] at holder
        exact here ((table.fd_eq stored holder).trans (table.fd_eq stored owner).symm)
      rw [Option.bind_some, Option.bind_some, Function.update_of_ne different]

end

end Tables

theorem returning_eq_some_iff {Value : Type} {program : VfsM Value} {vfs : Vfs}
    {targets : Value → Int → Option Target} {next : Session} :
    returning program vfs targets = some next ↔
      ∃ value after, program vfs = .ok value after ∧ next = ⟨after, targets value⟩ := by
  unfold returning
  cases program vfs with
  | ok value after =>
    constructor
    · intro same
      exact ⟨value, after, rfl, (Option.some.inj same).symm⟩
    · rintro ⟨other, later, run, rfl⟩
      cases run
      rfl
  | error stop after =>
    constructor
    · intro same
      cases same
    · rintro ⟨other, later, run, -⟩
      cases run

section Steps

variable {session next : Session}

theorem Tracked.keep (tracked : Tracked session) {after : Vfs}
    (openFiles : after.openFiles = session.vfs.openFiles)
    (files : after.files = session.vfs.files) {targets : Int → Option Target}
    (same : ∀ fd, (targets fd).map (fun target => (target.mount, target.path)) =
      (session.targets fd).map fun target => (target.mount, target.path)) :
    Tracked ⟨after, targets⟩ := by
  have records : ∀ fd, openFile after fd = openFile session.vfs fd := by
    intro fd
    rw [openFile, openFile, openFiles, files]
  constructor
  · have table := tracked.table
    constructor
    · rw [openFiles]
      exact table.slots
    · rw [openFiles, files]
      exact table.placed
    · rw [openFiles, files]
      exact table.allocated
  · intro fd target found
    change targets fd = some target at found
    change ∃ file, openFile after fd = some file ∧ _
    have pair := same fd
    rw [found, Option.map_some, eq_comm, Option.map_eq_some_iff] at pair
    obtain ⟨old, held, equal⟩ := pair
    rw [Prod.mk.injEq] at equal
    rw [records, ← equal.1, ← equal.2]
    exact tracked.bound fd old held
  · intro fd file found missing
    change targets fd = none at missing
    change openFile after fd = some file at found
    have pair := same fd
    rw [missing, Option.map_none, eq_comm, Option.map_eq_none_iff] at pair
    rw [records] at found
    exact tracked.complete fd file found pair

theorem move_target_same (targets : Int → Option Target) (fd : Int) (pos : Nat → Nat)
    (other : Int) : (moveTarget targets fd pos other).map (fun target => (target.mount, target.path)) =
      (targets other).map fun target => (target.mount, target.path) := by
  unfold moveTarget
  by_cases here : other = fd
  · rw [here, Function.update_self, Option.map_map]
    rfl
  · rw [Function.update_of_ne here]

theorem open_targets_refused (memory : Memory) (path : Nat) (targets : Int → Option Target) :
    openTargets memory path targets (-1) = targets := by
  unfold openTargets
  split
  · rfl
  · exact if_neg (by decide)

theorem open_targets_opened {memory : Memory} {path : Nat} {mount : Mount}
    (mounted : vfsFindMnt memory path = some mount) (targets : Int → Option Target) (fd : Nat) :
    openTargets memory path targets fd =
      Function.update targets fd (some ⟨mount, locWoMnt memory mount path, 0⟩) := by
  rw [openTargets, mounted]
  exact if_pos (Int.natCast_nonneg fd)

theorem step_open (content : Content) (fuel block : Nat) {memory : Memory} {path fd : Nat}
    {mount : Mount} (known : PathExists memory session.vfs path mount)
    (fresh : session.vfs.files block = none)
    (least : IsLeast { i | Slot i ∧ session.vfs.openFiles i = none } fd) :
    ∃ after, stepEvent content fuel session (.sysOpen memory block path 0 0) =
        some ⟨after, Function.update session.targets fd
          (some ⟨mount, locWoMnt memory mount path, 0⟩)⟩ ∧
      Opened session.vfs block path 0 0 mount fd after := by
  obtain ⟨id, after, run, -⟩ := (open_behaves_iff block 0 0 known).mpr ⟨fd, least.1⟩
  obtain ⟨other, same, rfl, opened⟩ := (ends_vfsSysOpen 0 0 known).returns run
  obtain rfl := same.unique least
  refine ⟨after, ?_, opened⟩
  rw [stepEvent, fresh, if_neg (by decide), ← open_targets_opened known.2.1]
  exact returning_eq_some_iff.mpr ⟨_, after, run, rfl⟩

theorem Tracked.open (tracked : Tracked session) {memory : Memory} {block path : Nat}
    {flags mode : Int} {id : Int} {after : Vfs} (fresh : session.vfs.files block = none)
    (run : vfsSysOpen memory block path flags mode session.vfs = .ok id after) :
    Tracked ⟨after, openTargets memory path session.targets id⟩ := by
  rcases (ends_vfsSysOpen_any flags mode fresh).returns run with refused | opened
  · obtain ⟨rfl, openFiles, files, -⟩ := refused
    rw [open_targets_refused]
    exact tracked.keep openFiles files fun _ => rfl
  · obtain ⟨mount, fd, ⟨named, mounted, -⟩, slot, free, rfl, opened⟩ := opened
    have records := open_file_open tracked.table slot free fresh opened
    rw [open_targets_opened mounted]
    refine ⟨(table_matches_open tracked.table slot free fresh opened).2, ?_, ?_⟩
    · intro other target found
      change Function.update session.targets fd _ other = some target at found
      change ∃ file, openFile after other = some file ∧ _
      rw [records]
      by_cases here : other = fd
      · rw [here, Function.update_self, Option.some_inj] at found
        rw [if_pos here, ← found]
        exact ⟨_, rfl, rfl, named, memory, rfl⟩
      · rw [Function.update_of_ne here] at found
        rw [if_neg here]
        exact tracked.bound other target found
    · intro other file found
      change openFile after other = some file at found
      change Function.update session.targets fd _ other ≠ none
      rw [records] at found
      by_cases here : other = fd
      · rw [here, Function.update_self]
        exact Option.some_ne_none _
      · rw [if_neg here] at found
        rw [Function.update_of_ne here]
        exact tracked.complete other file found

theorem Tracked.close (tracked : Tracked session) {fd result : Int} {after : Vfs}
    (run : vfsSysClose fd session.vfs = .ok result after) :
    Tracked ⟨after,
      if result = 0 then Function.update session.targets fd none else session.targets⟩ := by
  have behaves := tracked.table.close_behaves fd
  unfold CloseBehaves at behaves
  cases owner : vfsGetFromFd session.vfs.openFiles fd with
  | none =>
    rw [owner] at behaves
    rw [behaves] at run
    cases run
    exact tracked.keep rfl rfl fun _ => rfl
  | some block =>
    rw [owner] at behaves
    obtain ⟨expected, ran, closed⟩ := behaves
    rw [ran] at run
    cases run
    obtain ⟨i, rfl, -, file, stored, -⟩ := tracked.table.placed fd block owner
    rw [Int.toNat_natCast] at closed
    have records := open_file_close tracked.table stored owner closed
    rw [if_pos rfl]
    refine ⟨(records i).1, ?_, ?_⟩
    · intro other target found
      change Function.update session.targets i none other = some target at found
      change ∃ file, openFile after other = some file ∧ _
      by_cases here : other = i
      · rw [here, Function.update_self] at found
        cases found
      · rw [Function.update_of_ne here] at found
        rw [(records other).2, if_neg here]
        exact tracked.bound other target found
    · intro other file found
      change openFile after other = some file at found
      change Function.update session.targets i none other ≠ none
      rw [(records other).2] at found
      by_cases here : other = i
      · rw [if_pos here] at found
        cases found
      · rw [if_neg here] at found
        rw [Function.update_of_ne here]
        exact tracked.complete other file found

theorem Tracked.step (tracked : Tracked session) {content : Content} {fuel : Nat} {event : Event}
    (stepped : stepEvent content fuel session event = some next) : Tracked next := by
  cases event with
  | sysOpen memory block path flags mode =>
    rw [stepEvent] at stepped
    split at stepped
    · cases stepped
    · next fresh =>
        obtain ⟨id, after, run, rfl⟩ := returning_eq_some_iff.mp stepped
        exact tracked.open (Option.not_isSome_iff_eq_none.mp fresh) run
  | sysRead memory fd buffer sz =>
    obtain ⟨result, after, run, rfl⟩ := returning_eq_some_iff.mp stepped
    have kept := (ends_vfsSysRead_kept content fuel buffer sz).returns run
    exact tracked.keep kept.openFiles kept.files (move_target_same _ _ _)
  | sysWrite memory audio fd buffer sz =>
    obtain ⟨result, after, run, rfl⟩ := returning_eq_some_iff.mp stepped
    have kept := (ends_vfsSysWrite_kept audio buffer sz).returns run
    exact tracked.keep kept.openFiles kept.files fun _ => rfl
  | sysSeek memory fd offset =>
    obtain ⟨result, after, run, rfl⟩ := returning_eq_some_iff.mp stepped
    have kept := (ends_vfsSysSeek_kept offset).returns run
    exact tracked.keep kept.openFiles kept.files (move_target_same _ _ _)
  | sysMmap memory tarMmap fd len =>
    obtain ⟨result, after, run, rfl⟩ := returning_eq_some_iff.mp stepped
    have kept := (ends_vfsSysMmap_kept tarMmap len).returns run
    exact tracked.keep kept.openFiles kept.files fun _ => rfl
  | sysClose fd =>
    obtain ⟨result, after, run, rfl⟩ := returning_eq_some_iff.mp stepped
    exact tracked.close run

end Steps

structure Booted (session : Session) : Prop where
  openFiles : ∀ i, session.vfs.openFiles i = none
  files : ∀ block, session.vfs.files block = none
  targets : ∀ fd, session.targets fd = none

section Plays

variable {content : Content} {fuel : Nat} {start session : Session}

theorem play_snoc (start : Session) (events : List Event) (event : Event) :
    play content fuel start (events ++ [event]) =
      (play content fuel start events).bind fun session => stepEvent content fuel session event := by
  unfold play
  rw [List.foldlM_append]
  cases List.foldlM (stepEvent content fuel) start events with
  | none => rfl
  | some session => exact bind_pure (stepEvent content fuel session event)

theorem play_of_step {events : List Event} {event : Event} {next : Session}
    (played : play content fuel start events = some session)
    (stepped : stepEvent content fuel session event = some next) :
    play content fuel start (events ++ [event]) = some next := by
  rw [play_snoc, played, Option.bind_some, stepped]

theorem Booted.tracked (booted : Booted start) : Tracked start := by
  have closed : ∀ fd, vfsGetFromFd start.vfs.openFiles fd = none := by
    intro fd
    unfold vfsGetFromFd
    split
    · rfl
    · exact booted.openFiles _
  refine ⟨⟨?_, ?_, ?_⟩, ?_, ?_⟩
  · intro i
    rw [closed, booted.openFiles]
  · intro fd block owner
    rw [closed] at owner
    cases owner
  · intro block present
    exact absurd (booted.files block) present
  · intro fd target found
    rw [booted.targets] at found
    cases found
  · intro fd file found
    rw [openFile, closed] at found
    cases found

/-- What holds at the start and is kept by every call of the session holds at its end. -/
theorem play_keeps {holds : Session → Prop} {events : List Event} (begins : holds start)
    (keeps : ∀ earlier event before next, earlier ++ [event] <+: events →
      play content fuel start earlier = some before →
        stepEvent content fuel before event = some next → holds before → holds next)
    (played : play content fuel start events = some session) : holds session := by
  induction events using List.reverseRecOn generalizing session with
  | nil =>
    cases played
    exact begins
  | append_singleton events event induction =>
    rw [play_snoc] at played
    obtain ⟨before, earlier, stepped⟩ := Option.bind_eq_some_iff.mp played
    refine keeps events event before session (List.prefix_refl _) earlier stepped (induction ?_ earlier)
    exact fun prior other middle next inside =>
      keeps prior other middle next (inside.trans (List.prefix_append ..))

theorem play_tracked (booted : Booted start) {events : List Event}
    (played : play content fuel start events = some session) : Tracked session :=
  play_keeps booted.tracked (fun _ _ _ _ _ _ stepped tracked => tracked.step stepped) played

end Plays

/-! ## Where a call goes -/

def Sends {Value : Type} (program : VfsM Value) (vfs : Vfs) (call : Call) : Prop :=
  Ends program (fun _ after => ∃ made, after.calls = made ++ vfs.calls ∧ ∀ other ∈ made, other = call)
    (fun _ after => ∃ made, after.calls = made ++ vfs.calls ∧ ∀ other ∈ made, other = call) vfs

/-- The memory spells this path where the record behind the descriptor points. -/
def Spells (memory : Memory) (vfs : Vfs) (fd : Int) (path : List UInt8) : Prop :=
  ∃ file, openFile vfs fd = some file ∧ locWoMnt memory file.fs file.loc = path

def Event.subject : Event → Option Int
  | .sysOpen .. => none
  | .sysRead _ fd _ _ => some fd
  | .sysWrite _ _ fd _ _ => some fd
  | .sysSeek _ fd _ => some fd
  | .sysMmap _ _ fd _ => some fd
  | .sysClose _ => none

/-- The call goes to the file or device that its descriptor was opened on. -/
def ReachesTarget (content : Content) (fuel : Nat) (session : Session) (target : Target) :
    Event → Prop
  | .sysOpen .. => True
  | .sysRead memory fd buffer sz =>
      Sends (vfsSysRead content fuel memory fd buffer sz) session.vfs
        (.backend target.mount .read target.path)
  | .sysWrite memory audio fd buffer sz =>
      Sends (vfsSysWrite memory audio fd buffer sz) session.vfs
        (.backend target.mount .write target.path)
  | .sysSeek memory fd offset =>
      Sends (vfsSysSeek memory fd offset) session.vfs (.backend target.mount .seek target.path)
  | .sysMmap memory tarMmap fd len =>
      Sends (vfsSysMmap memory tarMmap fd len) session.vfs
        (.backend target.mount .mmap target.path)
  | .sysClose _ => True

/-- The memory still spells the path where a backend is to be given it; the archive has no
mapping function, and its pointer is null. -/
def Undisturbed (session : Session) (target : Target) : Event → Prop
  | .sysOpen .. => True
  | .sysRead memory fd _ _ => Spells memory session.vfs fd target.path
  | .sysWrite memory _ fd _ _ => target.mount = .dev → Spells memory session.vfs fd target.path
  | .sysSeek memory fd _ => target.mount = .init → Spells memory session.vfs fd target.path
  | .sysMmap memory tarMmap fd _ =>
      (target.mount = .dev → Spells memory session.vfs fd target.path) ∧
        (target.mount = .init → tarMmap = 0)
  | .sysClose _ => True

section Sending

variable {memory : Memory} {vfs : Vfs} {fd : Int} {target : Target}

theorem sends_iff {Value : Type} {program : VfsM Value} {made : List Call} {call : Call}
    (kept : Ends program (fun _ after => Kept vfs made after) (fun _ after => Kept vfs made after)
      vfs) : Sends program vfs call ↔ ∀ other ∈ made, other = call := by
  have exact : ∀ after, Kept vfs made after →
      ((∃ list, after.calls = list ++ vfs.calls ∧ ∀ other ∈ list, other = call) ↔
        ∀ other ∈ made, other = call) := by
    intro after kept
    constructor
    · rintro ⟨list, calls, only⟩
      rw [kept.calls] at calls
      rwa [List.append_cancel_right calls]
    · intro only
      exact ⟨made, kept.calls, only⟩
  unfold Sends
  constructor
  · intro sends
    have both := ends_and kept sends
    cases run : program vfs with
    | ok value after =>
      have facts := both.returns run
      exact (exact after facts.1).mp facts.2
    | error stop after =>
      have facts := both.stops run
      exact (exact after facts.1).mp facts.2
  · intro only
    exact ends_mono kept (fun _ after held => (exact after held).mpr only)
      fun _ after held => (exact after held).mpr only

theorem dispatched_of_bound {file : VfsFile} (found : openFile vfs fd = some file)
    (mount : file.fs = target.mount) (named : file.loc ≠ 0) (tarMmap : Nat)
    (operation : Operation) : dispatched memory vfs tarMmap fd operation =
      reached tarMmap (locWoMnt memory file.fs file.loc) operation target.mount := by
  rw [dispatched, found]
  exact (if_neg named).trans (by rw [mount])

theorem spells_iff {file : VfsFile} (found : openFile vfs fd = some file) {path : List UInt8} :
    Spells memory vfs fd path ↔ locWoMnt memory file.fs file.loc = path := by
  unfold Spells
  rw [found]
  constructor
  · rintro ⟨other, same, spelled⟩
    rwa [Option.some.inj same]
  · intro spelled
    exact ⟨file, rfl, spelled⟩

theorem backend_call_iff {mount : Mount} {operation : Operation} {path spelled : List UInt8} :
    (∀ other ∈ [Call.backend mount operation spelled], other = .backend mount operation path) ↔
      spelled = path := by
  rw [List.forall_mem_singleton, Call.backend.injEq]
  exact ⟨fun same => same.2.2, fun same => ⟨rfl, rfl, same⟩⟩

end Sending

/-- In every session, whatever the memory was at each call, a call on an open descriptor goes
to what was opened exactly when the path is still spelled there. -/
theorem reaches_target_iff (content : Content) (fuel : Nat) (start : Session)
    (booted : Booted start) (events : List Event) (session : Session)
    (played : play content fuel start events = some session) (event : Event) (fd : Int)
    (about : event.subject = some fd) (target : Target) (opened : session.targets fd = some target) :
    ReachesTarget content fuel session target event ↔ Undisturbed session target event := by
  obtain ⟨file, found, mount, named, -⟩ := (play_tracked booted played).bound fd target opened
  obtain ⟨mountPoint, path, pos⟩ := target
  cases event with
  | sysOpen => cases about
  | sysClose => cases about
  | sysRead memory other buffer sz =>
    obtain rfl := Option.some.inj about
    rw [ReachesTarget, Undisturbed, sends_iff (ends_vfsSysRead_kept content fuel buffer sz),
      dispatched_of_bound found mount named, spells_iff found]
    cases mountPoint <;> exact backend_call_iff
  | sysWrite memory audio other buffer sz =>
    obtain rfl := Option.some.inj about
    rw [ReachesTarget, Undisturbed, sends_iff (ends_vfsSysWrite_kept audio buffer sz),
      dispatched_of_bound found mount named, spells_iff found]
    cases mountPoint with
    | dev => exact backend_call_iff.trans ⟨fun same _ => same, fun same => same rfl⟩
    | init => exact ⟨fun _ device => (nomatch device), fun _ _ member => (nomatch member)⟩
  | sysSeek memory other offset =>
    obtain rfl := Option.some.inj about
    rw [ReachesTarget, Undisturbed, sends_iff (ends_vfsSysSeek_kept offset),
      dispatched_of_bound found mount named, spells_iff found]
    cases mountPoint with
    | dev => exact ⟨fun _ archive => (nomatch archive), fun _ _ member => (nomatch member)⟩
    | init => exact backend_call_iff.trans ⟨fun same _ => same, fun same => same rfl⟩
  | sysMmap memory tarMmap other len =>
    obtain rfl := Option.some.inj about
    rw [ReachesTarget, Undisturbed, sends_iff (ends_vfsSysMmap_kept tarMmap len),
      dispatched_of_bound found mount named, spells_iff found]
    cases mountPoint with
    | dev =>
      exact backend_call_iff.trans
        ⟨fun same => ⟨fun _ => same, fun archive => (nomatch archive)⟩, fun same => same.1 rfl⟩
    | init =>
      rw [reached]
      by_cases unset : tarMmap = 0
      · rw [if_pos unset]
        exact ⟨fun _ => ⟨fun device => (nomatch device), fun _ => unset⟩,
          fun _ _ member => (nomatch member)⟩
      · rw [if_neg unset, List.forall_mem_singleton]
        exact ⟨fun wild => (nomatch wild), fun null => absurd (null.2 rfl) unset⟩

def bootSession : Session := ⟨installedVfs, fun _ => none⟩

theorem boot_session_booted : Booted bootSession := ⟨fun _ => rfl, fun _ => rfl, fun _ => rfl⟩

def zeroTarget : Target := ⟨.dev, ascii ['/', 'z', 'e', 'r', 'o'], 0⟩

theorem zero_path_loc : locWoMnt zeroPath .dev 4096 = zeroTarget.path := by
  decide +kernel

theorem open_zero_plays (content : Content) (fuel : Nat) :
    ∃ session, play content fuel bootSession [.sysOpen zeroPath 1 4096 0 0] = some session ∧
      session.targets 10 = some zeroTarget ∧
      openFile session.vfs 10 = some ⟨10, 4096, 0, 0, .dev⟩ := by
  have least : IsLeast { i | Slot i ∧ bootSession.vfs.openFiles i = none } 10 :=
    ⟨⟨⟨by decide, by decide⟩, rfl⟩, fun _ free => free.1.1⟩
  obtain ⟨after, stepped, opened⟩ :=
    step_open content fuel 1 (zero_path_exists bootSession.vfs) rfl least
  refine ⟨_, (play_snoc bootSession [] _).trans stepped, ?_, ?_⟩
  · rw [zero_path_loc]
    rfl
  · exact open_file_open boot_session_booted.tracked.table least.1.1 rfl rfl opened 10

theorem zero_read_reaches_target :
    ∃ session, play (fun _ => 0) 1 bootSession [.sysOpen zeroPath 1 4096 0 0] = some session ∧
      ReachesTarget (fun _ => 0) 1 session zeroTarget (.sysRead zeroPath 10 8192 16) := by
  obtain ⟨session, played, opened, found⟩ := open_zero_plays (fun _ => 0) 1
  refine ⟨session, played, ?_⟩
  apply (reaches_target_iff _ 1 bootSession boot_session_booted _ session played
    (.sysRead zeroPath 10 8192 16) 10 rfl zeroTarget opened).mpr
  exact (spells_iff found).mpr zero_path_loc

/-- The memory of a process that has reused its path buffer. -/
def keyboardPath : Memory := fun address =>
  (ascii ['/', 'd', 'e', 'v', '/', 'k', 'e', 'y', 'b', 'o', 'a', 'r', 'd']).getD (address - 4096) 0

theorem keyboard_path_loc :
    locWoMnt keyboardPath .dev 4096 = ascii ['/', 'k', 'e', 'y', 'b', 'o', 'a', 'r', 'd'] := by
  decide +kernel

/-- A descriptor opened on the zero device reads the keyboard once the buffer that held its
path holds another. -/
theorem overwritten_path_redirects :
    ∃ session, play (fun _ => 0) 1 bootSession [.sysOpen zeroPath 1 4096 0 0] = some session ∧
      session.targets 10 = some zeroTarget ∧
      Sends (vfsSysRead (fun _ => 0) 1 keyboardPath 10 8192 16) session.vfs
        (.backend .dev .read (ascii ['/', 'k', 'e', 'y', 'b', 'o', 'a', 'r', 'd'])) ∧
      ¬ReachesTarget (fun _ => 0) 1 session zeroTarget (.sysRead keyboardPath 10 8192 16) := by
  obtain ⟨session, played, opened, found⟩ := open_zero_plays (fun _ => 0) 1
  have calls : dispatched keyboardPath session.vfs 0 10 .read =
      [.backend .dev .read (ascii ['/', 'k', 'e', 'y', 'b', 'o', 'a', 'r', 'd'])] := by
    rw [dispatched, found, ← keyboard_path_loc]
    rfl
  refine ⟨session, played, opened, ?_, ?_⟩
  · apply (sends_iff (ends_vfsSysRead_kept (fun _ => 0) 1 8192 16)).mpr
    rw [calls]
    exact backend_call_iff.mpr rfl
  · intro reaches
    have only := (sends_iff (ends_vfsSysRead_kept (fun _ => 0) 1 8192 16)).mp reaches
    rw [calls] at only
    exact absurd (backend_call_iff.mp only) (by decide)

end RiriaKernel.FileSessions
