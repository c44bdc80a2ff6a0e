import Mathlib.Data.Finset.Basic
import Mathlib.Order.Bounds.Basic
import RiriaKernel.TarReads
import RiriaKernel.VirtualFiles

/-!
# The table of open files

`vfs_sys_open` and `vfs_sys_close` over whole runs. A run carries the set of records that
were opened and not closed. `_vfs_get_fd` returns -1 when all descriptors are taken, and
`vfs_open` then indexes the table with it.
-/

namespace RiriaKernel.FileDescriptors

open ByteMemory HaltingPrograms TarFiles TarReads VirtualFiles
open UserProcesses (vfsMaxFileDescriptors)

def Known (vfs : Vfs) (path : List UInt8) : Mount → Prop
  | .dev => devfsExists path = true
  | .init => ∃ file, fileAt path vfs.tarfs.files = some file

def PathExists (memory : Memory) (vfs : Vfs) (path : Nat) (mount : Mount) : Prop :=
  path ≠ 0 ∧ vfsFindMnt memory path = some mount ∧ Known vfs (locWoMnt memory mount path) mount

def Slot (i : Nat) : Prop := vfsFdOffset ≤ i ∧ i < vfsMaxFileDescriptors

/-! ## One call -/

theorem first_free_spec (openFiles : Nat → Option Nat) (count start : Nat) :
    match firstFree openFiles count start with
    | some i => IsLeast { i | start ≤ i ∧ i < start + count ∧ openFiles i = none } i
    | none => ∀ i, start ≤ i → i < start + count → openFiles i ≠ none := by
  induction count generalizing start with
  | zero =>
    intro i lower upper
    omega
  | succ count induction =>
    rw [firstFree]
    cases slot : openFiles start with
    | none => exact ⟨⟨Nat.le_refl _, by omega, slot⟩, fun i free => free.1⟩
    | some block =>
      have taken : ∀ i, openFiles i = none → i ≠ start := by
        intro i free same
        rw [same, slot] at free
        cases free
      have later := induction (start + 1)
      cases found : firstFree openFiles count (start + 1) with
      | some i =>
        rw [found] at later
        refine ⟨⟨?_, ?_, later.1.2.2⟩, ?_⟩
        · have := later.1.1
          omega
        · have := later.1.2.1
          omega
        · intro other free
          have different := taken other free.2.2
          have lower := free.1
          have upper := free.2.1
          exact later.2 ⟨by omega, by omega, free.2.2⟩
      | none =>
        rw [found] at later
        intro i lower upper free
        have different := taken i free
        exact later i (by omega) (by omega) free

section Calls

variable {memory : Memory} {vfs : Vfs} {block path : Nat} {mount : Mount}

theorem mount_exists_of_known {name : List UInt8} (known : Known vfs name mount) :
    mountExists mount name vfs =
      .ok true { vfs with calls := .backend mount .exists name :: vfs.calls } := by
  cases mount with
  | dev =>
    have found : devfsExists name = true := known
    simp only [mountExists, record, bind, EStateM.bind, modify, modifyGet, MonadStateOf.modifyGet,
      EStateM.modifyGet, found]
    rfl
  | init =>
    obtain ⟨file, found⟩ := known
    have total : Ends (tarfsExists name) (fun result after => result = true ∧ after = vfs.tarfs)
        (fun _ _ => False) vfs.tarfs := by
      simp only [tarfsExists, ends_bind]
      apply ends_mono (ends_tarfsFindFile name vfs.tarfs)
      · intro index after search
        rw [ends_pure]
        exact ⟨rfl, search.1⟩
      · intro stop after search
        rw [found] at search
        cases search.1
    obtain ⟨result, after, returned, rfl, rfl⟩ := total.exists_ok
    simp only [mountExists, record, bind, EStateM.bind, modify, modifyGet, MonadStateOf.modifyGet,
      EStateM.modifyGet, runTar, returned]

structure Opened (vfs : Vfs) (block path : Nat) (flags mode : Int) (mount : Mount) (fd : Nat)
    (after : Vfs) : Prop where
  openFiles : after.openFiles = Function.update vfs.openFiles fd (some block)
  files : after.files = Function.update vfs.files block (some ⟨fd, path, flags, mode, mount⟩)
  tarfs : after.tarfs = vfs.tarfs

theorem ends_vfsSysOpen (flags mode : Int) (known : PathExists memory vfs path mount) :
    Ends (vfsSysOpen memory block path flags mode)
      (fun id after => ∃ fd, IsLeast { i | Slot i ∧ vfs.openFiles i = none } fd ∧
        id = (fd : Int) ∧ Opened vfs block path flags mode mount fd after)
      (fun stop _ => stop = .panic "out of bounds detected" ∧
        ∀ i, Slot i → vfs.openFiles i ≠ none) vfs := by
  obtain ⟨nonnull, mounted, named⟩ := known
  have range : vfsFdOffset + (vfsMaxFileDescriptors - vfsFdOffset) = vfsMaxFileDescriptors := rfl
  have scan := first_free_spec vfs.openFiles (vfsMaxFileDescriptors - vfsFdOffset) vfsFdOffset
  let allocated : Vfs := { vfs with files := Function.update vfs.files block (some freshFile) }
  have known : Known allocated (locWoMnt memory mount path) mount := by
    cases mount <;> exact named
  rw [range] at scan
  simp only [vfsSysOpen, vfsOpen, if_neg nonnull, mounted, ends_bind, ends_modify]
  change Ends (mountExists mount (locWoMnt memory mount path)) _ _ allocated
  rw [ends_of_ok (mount_exists_of_known known), if_neg (by decide), ends_bind, vfsGetFd, ends_bind,
    ends_get]
  cases found : firstFree vfs.openFiles (vfsMaxFileDescriptors - vfsFdOffset) vfsFdOffset with
  | some fd =>
    rw [found] at scan
    obtain ⟨⟨lower, upper, free⟩, least⟩ := scan
    have bounds : (0 : Int) ≤ (fd : Int) ∧ (fd : Int) < vfsMaxFileDescriptors := by omega
    dsimp only
    rw [ends_bind, ends_set, ends_pure, ends_bind, ends_modify, ends_bind, storeOpenFile,
      if_pos bounds, ends_modify, ends_pure]
    dsimp only
    rw [ends_bind, ends_get, ends_pure]
    refine ⟨fd, ⟨⟨⟨lower, upper⟩, free⟩, fun i slot => least ⟨slot.1.1, slot.1.2, slot.2⟩⟩, ?_, ?_⟩
    · simp only [Function.update_self, Option.map_some, Option.getD_some]
    · constructor
      · simp only [Int.toNat_natCast, Function.update_idem, allocated]
      · simp only [Function.update_idem, allocated]
      · rfl
  | none =>
    rw [found] at scan
    have outside : ¬((0 : Int) ≤ -1 ∧ (-1 : Int) < vfsMaxFileDescriptors) := by omega
    dsimp only
    rw [ends_pure, ends_bind, ends_modify, ends_bind, storeOpenFile, if_neg outside, ends_throw]
    exact ⟨rfl, fun i slot => scan i slot.1 slot.2⟩

structure Closed (vfs : Vfs) (block fd : Nat) (after : Vfs) : Prop where
  openFiles : after.openFiles = Function.update vfs.openFiles fd none
  files : after.files = Function.update vfs.files block none
  tarfs : after.tarfs = vfs.tarfs

theorem vfs_sys_close_of_closed {fd : Int} (closed : vfsGetFromFd vfs.openFiles fd = none) :
    vfsSysClose fd vfs = .ok (-1) vfs := by
  simp only [vfsSysClose, bind, EStateM.bind, get, getThe, MonadStateOf.get, EStateM.get, closed]
  rfl

theorem ends_vfsSysClose {fd : Nat} {file : VfsFile} (bound : fd < vfsMaxFileDescriptors)
    (slot : vfs.openFiles fd = some block) (allocated : vfs.files block = some file)
    (id : file.id = fd) :
    Ends (vfsSysClose fd) (fun result after => result = 0 ∧ Closed vfs block fd after)
      (fun _ _ => False) vfs := by
  have inside : (0 : Int) ≤ (fd : Int) ∧ (fd : Int) < vfsMaxFileDescriptors := by omega
  have found : vfsGetFromFd vfs.openFiles fd = some block := by
    rw [vfsGetFromFd, if_neg (by omega), Int.toNat_natCast, slot]
  have present : ¬((fd : Int) < 0 ∨ (fd : Int) ≥ vfsMaxFileDescriptors ∨
      vfs.openFiles (fd : Int).toNat = none) := by
    rw [Int.toNat_natCast, slot]
    intro missing
    rcases missing with below | above | none
    · omega
    · omega
    · cases none
  simp only [vfsSysClose, vfsClose, ends_bind, ends_get, found, allocated, Option.map_some,
    Option.getD_some, id, if_neg present, storeOpenFile, if_pos inside, ends_modify, ends_pure]
  exact ⟨trivial, rfl, rfl, rfl⟩

end Calls

/-! ## Runs -/

/-- What a run of opens and closes knows: under which descriptor each record was opened that
was not closed. Calls that touch neither the table nor the records may come in between. -/
inductive FdRun : Vfs → (Int → Option Nat) → Prop
  | installed {vfs : Vfs} (closed : ∀ i, vfs.openFiles i = none)
      (unallocated : ∀ block, vfs.files block = none) : FdRun vfs fun _ => none
  | opened {memory : Memory} {vfs after : Vfs} {held : Int → Option Nat} {block path : Nat}
      {flags mode id : Int} {mount : Mount} (prior : FdRun vfs held)
      (known : PathExists memory vfs path mount) (fresh : vfs.files block = none)
      (run : vfsSysOpen memory block path flags mode vfs = .ok id after) :
      FdRun after (if 0 ≤ id then Function.update held id (some block) else held)
  | closed {vfs after : Vfs} {held : Int → Option Nat} {fd result : Int} (prior : FdRun vfs held)
      (run : vfsSysClose fd vfs = .ok result after) :
      FdRun after (if result = 0 then Function.update held fd none else held)
  | elsewhere {vfs after : Vfs} {held : Int → Option Nat} (prior : FdRun vfs held)
      (openFiles : after.openFiles = vfs.openFiles) (files : after.files = vfs.files) :
      FdRun after held

/-- Every record that is open sits in the slot of its descriptor and in no other, and knows
it; the other slots are empty, and no other record is allocated. -/
structure TableSound (vfs : Vfs) (held : Int → Option Nat) : Prop where
  placed : ∀ fd block, held fd = some block → ∃ i : Nat, fd = i ∧ Slot i ∧
    (∀ j, vfs.openFiles j = some block ↔ j = i) ∧
    ∃ file, vfs.files block = some file ∧ file.id = i
  empty : ∀ i : Nat, held i = none → vfs.openFiles i = none
  allocated : ∀ block, vfs.files block ≠ none → ∃ fd, held fd = some block

/-- The part of it that a step preserves; that no record sits in two slots follows, since a
record has one id. -/
structure TableMatches (vfs : Vfs) (held : Int → Option Nat) : Prop where
  slots : ∀ i : Nat, vfs.openFiles i = held i
  placed : ∀ fd block, held fd = some block → ∃ i : Nat, fd = i ∧ Slot i ∧
    ∃ file, vfs.files block = some file ∧ file.id = i
  allocated : ∀ block, vfs.files block ≠ none → ∃ fd, held fd = some block

section Matching

variable {vfs after : Vfs} {held : Int → Option Nat}

section

variable (table : TableMatches vfs held)

include table

theorem TableMatches.fd_eq {block : Nat} {file : VfsFile} {fd : Int}
    (stored : vfs.files block = some file) (owner : held fd = some block) : fd = file.id := by
  obtain ⟨i, same, -, other, found, id⟩ := table.placed fd block owner
  rw [stored, Option.some_inj] at found
  rw [same, found, id]

theorem TableMatches.sound : TableSound vfs held := by
  refine ⟨?_, fun i vacant => (table.slots i).trans vacant, table.allocated⟩
  intro fd block owner
  obtain ⟨i, same, slot, file, stored, id⟩ := table.placed fd block owner
  refine ⟨i, same, slot, fun j => ?_, file, stored, id⟩
  rw [table.slots j]
  constructor
  · intro taken
    have here := table.fd_eq stored taken
    omega
  · intro here
    rw [here, ← same, owner]

theorem TableMatches.get_from_fd (fd : Int) : vfsGetFromFd vfs.openFiles fd = held fd := by
  unfold vfsGetFromFd
  split
  next outside =>
    cases owner : held fd with
    | none => rfl
    | some block =>
      obtain ⟨i, same, slot, -⟩ := table.placed fd block owner
      have upper := slot.2
      omega
  next inside => rw [table.slots, Int.toNat_of_nonneg (by omega)]

theorem TableMatches.open {block path fd : Nat} {flags mode : Int} {mount : Mount} (slot : Slot fd)
    (free : vfs.openFiles fd = none) (fresh : vfs.files block = none)
    (opened : Opened vfs block path flags mode mount fd after) :
    TableMatches after (Function.update held fd (some block)) := by
  constructor
  · intro i
    rw [opened.openFiles]
    by_cases here : i = fd
    · rw [here, Function.update_self, Function.update_self]
    · rw [Function.update_of_ne here, Function.update_of_ne (by omega), table.slots]
  · intro other owned owner
    rw [opened.files]
    by_cases here : other = fd
    · rw [here, Function.update_self, Option.some_inj] at owner
      rw [← owner]
      exact ⟨fd, here, slot, _, Function.update_self .., rfl⟩
    · rw [Function.update_of_ne here] at owner
      obtain ⟨i, same, inside, file, stored, id⟩ := table.placed other owned owner
      have different : owned ≠ block := by
        intro equal
        rw [equal, fresh] at stored
        cases stored
      exact ⟨i, same, inside, file, by rwa [Function.update_of_ne different], id⟩
  · intro other present
    rw [opened.files] at present
    by_cases same : other = block
    · exact ⟨fd, by rw [Function.update_self, same]⟩
    · rw [Function.update_of_ne same] at present
      obtain ⟨owner, owned⟩ := table.allocated other present
      have elsewhere : owner ≠ fd := by
        intro equal
        rw [equal, ← table.slots, free] at owned
        cases owned
      exact ⟨owner, by rwa [Function.update_of_ne elsewhere]⟩

theorem TableMatches.close {block fd : Nat} {file : VfsFile} (stored : vfs.files block = some file)
    (owner : held fd = some block) (closed : Closed vfs block fd after) :
    TableMatches after (Function.update held fd none) := by
  constructor
  · intro i
    rw [closed.openFiles]
    by_cases here : i = fd
    · rw [here, Function.update_self, Function.update_self]
    · rw [Function.update_of_ne here, Function.update_of_ne (by omega), table.slots]
  · intro other owned taken
    rw [closed.files]
    by_cases here : other = fd
    · rw [here, Function.update_self] at taken
      cases taken
    · rw [Function.update_of_ne here] at taken
      have different : owned ≠ block := by
        intro equal
        rw [equal] at taken
        exact here ((table.fd_eq stored taken).trans (table.fd_eq stored owner).symm)
      rw [Function.update_of_ne different]
      exact table.placed other owned taken
  · intro other present
    rw [closed.files] at present
    by_cases same : other = block
    · rw [same, Function.update_self] at present
      exact absurd rfl present
    · rw [Function.update_of_ne same] at present
      obtain ⟨holder, owned⟩ := table.allocated other present
      have elsewhere : holder ≠ fd := by
        intro equal
        rw [equal, owner, Option.some_inj] at owned
        exact same owned.symm
      exact ⟨holder, by rwa [Function.update_of_ne elsewhere]⟩

end

/-- What a close is to do: give up an open descriptor, and refuse any other. -/
def CloseBehaves (vfs : Vfs) (held : Int → Option Nat) (fd : Int) : Prop :=
  match held fd with
  | none => vfsSysClose fd vfs = .ok (-1) vfs
  | some block => ∃ after, vfsSysClose fd vfs = .ok 0 after ∧ Closed vfs block fd.toNat after

theorem TableMatches.close_behaves (table : TableMatches vfs held) (fd : Int) :
    CloseBehaves vfs held fd := by
  unfold CloseBehaves
  cases owner : held fd with
  | none => exact vfs_sys_close_of_closed ((table.get_from_fd fd).trans owner)
  | some block =>
    obtain ⟨i, rfl, slot, file, stored, id⟩ := table.placed fd block owner
    have ends := ends_vfsSysClose slot.2 ((table.slots i).trans owner) stored id
    obtain ⟨result, after, run, rfl, closed⟩ := ends.exists_ok
    exact ⟨after, run, by rwa [Int.toNat_natCast]⟩

theorem fd_run_matches (run : FdRun vfs held) : TableMatches vfs held := by
  induction run with
  | installed closed unallocated =>
    exact ⟨fun i => closed i, fun _ _ owner => (nomatch owner),
      fun block present => absurd (unallocated block) present⟩
  | opened prior known fresh run table =>
    obtain ⟨fd, ⟨⟨slot, free⟩, -⟩, rfl, opened⟩ :=
      (ends_vfsSysOpen _ _ known).returns run
    rw [if_pos (by omega)]
    exact table.open slot free fresh opened
  | @closed vfs after held fd result prior run table =>
    have behaves := table.close_behaves fd
    unfold CloseBehaves at behaves
    cases owner : held fd with
    | none =>
      rw [owner] at behaves
      rw [behaves] at run
      cases run
      exact table
    | some block =>
      rw [owner] at behaves
      obtain ⟨expected, ran, closed⟩ := behaves
      rw [ran] at run
      cases run
      obtain ⟨i, rfl, slot, file, stored, id⟩ := table.placed fd block owner
      rw [Int.toNat_natCast] at closed
      exact table.close stored owner closed
  | elsewhere prior openFiles files table =>
    constructor
    · rw [openFiles]
      exact table.slots
    · rw [files]
      exact table.placed
    · rw [files]
      exact table.allocated

end Matching

/-- What an open of an existing path is to do: return the least free descriptor, or -1 and
leave the table and the records alone when there is none. -/
def OpenBehaves (memory : Memory) (vfs : Vfs) (block path : Nat) (flags mode : Int)
    (mount : Mount) : Prop :=
  ∃ id after, vfsSysOpen memory block path flags mode vfs = .ok id after ∧
    ((∃ fd, IsLeast { i | Slot i ∧ vfs.openFiles i = none } fd ∧ id = (fd : Int) ∧
        Opened vfs block path flags mode mount fd after) ∨
      ((∀ i, Slot i → vfs.openFiles i ≠ none) ∧ id = -1 ∧
        after.openFiles = vfs.openFiles ∧ after.files = vfs.files))

theorem open_behaves_iff {memory : Memory} {vfs : Vfs} {path : Nat} {mount : Mount} (block : Nat)
    (flags mode : Int) (known : PathExists memory vfs path mount) :
    OpenBehaves memory vfs block path flags mode mount ↔
      ∃ i, Slot i ∧ vfs.openFiles i = none := by
  have ends : Ends (vfsSysOpen memory block path flags mode) _ _ vfs :=
    ends_vfsSysOpen flags mode known
  constructor
  · intro behaves
    obtain ⟨id, after, run, -⟩ := behaves
    obtain ⟨fd, least, -⟩ := ends.returns run
    exact ⟨fd, least.1⟩
  · intro vacant
    obtain ⟨i, slot, free⟩ := vacant
    cases run : vfsSysOpen memory block path flags mode vfs with
    | ok id after => exact ⟨id, after, run, .inl (ends.returns run)⟩
    | error stop after => exact absurd free ((ends.stops run).2 i slot)

/-- In every state that opens and closes reach, the table is sound, every close does what it
should, and an open of an existing path does exactly when a descriptor is free. -/
theorem descriptor_table_kept_iff (vfs : Vfs) (held : Int → Option Nat) (run : FdRun vfs held) :
    TableSound vfs held ∧ (∀ fd, CloseBehaves vfs held fd) ∧
      ∀ memory block path flags mode mount, PathExists memory vfs path mount →
        vfs.files block = none →
        (OpenBehaves memory vfs block path flags mode mount ↔
          ∃ i, Slot i ∧ vfs.openFiles i = none) := by
  have table := fd_run_matches run
  refine ⟨table.sound, table.close_behaves, ?_⟩
  intro memory block path flags mode mount known _
  exact open_behaves_iff block flags mode known

def installedVfs : Vfs where
  openFiles := fun _ => none
  files := fun _ => none
  tarfs := ⟨[], []⟩
  keyboard := ⟨fun _ => 0, 0, false⟩
  fbInfo := ⟨0, 0, 0⟩
  hhdm := 0
  calls := []

theorem fd_run_installed : FdRun installedVfs fun _ => none :=
  FdRun.installed (fun _ => rfl) fun _ => rfl

def zeroPath : Memory := fun address =>
  (ascii ['/', 'd', 'e', 'v', '/', 'z', 'e', 'r', 'o']).getD (address - 4096) 0

theorem zero_path_exists (vfs : Vfs) : PathExists zeroPath vfs 4096 .dev := by
  refine ⟨by decide, by decide, ?_⟩
  show devfsExists (locWoMnt zeroPath .dev 4096) = true
  decide +kernel

/-- Opening a device over and over takes the descriptors one after the other. -/
theorem fd_run_fills (count : Nat) (room : count ≤ vfsMaxFileDescriptors - vfsFdOffset) :
    ∃ vfs held, FdRun vfs held ∧
      (∀ i, Slot i → (vfs.openFiles i = none ↔ vfsFdOffset + count ≤ i)) ∧
      ∀ block, count < block → vfs.files block = none := by
  induction count with
  | zero =>
    exact ⟨_, _, fd_run_installed, fun i slot => ⟨fun _ => slot.1, fun _ => rfl⟩, fun _ _ => rfl⟩
  | succ count induction =>
    obtain ⟨vfs, held, run, taken, fresh⟩ := induction (by omega)
    have known := zero_path_exists vfs
    have slot : Slot (vfsFdOffset + count) := ⟨by omega, by omega⟩
    have vacant := (taken _ slot).mpr (Nat.le_refl _)
    have unused := fresh (count + 1) (Nat.lt_succ_self count)
    have behaves := (open_behaves_iff (count + 1) 0 0 known).mpr ⟨_, slot, vacant⟩
    obtain ⟨id, after, opens, -⟩ := behaves
    obtain ⟨fd, least, -, opened⟩ := (ends_vfsSysOpen 0 0 known).returns opens
    have below := least.2 ⟨slot, vacant⟩
    have above := (taken fd least.1.1).mp least.1.2
    obtain rfl : fd = vfsFdOffset + count := by omega
    refine ⟨after, _, run.opened known unused opens, ?_, ?_⟩
    · intro i inside
      rw [opened.openFiles]
      by_cases here : i = vfsFdOffset + count
      · rw [here, Function.update_self]
        exact ⟨fun none => (nomatch none), fun _ => by omega⟩
      · rw [Function.update_of_ne here, taken i inside]
        omega
    · intro block beyond
      rw [opened.files, Function.update_of_ne (by omega)]
      exact fresh block (by omega)

/-- Of three descriptors the middle one is closed; the next open gets it again. -/
theorem closed_descriptor_reused :
    ∃ vfs held after, FdRun vfs held ∧ vfs.openFiles 10 ≠ none ∧ vfs.openFiles 12 ≠ none ∧
      TableSound vfs held ∧ vfsSysClose 11 vfs = .ok (-1) vfs ∧
      vfsSysOpen zeroPath 4 4096 0 0 vfs = .ok 11 after := by
  obtain ⟨full, held, run, taken, fresh⟩ := fd_run_fills 3 (by decide)
  have inside : ∀ i, 10 ≤ i ∧ i < 256 → Slot i := fun _ => id
  obtain ⟨block, owner⟩ : ∃ block, held 11 = some block := by
    have present := (taken 11 (inside _ (by decide))).not.mpr (by decide)
    rw [(fd_run_matches run).slots 11] at present
    exact Option.ne_none_iff_exists'.mp present
  have closes := (descriptor_table_kept_iff _ _ run).2.1 11
  rw [CloseBehaves, owner] at closes
  obtain ⟨vfs, closing, closed⟩ := closes
  have kept : ∀ i, i ≠ 11 → vfs.openFiles i = full.openFiles i := by
    intro i other
    rw [closed.openFiles]
    exact Function.update_of_ne other _ _
  have vacant : vfs.openFiles 11 = none := by
    rw [closed.openFiles]
    exact Function.update_self _ _ _
  have present : ∀ i, i = 10 ∨ i = 12 → vfs.openFiles i ≠ none := by
    rintro i (rfl | rfl)
    · exact kept 10 (by decide) ▸ (taken 10 (inside _ (by decide))).not.mpr (by decide)
    · exact kept 12 (by decide) ▸ (taken 12 (inside _ (by decide))).not.mpr (by decide)
  have again := run.closed closing
  rw [if_pos rfl] at again
  obtain ⟨sound, refuses, opens⟩ := descriptor_table_kept_iff _ _ again
  have unused : vfs.files 4 = none := by
    rw [closed.files, Function.update_apply, fresh 4 (by decide), ite_self]
  obtain ⟨id, after, opening, ⟨fd, least, rfl, -⟩ | ⟨none, -⟩⟩ :=
    (opens zeroPath 4 4096 0 0 _ (zero_path_exists vfs) unused).mpr ⟨11, inside 11 (by decide), vacant⟩
  · have below : fd ≤ 11 := least.2 ⟨inside 11 (by decide), vacant⟩
    obtain rfl : fd = 11 := by
      by_contra other
      obtain rfl : fd = 10 := by
        have slot := least.1.1.1
        change 10 ≤ fd at slot
        omega
      exact present 10 (Or.inl rfl) least.1.2
    have refused := refuses 11
    rw [CloseBehaves, Function.update_self] at refused
    exact ⟨vfs, _, after, again, present 10 (Or.inl rfl), present 12 (Or.inr rfl), sound, refused,
      opening⟩
  · exact absurd vacant (none 11 (inside 11 (by decide)))

/-- With all descriptors taken, one more open indexes the table with -1. -/
theorem full_table_open_panics :
    ∃ vfs held, FdRun vfs held ∧ PathExists zeroPath vfs 4096 .dev ∧ vfs.files 247 = none ∧
      ∃ after, vfsSysOpen zeroPath 247 4096 0 0 vfs =
        .error (.panic "out of bounds detected") after := by
  obtain ⟨vfs, held, run, taken, fresh⟩ := fd_run_fills 246 (by decide)
  have known := zero_path_exists vfs
  refine ⟨vfs, held, run, known, fresh 247 (by decide), ?_⟩
  have ends : Ends (vfsSysOpen zeroPath 247 4096 0 0) _ _ vfs := ends_vfsSysOpen 0 0 known
  cases ran : vfsSysOpen zeroPath 247 4096 0 0 vfs with
  | ok id after =>
    obtain ⟨fd, least, -⟩ := ends.returns ran
    have beyond := (taken fd least.1.1).mp least.1.2
    have inside := least.1.1.2
    exact absurd (Nat.lt_of_le_of_lt beyond inside) (by decide)
  | error stop after =>
    rw [(ends.stops ran).1]
    exact ⟨after, rfl⟩

/-! ## Paths that name nothing -/

/-- An open that returns -1 and leaves the table, the records and the archive's files alone. -/
def FailsCleanly (memory : Memory) (vfs : Vfs) (block path : Nat) (flags mode : Int) : Prop :=
  ∃ after, vfsSysOpen memory block path flags mode vfs = .ok (-1) after ∧
    after.openFiles = vfs.openFiles ∧ after.files = vfs.files ∧ after.tarfs = vfs.tarfs

/-- Neither null nor outside the archive's mount point. -/
def UnderInit (memory : Memory) (path : Nat) : Prop :=
  path ≠ 0 ∧ vfsFindMnt memory path = some .init

theorem ends_vfsSysOpen_missing {memory : Memory} {vfs : Vfs} {block path : Nat} (flags mode : Int)
    (missing : ∀ mount, ¬PathExists memory vfs path mount) (fresh : vfs.files block = none) :
    Ends (vfsSysOpen memory block path flags mode)
      (fun id after => id = -1 ∧ ¬UnderInit memory path ∧ after.openFiles = vfs.openFiles ∧
        after.files = vfs.files ∧ after.tarfs = vfs.tarfs)
      (fun stop _ => (∃ message, stop = .panic message) ∧ UnderInit memory path) vfs := by
  by_cases null : path = 0
  · simp only [vfsSysOpen, vfsOpen, if_pos null, ends_bind, ends_pure]
    exact ⟨trivial, fun under => under.1 null, trivial, trivial, trivial⟩
  simp only [vfsSysOpen, vfsOpen, if_neg null, ends_bind]
  cases mounted : vfsFindMnt memory path with
  | none =>
    simp only [ends_pure]
    refine ⟨trivial, fun under => ?_, trivial, trivial, trivial⟩
    rw [under.2] at mounted
    cases mounted
  | some mount =>
    have unknown : ¬Known vfs (locWoMnt memory mount path) mount := fun known =>
      missing mount ⟨null, mounted, known⟩
    cases mount with
    | dev =>
      have absent : devfsExists (locWoMnt memory .dev path) = false := by
        rwa [← Bool.not_eq_true]
      simp only [ends_bind, ends_modify, mountExists, record, absent, ends_pure, if_true,
        Function.update_idem]
      refine ⟨trivial, fun under => ?_, trivial, ?_, trivial⟩
      · rw [under.2] at mounted
        cases mounted
      · rw [← fresh, Function.update_eq_self]
    | init =>
      have fails : Ends (tarfsExists (locWoMnt memory .init path)) (fun _ _ => False)
          (fun stop _ => ∃ message, stop = .panic message) vfs.tarfs := by
        rw [tarfsExists, ends_bind]
        apply ends_mono (ends_tarfsFindFile _ vfs.tarfs)
        · exact fun index after found => absurd (found.2.imp fun _ there => there.1) unknown
        · exact fun stop after absent => absent.2.1
      obtain ⟨stop, after, run, panics⟩ := fails.exists_error
      simp only [ends_bind, ends_modify, mountExists, record]
      rw [ends_of_error (show runTar _ _ = .error stop _ by simp only [runTar, run]; rfl)]
      exact ⟨panics, null, mounted⟩

/-- Where a path names nothing, an open fails cleanly exactly if the path is not under `/init/`. -/
theorem missing_open_clean_iff (memory : Memory) (vfs : Vfs) (block path : Nat) (flags mode : Int)
    (missing : ∀ mount, ¬PathExists memory vfs path mount) (fresh : vfs.files block = none) :
    FailsCleanly memory vfs block path flags mode ↔ ¬UnderInit memory path := by
  have ends : Ends (vfsSysOpen memory block path flags mode) _ _ vfs :=
    ends_vfsSysOpen_missing flags mode missing fresh
  constructor
  · rintro ⟨after, run, -⟩
    exact (ends.returns run).2.1
  · intro outside
    cases run : vfsSysOpen memory block path flags mode vfs with
    | ok id after =>
      obtain ⟨rfl, -, kept⟩ := ends.returns run
      exact ⟨after, run, kept⟩
    | error stop after => exact absurd (ends.stops run).2 outside

def samplePath (text : List Char) : Memory := fun address => (ascii text).getD (address - 4096) 0

theorem missing_device_clean :
    FailsCleanly (samplePath ['/', 'd', 'e', 'v', '/', 'x']) installedVfs 1 4096 0 0 := by
  refine (missing_open_clean_iff _ _ _ _ _ _ ?_ rfl).mpr fun under => absurd under.2 (by decide)
  rintro (_ | _) ⟨-, mounted, known⟩
  · exact absurd known (by
      change devfsExists (locWoMnt _ .dev 4096) ≠ true
      decide +kernel)
  · exact absurd mounted (by decide)

/-- A path under `/init/` that names nothing ends in the assertion of `_tarfs_find_file`. -/
theorem missing_file_panics :
    (∀ mount, ¬PathExists (samplePath ['/', 'i', 'n', 'i', 't', '/', 'x']) installedVfs 4096 mount) ∧
      ∃ after, vfsSysOpen (samplePath ['/', 'i', 'n', 'i', 't', '/', 'x']) 1 4096 0 0 installedVfs =
        .error (.panic "Assertion failure") after := by
  refine ⟨?_, _, rfl⟩
  rintro (_ | _) ⟨-, mounted, known⟩
  · exact absurd mounted (by decide)
  · obtain ⟨file, found⟩ := known
    cases found

end RiriaKernel.FileDescriptors
