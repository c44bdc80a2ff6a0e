import RiriaKernel.FileSessions
import RiriaKernel.TarEncodings

/-!
# Positions of open files

The position of an archive file is kept in the index of the archive, one for all the
descriptors that name the file, and nothing resets it. A descriptor reads from its own cursor
as long as no other one moves the position under it. Two positions are compared by the bytes
that remain behind them: past the end of a file all positions are alike.
-/

namespace RiriaKernel.FilePositions

open ByteMemory HaltingPrograms TarFiles TarArchives TarReads TarEncodings
open VirtualFiles FileDescriptors FileSessions

/-- What `tarfs_read` serves for a path: the data of the header it stops at, if any. -/
def dataAt (path : List UInt8) (entries : List Entry) : List UInt8 :=
  ((headerFor path entries).map Entry.data).getD []

/-- Every archive descriptor reads the bytes of its file from its own cursor. -/
def Independent (content : Content) (fuel : Nat) (entries : List Entry) (session : Session) : Prop :=
  ∀ fd target, session.targets fd = some target → target.mount = .init →
    ∀ memory, Spells memory session.vfs fd target.path → ∀ buffer sz, buffer ≠ 0 →
      ∃ after, vfsSysRead content fuel memory fd buffer sz session.vfs =
        .ok (served (dataAt target.path entries) target.pos sz) after

/-- The calls that read or move a position are made while the path is still spelled. -/
def Stable (session : Session) : Event → Prop
  | .sysRead memory fd _ _ => ∀ target, session.targets fd = some target →
      target.mount = .init → Spells memory session.vfs fd target.path
  | .sysSeek memory fd _ => ∀ target, session.targets fd = some target →
      target.mount = .init → Spells memory session.vfs fd target.path
  | _ => True

def Shares (session : Session) (fd : Int) (path : List UInt8) (target : Target) : Prop :=
  ∃ other, other ≠ fd ∧ session.targets other = some target ∧ target.mount = .init ∧
    target.path = path

/-- A call that leaves every cursor where it is. An open finds the position at the start, a
read that delivers bytes is of a file that no other descriptor has open, and a seek goes where
all the others stand, to an offset that a C int can hold. -/
def Harmless (entries : List Entry) (session : Session) : Event → Prop
  | .sysOpen memory _ path _ _ => PathExists memory session.vfs path .init →
      ∀ file, fileAt (locWoMnt memory .init path) session.vfs.tarfs.files = some file →
        (dataAt (locWoMnt memory .init path) entries).drop (toSize file.seekPos) =
          dataAt (locWoMnt memory .init path) entries
  | .sysRead _ fd _ sz => ∀ target, session.targets fd = some target → target.mount = .init →
      min ((dataAt target.path entries).length - target.pos) sz ≠ 0 →
        ∀ other, ¬Shares session fd target.path other
  | .sysSeek _ fd offset => ∀ target, session.targets fd = some target → target.mount = .init →
      (dataAt target.path entries).drop (toSize (intOf offset)) =
          (dataAt target.path entries).drop offset ∧
        ∀ other, Shares session fd target.path other →
          (dataAt target.path entries).drop (toSize (intOf offset)) =
            (dataAt target.path entries).drop other.pos
  | _ => True

/-- The position in the index leaves each descriptor what its cursor leaves it. -/
def Aligned (entries : List Entry) (session : Session) : Prop :=
  ∀ fd target, session.targets fd = some target → target.mount = .init →
    ∃ file, fileAt target.path session.vfs.tarfs.files = some file ∧
      (dataAt target.path entries).drop (toSize file.seekPos) =
        (dataAt target.path entries).drop target.pos

def Listed (session : Session) : Prop :=
  ∀ fd target, session.targets fd = some target → target.mount = .init →
    ∃ file, fileAt target.path session.vfs.tarfs.files = some file

/-! ## One read -/

theorem c_string_non_nul (memory : Memory) (fuel address : Nat) :
    ∀ byte ∈ cString memory fuel address, byte ≠ 0 := by
  induction fuel generalizing address with
  | zero =>
    intro byte member
    cases member
  | succ fuel induction =>
    rw [cString]
    split
    · intro byte member
      cases member
    · next other =>
        intro byte member
        rcases List.mem_cons.mp member with here | later
        · rwa [here]
        · exact induction _ byte later

theorem served_eq_iff {data : List UInt8} {pos other : Nat} :
    (∀ sz, served data pos sz = served data other sz) ↔ data.drop pos = data.drop other := by
  unfold served
  constructor
  · intro same
    have whole := congrArg Prod.snd (same data.length)
    dsimp only at whole
    rwa [List.take_of_length_le (by rw [List.length_drop]; omega),
      List.take_of_length_le (by rw [List.length_drop]; omega)] at whole
  · intro same sz
    have lengths := congrArg List.length same
    rw [List.length_drop, List.length_drop] at lengths
    rw [same, lengths]

theorem mlibc_hack_of_small {value : Nat} (small : value < 2 ^ 31) :
    mlibcHack (toCInt value) = value := by
  have same : toCInt value = value := by
    unfold toCInt
    rw [Int.bmod_def]
    omega
  rw [mlibcHack, same, if_neg (by omega)]

section Reading

variable {content : Content} {fuel : Nat} {entries : List Entry} {memory : Memory} {vfs : Vfs}
  {fd : Int} {file : VfsFile}

theorem data_at_roomy (roomy : ∀ entry ∈ entries, Roomy entry.data.length) (path : List UInt8) :
    Roomy (dataAt path entries).length := by
  unfold dataAt
  cases header : headerFor path entries with
  | none => exact (show 0 + 1023 < 2 ^ 31 by decide)
  | some entry => exact roomy entry (List.mem_of_find?_eq_some header)

theorem served_reported {data : List UInt8} (small : Roomy data.length) (pos sz : Nat) :
    (mlibcHack (toCInt (served data pos sz).1), (served data pos sz).2) = served data pos sz := by
  unfold Roomy at small
  unfold served
  rw [mlibc_hack_of_small (by omega)]

section

variable (archive : Archive content entries) (enough : EnoughFuel fuel entries)
  (roomy : ∀ entry ∈ entries, Roomy entry.data.length) (found : openFile vfs fd = some file)
  (mount : file.fs = .init) (named : file.loc ≠ 0) {path : List UInt8}
  (spelled : locWoMnt memory file.fs file.loc = path)

include found mount named spelled

theorem ends_vfsSysSeek_archive (offset : Nat) :
    Ends (vfsSysSeek memory fd offset)
      (fun _ after => after.tarfs.files = setPos path (intOf offset) vfs.tarfs.files)
      (fun _ _ => fileAt path vfs.tarfs.files = none) vfs := by
  rw [vfsSysSeek, ends_bind]
  apply ends_on_file
  · intro missing
    rw [found] at missing
    cases missing
  · intro other same null
    obtain rfl := Option.some.inj (found.symm.trans same)
    exact absurd null named
  · intro other same _
    obtain rfl := Option.some.inj (found.symm.trans same)
    rw [spelled, mount]
    dsimp only
    rw [ends_bind, record, ends_modify, ends_runTar]
    apply ends_mono (ends_tarfsSeek path offset vfs.tarfs) _ fun _ _ => id
    intro result after sought
    rw [ends_pure]
    exact sought.2.2.1

variable {stored : TarfsFile} (listed : fileAt path vfs.tarfs.files = some stored)

include archive enough roomy listed

theorem ends_vfsSysRead_archive (buffer sz : Nat) :
    Ends (vfsSysRead content fuel memory fd buffer sz)
      (fun result after =>
        result = served (dataAt path entries) (toSize stored.seekPos) sz ∧
        after.tarfs.files = setPos path (advanced (dataAt path entries).length sz stored.seekPos)
          vfs.tarfs.files)
      (fun _ _ => buffer = 0) vfs := by
  have nonNul : ∀ byte ∈ path.tail, byte ≠ 0 := by
    intro byte member
    rw [← spelled] at member
    exact c_string_non_nul _ _ _ byte (List.mem_of_mem_tail member)
  rw [vfsSysRead, ends_bind]
  apply ends_on_file
  · intro missing
    rw [found] at missing
    cases missing
  · intro other same null
    obtain rfl := Option.some.inj (found.symm.trans same)
    exact absurd null named
  · intro other same _
    obtain rfl := Option.some.inj (found.symm.trans same)
    rw [ends_bind, record, ends_modify, spelled, mount]
    dsimp only
    rw [ends_runTar]
    apply ends_mono (ends_readHeaders zero_block_ends path nonNul buffer sz entries fuel 0 vfs.tarfs
      archive (within_anywhere entries 0) enough.1)
    · intro raw after back
      obtain ⟨back, -⟩ := back
      have small := data_at_roomy roomy path
      rw [ends_pure]
      unfold dataAt at small ⊢
      cases header : headerFor path entries with
      | none =>
        rw [header] at back
        rw [back.1]
        refine ⟨by simp [served, mlibcHack, toCInt], back.2.trans ?_⟩
        rw [advanced, if_pos (by simp), set_pos_self listed]
      | some entry =>
        rw [header] at back small
        obtain ⟨other, place, rfl, files⟩ := back
        obtain rfl := Option.some.inj (place.symm.trans listed)
        exact ⟨served_reported small _ _, files⟩
    · intro stop after stopping
      rcases stopping.1 with ⟨entry, member, wide⟩ | missing | null
      · exact absurd (roomy entry member) wide
      · rw [listed] at missing
        cases missing
      · exact null

theorem vfs_sys_read_archive {buffer : Nat} (valid : buffer ≠ 0) (sz : Nat) :
    ∃ after, vfsSysRead content fuel memory fd buffer sz vfs =
        .ok (served (dataAt path entries) (toSize stored.seekPos) sz) after ∧
      after.tarfs.files = setPos path (advanced (dataAt path entries).length sz stored.seekPos)
        vfs.tarfs.files := by
  have reading := ends_vfsSysRead_archive archive enough roomy found mount named spelled listed
    buffer sz
  cases run : vfsSysRead content fuel memory fd buffer sz vfs with
  | ok result after =>
    obtain ⟨rfl, files⟩ := reading.returns run
    exact ⟨after, rfl, files⟩
  | error stop after => exact absurd (reading.stops run) valid

end

/-! ## Calls that reach no archive file -/

theorem ends_vfsSysRead_device (device : ∀ file, openFile vfs fd = some file → file.fs = .dev)
    (buffer sz : Nat) :
    Ends (vfsSysRead content fuel memory fd buffer sz) (fun _ after => after.tarfs = vfs.tarfs)
      (fun _ after => after.tarfs = vfs.tarfs) vfs := by
  rw [vfsSysRead, ends_bind]
  apply ends_on_file
  · exact fun _ => (ends_pure ..).mpr rfl
  · exact fun _ _ _ => (ends_pure ..).mpr rfl
  · intro file found _
    rw [ends_bind, record, ends_modify, device file found]
    refine ends_mono (ends_devfsRead_frame (fun after => after.tarfs = vfs.tarfs) _ buffer sz ?_)
      (fun _ _ same => (ends_pure ..).mpr same) fun _ _ => id
    exact fun _ => rfl

theorem ends_vfsSysSeek_device (device : ∀ file, openFile vfs fd = some file → file.fs = .dev)
    (offset : Nat) :
    Ends (vfsSysSeek memory fd offset) (fun _ after => after.tarfs = vfs.tarfs)
      (fun _ after => after.tarfs = vfs.tarfs) vfs := by
  rw [vfsSysSeek, ends_bind]
  apply ends_on_file
  · exact fun _ => (ends_pure ..).mpr rfl
  · exact fun _ _ _ => (ends_pure ..).mpr rfl
  · intro file found _
    rw [device file found]
    exact (ends_pure ..).mpr ((ends_pure ..).mpr rfl)

theorem ends_vfsSysWrite_tarfs (audio : Int) (buffer sz : Nat) :
    Ends (vfsSysWrite memory audio fd buffer sz) (fun _ after => after.tarfs = vfs.tarfs)
      (fun _ after => after.tarfs = vfs.tarfs) vfs := by
  rw [vfsSysWrite, ends_bind]
  apply ends_on_file
  · exact fun _ => (ends_pure ..).mpr rfl
  · exact fun _ _ _ => (ends_pure ..).mpr rfl
  · intro file _ _
    cases file.fs with
    | dev =>
      rw [ends_bind, record, ends_modify]
      refine ends_mono (ends_devfsWrite_frame (fun after => after.tarfs = vfs.tarfs) audio _
        buffer sz ?_) (fun _ _ same => (ends_pure ..).mpr same) fun _ _ => id
      rfl
    | init => exact (ends_pure ..).mpr ((ends_pure ..).mpr rfl)

theorem ends_vfsSysMmap_tarfs (tarMmap len : Nat) :
    Ends (vfsSysMmap memory tarMmap fd len) (fun _ after => after.tarfs = vfs.tarfs)
      (fun _ after => after.tarfs = vfs.tarfs) vfs := by
  rw [vfsSysMmap, vfsMmap]
  apply ends_on_file
  · exact fun _ => rfl
  · exact fun _ _ _ => rfl
  · intro file _ _
    cases file.fs with
    | dev =>
      rw [ends_bind, record, ends_modify]
      exact ends_devfsMmap_frame (fun after => after.tarfs = vfs.tarfs) _ len rfl
    | init =>
      rw [ends_ite]
      split
      · exact (ends_pure ..).mpr rfl
      · rw [ends_bind, record, ends_modify]
        exact (ends_pure ..).mpr rfl

end Reading

/-! ## Steps -/

section Positions

variable {data : List UInt8} {seekPos : Int} {pos : Nat}

theorem length_sub_of_drop_eq {other : Nat} (same : data.drop pos = data.drop other) :
    data.length - pos = data.length - other := by
  have lengths := congrArg List.length same
  rwa [List.length_drop, List.length_drop] at lengths

/-- A read that delivers bytes advances a position that agrees with the cursor as it advances
the cursor. -/
theorem advanced_of_drop_eq (small : Roomy data.length) (sz : Nat)
    (same : data.drop (toSize seekPos) = data.drop pos)
    (some : min (data.length - pos) sz ≠ 0) :
    toSize (advanced data.length sz seekPos) = pos + min (data.length - pos) sz := by
  have lengths := length_sub_of_drop_eq same
  unfold Roomy at small
  rw [advanced, lengths, if_neg some, int_of_small (by omega), toSize_natCast (by omega)]
  omega

theorem advanced_of_nothing (sz : Nat) (same : data.drop (toSize seekPos) = data.drop pos)
    (nothing : min (data.length - pos) sz = 0) : advanced data.length sz seekPos = seekPos := by
  rw [advanced, length_sub_of_drop_eq same, if_pos nothing]

theorem drop_advanced (small : Roomy data.length) (sz : Nat)
    (same : data.drop (toSize seekPos) = data.drop pos) :
    data.drop (toSize (advanced data.length sz seekPos)) =
      data.drop (pos + min (data.length - pos) sz) := by
  by_cases nothing : min (data.length - pos) sz = 0
  · rw [advanced_of_nothing sz same nothing, nothing, Nat.add_zero, same]
  · rw [advanced_of_drop_eq small sz same nothing]

theorem drop_advanced_ne (small : Roomy data.length) (sz : Nat)
    (same : data.drop (toSize seekPos) = data.drop pos)
    (some : min (data.length - pos) sz ≠ 0) :
    data.drop (toSize (advanced data.length sz seekPos)) ≠ data.drop pos := by
  rw [advanced_of_drop_eq small sz same some]
  intro equal
  have lengths := length_sub_of_drop_eq equal
  omega

end Positions

section Steps

variable {entries : List Entry} {session : Session} {after : Vfs} {fd : Int} {target : Target}

theorem move_target_of_opened (opened : session.targets fd = some target) (pos : Nat → Nat) :
    moveTarget session.targets fd pos =
      Function.update session.targets fd (some { target with pos := pos target.pos }) := by
  rw [moveTarget, opened]
  rfl

theorem aligned_move_iff (aligned : Aligned entries session)
    (opened : session.targets fd = some target) (mount : target.mount = .init) {seekPos : Int}
    {pos : Nat} (files : after.tarfs.files = setPos target.path seekPos session.vfs.tarfs.files) :
    Aligned entries ⟨after, Function.update session.targets fd (some { target with pos })⟩ ↔
      (dataAt target.path entries).drop (toSize seekPos) = (dataAt target.path entries).drop pos ∧
        ∀ other, Shares session fd target.path other →
          (dataAt target.path entries).drop (toSize seekPos) =
            (dataAt target.path entries).drop other.pos := by
  obtain ⟨stored, found, -⟩ := aligned fd target opened mount
  have moved : fileAt target.path after.tarfs.files = some { stored with seekPos } := by
    rw [files, file_at_set_pos seekPos found]
  constructor
  · intro next
    constructor
    · obtain ⟨file, place, same⟩ := next fd { target with pos } (Function.update_self ..) mount
      rw [show file = { stored with seekPos } from
        Option.some.inj (place.symm.trans moved)] at same
      exact same
    · rintro other ⟨holder, different, held, otherMount, path⟩
      obtain ⟨file, place, same⟩ := next holder other
        ((Function.update_of_ne different ..).trans held) otherMount
      rw [path] at place same
      rw [show file = { stored with seekPos } from
        Option.some.inj (place.symm.trans moved)] at same
      exact same
  · rintro ⟨own, others⟩ holder other held otherMount
    change Function.update session.targets fd _ holder = some other at held
    change ∃ file, fileAt other.path after.tarfs.files = some file ∧ _
    by_cases here : holder = fd
    · rw [here, Function.update_self, Option.some_inj] at held
      subst held
      exact ⟨_, moved, own⟩
    · rw [Function.update_of_ne here] at held
      by_cases path : other.path = target.path
      · have same := others other ⟨holder, here, held, otherMount, path⟩
        rw [path]
        exact ⟨_, moved, same⟩
      · rw [files, file_at_set_pos_other path]
        exact aligned holder other held otherMount

theorem Aligned.keep (aligned : Aligned entries session) {targets : Int → Option Target}
    (files : after.tarfs = session.vfs.tarfs)
    (same : ∀ holder other, targets holder = some other → other.mount = .init →
      session.targets holder = some other) : Aligned entries ⟨after, targets⟩ := by
  intro holder other held mount
  change ∃ file, fileAt other.path after.tarfs.files = some file ∧ _
  rw [files]
  exact aligned holder other (same holder other held mount) mount

end Steps

section Calls

variable {content : Content} {fuel : Nat} {entries : List Entry} {session : Session} {after : Vfs}
  {memory : Memory} {fd : Int}

theorem device_of_no_target (tracked : Tracked session)
    (other : ∀ target, session.targets fd = some target → target.mount ≠ .init) (file : VfsFile)
    (found : openFile session.vfs fd = some file) : file.fs = .dev := by
  obtain ⟨target, opened⟩ := Option.ne_none_iff_exists'.mp (tracked.complete fd file found)
  obtain ⟨record, place, mount, -⟩ := tracked.bound fd target opened
  obtain rfl := Option.some.inj (place.symm.trans found)
  have archive := other target opened
  rw [mount]
  cases kind : target.mount with
  | dev => rfl
  | init => exact absurd kind archive

theorem move_target_archive (other : ∀ target, session.targets fd = some target →
      target.mount ≠ .init) (pos : Nat → Nat) (holder : Int) (target : Target)
    (held : moveTarget session.targets fd pos holder = some target) (mount : target.mount = .init) :
    session.targets holder = some target := by
  unfold moveTarget at held
  by_cases here : holder = fd
  · rw [here, Function.update_self] at held
    obtain ⟨old, opened, same⟩ := Option.map_eq_some_iff.mp held
    rw [← same] at mount
    exact absurd mount (other old opened)
  · rwa [Function.update_of_ne here] at held

theorem aligned_read_iff (archive : Archive content entries) (enough : EnoughFuel fuel entries)
    (roomy : ∀ entry ∈ entries, Roomy entry.data.length) (tracked : Tracked session)
    (aligned : Aligned entries session) {buffer sz : Nat} {result : Int × List UInt8}
    (stable : Stable session (.sysRead memory fd buffer sz))
    (run : vfsSysRead content fuel memory fd buffer sz session.vfs = .ok result after) :
    Aligned entries ⟨after, moveTarget session.targets fd (· + result.2.length)⟩ ↔
      Harmless entries session (.sysRead memory fd buffer sz) := by
  by_cases device : ∀ target, session.targets fd = some target → target.mount ≠ .init
  · have files := (ends_vfsSysRead_device (device_of_no_target tracked device) buffer sz).returns run
    have kept := aligned.keep files (move_target_archive device (· + result.2.length))
    exact iff_of_true kept fun target opened mount => absurd mount (device target opened)
  · push Not at device
    obtain ⟨target, opened, mount⟩ := device
    obtain ⟨file, found, fs, named, -⟩ := tracked.bound fd target opened
    obtain ⟨stored, listed, same⟩ := aligned fd target opened mount
    have spelled := (spells_iff found).mp (stable target opened mount)
    obtain ⟨rfl, files⟩ := (ends_vfsSysRead_archive archive enough roomy found (fs.trans mount) named
      spelled listed buffer sz).returns run
    have small := data_at_roomy roomy target.path
    have count : (served (dataAt target.path entries) (toSize stored.seekPos) sz).2.length =
        min ((dataAt target.path entries).length - target.pos) sz := by
      rw [length_served, length_sub_of_drop_eq same]
    rw [count, move_target_of_opened opened, aligned_move_iff aligned opened mount files]
    constructor
    · rintro ⟨-, others⟩ also reopened _ delivers other shares
      obtain rfl := Option.some.inj (opened.symm.trans reopened)
      obtain ⟨holder, different, held, otherMount, path⟩ := shares
      obtain ⟨sharedFile, place, agrees⟩ := aligned holder other held otherMount
      rw [path] at place agrees
      obtain rfl := Option.some.inj (listed.symm.trans place)
      apply drop_advanced_ne small sz same delivers
      rw [others other ⟨holder, different, held, otherMount, path⟩, ← agrees, same]
    · intro harmless
      refine ⟨drop_advanced small sz same, ?_⟩
      intro other shares
      by_cases nothing : min ((dataAt target.path entries).length - target.pos) sz = 0
      · obtain ⟨holder, different, held, otherMount, path⟩ := shares
        obtain ⟨sharedFile, place, agrees⟩ := aligned holder other held otherMount
        rw [path] at place agrees
        obtain rfl := Option.some.inj (listed.symm.trans place)
        rw [advanced_of_nothing sz same nothing, agrees]
      · exact absurd shares (harmless target opened mount nothing other)

theorem aligned_seek_iff (tracked : Tracked session) (aligned : Aligned entries session)
    {offset : Nat} {result : Int} (stable : Stable session (.sysSeek memory fd offset))
    (run : vfsSysSeek memory fd offset session.vfs = .ok result after) :
    Aligned entries ⟨after, moveTarget session.targets fd fun _ => offset⟩ ↔
      Harmless entries session (.sysSeek memory fd offset) := by
  by_cases device : ∀ target, session.targets fd = some target → target.mount ≠ .init
  · have files := (ends_vfsSysSeek_device (device_of_no_target tracked device) offset).returns run
    have kept := aligned.keep files (move_target_archive device fun _ => offset)
    exact iff_of_true kept fun target opened mount => absurd mount (device target opened)
  · push Not at device
    obtain ⟨target, opened, mount⟩ := device
    obtain ⟨file, found, fs, named, -⟩ := tracked.bound fd target opened
    have spelled := (spells_iff found).mp (stable target opened mount)
    have files := (ends_vfsSysSeek_archive found (fs.trans mount) named spelled offset).returns run
    rw [move_target_of_opened opened, aligned_move_iff aligned opened mount files]
    constructor
    · intro agrees also reopened _
      obtain rfl := Option.some.inj (opened.symm.trans reopened)
      exact agrees
    · intro harmless
      exact harmless target opened mount

theorem aligned_open_iff (aligned : Aligned entries session) {block path : Nat} {flags mode id : Int}
    (fresh : session.vfs.files block = none)
    (run : vfsSysOpen memory block path flags mode session.vfs = .ok id after) :
    Aligned entries ⟨after, openTargets memory path session.targets id⟩ ↔
      Harmless entries session (.sysOpen memory block path flags mode) := by
  rcases (ends_vfsSysOpen_any flags mode fresh).returns run with refused | opened
  · obtain ⟨rfl, -, -, tarfs, unknown⟩ := refused
    rw [open_targets_refused]
    have kept := aligned.keep tarfs fun _ _ held _ => held
    exact iff_of_true kept fun known => absurd known (unknown .init)
  · obtain ⟨mount, fd, exist, -, -, rfl, opened⟩ := opened
    have mounted := exist.2.1
    rw [open_targets_opened mounted]
    constructor
    · intro next known file listed
      obtain rfl := Option.some.inj (known.2.1.symm.trans mounted)
      obtain ⟨other, place, same⟩ := next fd _ (Function.update_self ..) rfl
      change fileAt _ after.tarfs.files = _ at place
      rw [opened.tarfs] at place
      obtain rfl := Option.some.inj (listed.symm.trans place)
      exact same
    · intro harmless holder other held otherMount
      change Function.update session.targets fd _ holder = some other at held
      change ∃ file, fileAt other.path after.tarfs.files = some file ∧ _
      rw [opened.tarfs]
      by_cases here : holder = fd
      · rw [here, Function.update_self, Option.some_inj] at held
        subst held
        change mount = .init at otherMount
        subst otherMount
        obtain ⟨file, found⟩ := exist.2.2
        exact ⟨file, found, harmless exist file found⟩
      · rw [Function.update_of_ne here] at held
        exact aligned holder other held otherMount

theorem ends_vfsSysClose_tarfs :
    Ends (vfsSysClose fd) (fun _ after => after.tarfs = session.vfs.tarfs)
      (fun _ _ => True) session.vfs := by
  rw [vfsSysClose, ends_bind, ends_get, vfsClose, ends_bind, ends_get]
  cases vfsGetFromFd session.vfs.openFiles fd with
  | none => exact (ends_pure ..).mpr rfl
  | some block =>
    dsimp only
    rw [ends_ite]
    split
    · rw [ends_pure]
    · rw [ends_bind, storeOpenFile, ends_ite]
      split
      · rw [ends_modify, ends_bind, ends_modify, ends_pure]
      · rw [ends_throw]
        trivial

theorem close_targets_subset {targets : Int → Option Target} {result : Int} {holder : Int}
    {target : Target} (held : (if result = 0 then Function.update targets fd none else targets) holder =
      some target) : targets holder = some target := by
  split at held
  · by_cases here : holder = fd
    · rw [here, Function.update_self] at held
      cases held
    · rwa [Function.update_of_ne here] at held
  · exact held

end Calls

section Steps

variable {content : Content} {fuel : Nat} {entries : List Entry} {session next : Session}
  {event : Event}

theorem aligned_step_iff (archive : Archive content entries) (enough : EnoughFuel fuel entries)
    (roomy : ∀ entry ∈ entries, Roomy entry.data.length) (tracked : Tracked session)
    (aligned : Aligned entries session) (stable : Stable session event)
    (stepped : stepEvent content fuel session event = some next) :
    Aligned entries next ↔ Harmless entries session event := by
  cases event with
  | sysOpen memory block path flags mode =>
    rw [stepEvent] at stepped
    split at stepped
    · cases stepped
    · next fresh =>
        obtain ⟨id, after, run, rfl⟩ := returning_eq_some_iff.mp stepped
        exact aligned_open_iff aligned (Option.not_isSome_iff_eq_none.mp fresh) run
  | sysRead memory fd buffer sz =>
    obtain ⟨result, after, run, rfl⟩ := returning_eq_some_iff.mp stepped
    exact aligned_read_iff archive enough roomy tracked aligned stable run
  | sysWrite memory audio fd buffer sz =>
    obtain ⟨result, after, run, rfl⟩ := returning_eq_some_iff.mp stepped
    have files := (ends_vfsSysWrite_tarfs audio buffer sz).returns run
    exact iff_of_true (aligned.keep files fun _ _ held _ => held) trivial
  | sysSeek memory fd offset =>
    obtain ⟨result, after, run, rfl⟩ := returning_eq_some_iff.mp stepped
    exact aligned_seek_iff tracked aligned stable run
  | sysMmap memory tarMmap fd len =>
    obtain ⟨result, after, run, rfl⟩ := returning_eq_some_iff.mp stepped
    have files := (ends_vfsSysMmap_tarfs tarMmap len).returns run
    exact iff_of_true (aligned.keep files fun _ _ held _ => held) trivial
  | sysClose fd =>
    obtain ⟨result, after, run, rfl⟩ := returning_eq_some_iff.mp stepped
    have files := ends_vfsSysClose_tarfs.returns run
    exact iff_of_true (aligned.keep files fun _ _ held _ => close_targets_subset held) trivial

end Steps

/-! ## Sessions -/

section Sessions

variable {content : Content} {fuel : Nat} {entries : List Entry} {start session next : Session}

theorem file_at_of_listing {files after : List TarfsFile} (same : listing after = listing files)
    {path : List UInt8} (found : ∃ file, fileAt path files = some file) :
    ∃ file, fileAt path after = some file := by
  rw [file_at_eq_some_iff_listed, same, ← file_at_eq_some_iff_listed]
  exact found

theorem Listed.keep (listed : Listed session) {after : Vfs} {targets : Int → Option Target}
    (files : listing after.tarfs.files = listing session.vfs.tarfs.files)
    (same : ∀ fd target, targets fd = some target → ∃ old, session.targets fd = some old ∧
      old.mount = target.mount ∧ old.path = target.path) : Listed ⟨after, targets⟩ := by
  intro fd target held mount
  obtain ⟨old, opened, mounts, paths⟩ := same fd target held
  have found := listed fd old opened (mounts.trans mount)
  rw [paths] at found
  exact file_at_of_listing files found

theorem moved_target {targets : Int → Option Target} {fd holder : Int} {pos : Nat → Nat}
    {target : Target} (held : moveTarget targets fd pos holder = some target) :
    ∃ old, targets holder = some old ∧ old.mount = target.mount ∧ old.path = target.path := by
  have same := move_target_same targets fd pos holder
  rw [held, Option.map_some, eq_comm, Option.map_eq_some_iff] at same
  obtain ⟨old, opened, pair⟩ := same
  exact ⟨old, opened, congrArg Prod.fst pair, congrArg Prod.snd pair⟩

theorem Listed.step (archive : Archive content entries) (enough : EnoughFuel fuel entries)
    (roomy : ∀ entry ∈ entries, Roomy entry.data.length) (tracked : Tracked session)
    (listed : Listed session) {event : Event} (stable : Stable session event)
    (stepped : stepEvent content fuel session event = some next) : Listed next := by
  have unmoved : ∀ fd target, session.targets fd = some target → ∃ old,
      session.targets fd = some old ∧ old.mount = target.mount ∧ old.path = target.path :=
    fun _ target held => ⟨target, held, rfl, rfl⟩
  cases event with
  | sysOpen memory block path flags mode =>
    rw [stepEvent] at stepped
    split at stepped
    · cases stepped
    · next fresh =>
        obtain ⟨id, after, run, rfl⟩ := returning_eq_some_iff.mp stepped
        rcases (ends_vfsSysOpen_any flags mode
          (Option.not_isSome_iff_eq_none.mp fresh)).returns run with refused | opened
        · obtain ⟨rfl, -, -, tarfs, -⟩ := refused
          rw [open_targets_refused]
          exact listed.keep (by rw [tarfs]) unmoved
        · obtain ⟨mount, fd, exist, -, -, rfl, opened⟩ := opened
          rw [open_targets_opened exist.2.1]
          intro holder target held kind
          change Function.update session.targets fd _ holder = some target at held
          change ∃ file, fileAt target.path after.tarfs.files = some file
          rw [opened.tarfs]
          by_cases here : holder = fd
          · rw [here, Function.update_self, Option.some_inj] at held
            subst held
            change mount = .init at kind
            subst kind
            exact exist.2.2
          · rw [Function.update_of_ne here] at held
            exact listed holder target held kind
  | sysRead memory fd buffer sz =>
    obtain ⟨result, after, run, rfl⟩ := returning_eq_some_iff.mp stepped
    refine listed.keep ?_ fun _ _ => moved_target
    by_cases device : ∀ target, session.targets fd = some target → target.mount ≠ .init
    · rw [(ends_vfsSysRead_device (device_of_no_target tracked device) buffer sz).returns run]
    · push Not at device
      obtain ⟨target, opened, mount⟩ := device
      obtain ⟨file, found, fs, named, -⟩ := tracked.bound fd target opened
      obtain ⟨stored, place⟩ := listed fd target opened mount
      have spelled := (spells_iff found).mp (stable target opened mount)
      rw [((ends_vfsSysRead_archive archive enough roomy found (fs.trans mount) named spelled place
        buffer sz).returns run).2, listing_set_pos]
  | sysWrite memory audio fd buffer sz =>
    obtain ⟨result, after, run, rfl⟩ := returning_eq_some_iff.mp stepped
    exact listed.keep (by rw [(ends_vfsSysWrite_tarfs audio buffer sz).returns run]) unmoved
  | sysSeek memory fd offset =>
    obtain ⟨result, after, run, rfl⟩ := returning_eq_some_iff.mp stepped
    refine listed.keep ?_ fun _ _ => moved_target
    by_cases device : ∀ target, session.targets fd = some target → target.mount ≠ .init
    · rw [(ends_vfsSysSeek_device (device_of_no_target tracked device) offset).returns run]
    · push Not at device
      obtain ⟨target, opened, mount⟩ := device
      obtain ⟨file, found, fs, named, -⟩ := tracked.bound fd target opened
      have spelled := (spells_iff found).mp (stable target opened mount)
      rw [(ends_vfsSysSeek_archive found (fs.trans mount) named spelled offset).returns run,
        listing_set_pos]
  | sysMmap memory tarMmap fd len =>
    obtain ⟨result, after, run, rfl⟩ := returning_eq_some_iff.mp stepped
    exact listed.keep (by rw [(ends_vfsSysMmap_tarfs tarMmap len).returns run]) unmoved
  | sysClose fd =>
    obtain ⟨result, after, run, rfl⟩ := returning_eq_some_iff.mp stepped
    exact listed.keep (by rw [ends_vfsSysClose_tarfs.returns run]) fun holder target held =>
      unmoved holder target (close_targets_subset held)

theorem independent_iff_aligned (archive : Archive content entries)
    (enough : EnoughFuel fuel entries) (roomy : ∀ entry ∈ entries, Roomy entry.data.length)
    (tracked : Tracked session) (listed : Listed session) :
    Independent content fuel entries session ↔ Aligned entries session := by
  constructor
  · intro independent fd target opened mount
    obtain ⟨file, found, fs, named, memory, spelled⟩ := tracked.bound fd target opened
    obtain ⟨stored, place⟩ := listed fd target opened mount
    refine ⟨stored, place, served_eq_iff.mp fun sz => ?_⟩
    obtain ⟨after, run⟩ := independent fd target opened mount memory ((spells_iff found).mpr spelled)
      1 sz Nat.one_ne_zero
    exact ((ends_vfsSysRead_archive archive enough roomy found (fs.trans mount) named spelled place
      1 sz).returns run).1.symm
  · intro aligned fd target opened mount memory spells buffer sz valid
    obtain ⟨file, found, fs, named, -⟩ := tracked.bound fd target opened
    obtain ⟨stored, place, same⟩ := aligned fd target opened mount
    have spelled := (spells_iff found).mp spells
    obtain ⟨after, run, -⟩ := vfs_sys_read_archive archive enough roomy found (fs.trans mount) named
      spelled place valid sz
    rw [served_eq_iff.mpr same sz] at run
    exact ⟨after, run⟩

end Sessions

/-- In every call of the session, the path that was opened is still spelled. -/
def AllStable (content : Content) (fuel : Nat) (start : Session) (events : List Event) : Prop :=
  ∀ earlier event, earlier ++ [event] <+: events → ∀ session,
    play content fuel start earlier = some session → Stable session event

/-- Every call of the session that returns is harmless when it is made. -/
def AllHarmless (content : Content) (fuel : Nat) (entries : List Entry) (start : Session)
    (events : List Event) : Prop :=
  ∀ earlier event, earlier ++ [event] <+: events → ∀ session next,
    play content fuel start earlier = some session →
      stepEvent content fuel session event = some next → Harmless entries session event

section Runs

variable {content : Content} {fuel : Nat} {entries : List Entry} {start session : Session}
  {events : List Event}

theorem play_listed (archive : Archive content entries) (enough : EnoughFuel fuel entries)
    (roomy : ∀ entry ∈ entries, Roomy entry.data.length) (booted : Booted start)
    (stable : AllStable content fuel start events)
    (played : play content fuel start events = some session) : Listed session := by
  refine play_keeps (fun fd target opened => ?_) ?_ played
  · rw [booted.targets] at opened
    cases opened
  · intro earlier event before next inside run stepped listed
    exact listed.step archive enough roomy (play_tracked booted run)
      (stable earlier event inside before run) stepped

theorem play_aligned (archive : Archive content entries) (enough : EnoughFuel fuel entries)
    (roomy : ∀ entry ∈ entries, Roomy entry.data.length) (booted : Booted start)
    (stable : AllStable content fuel start events)
    (harmless : AllHarmless content fuel entries start events)
    (played : play content fuel start events = some session) : Aligned entries session := by
  refine play_keeps (fun fd target opened => ?_) ?_ played
  · rw [booted.targets] at opened
    cases opened
  · intro earlier event before next inside run stepped aligned
    exact (aligned_step_iff archive enough roomy (play_tracked booted run) aligned
      (stable earlier event inside before run) stepped).mpr
      (harmless earlier event inside before next run stepped)

end Runs

/-- All along a session, every archive descriptor reads from its own cursor exactly when every
call is harmless. -/
theorem positions_independent_iff (content : Content) (entries : List Entry) (garbage : Nat → Int)
    (fuel : Nat) (archive : Archive content entries) (enough : EnoughFuel fuel entries)
    (start : Session) (booted : Booted start)
    (mounted : tarfsInit content garbage fuel unmounted = .ok ⟨⟩ start.vfs.tarfs)
    (events : List Event) (stable : AllStable content fuel start events) :
    (∀ earlier, earlier <+: events → ∀ session, play content fuel start earlier = some session →
        Independent content fuel entries session) ↔
      AllHarmless content fuel entries start events := by
  have roomy := ((ends_tarfsInit archive enough).returns mounted).2
  have exact : ∀ earlier, earlier <+: events → ∀ session,
      play content fuel start earlier = some session →
        (Independent content fuel entries session ↔ Aligned entries session) := by
    intro earlier inside session played
    have stableEarlier : AllStable content fuel start earlier := fun prior other part =>
      stable prior other (part.trans inside)
    exact independent_iff_aligned archive enough roomy (play_tracked booted played)
      (play_listed archive enough roomy booted stableEarlier played)
  constructor
  · intro independent earlier event inside session next played stepped
    have before : earlier <+: events := (List.prefix_append ..).trans inside
    have replayed := play_of_step played stepped
    have aligned := (exact earlier before session played).mp (independent earlier before session played)
    have alignedNext := (exact _ inside next replayed).mp (independent _ inside next replayed)
    exact (aligned_step_iff archive enough roomy (play_tracked booted played) aligned
      (stable earlier event inside session played) stepped).mp alignedNext
  · intro harmless earlier inside session played
    apply (exact earlier inside session played).mpr
    exact play_aligned archive enough roomy booted
      (fun prior other part => stable prior other (part.trans inside))
      (fun prior other part => harmless prior other (part.trans inside)) played

theorem zero_file_at_start : ∃ reads,
    tarfsInit (zeroFile [0x61] 3) (fun _ => 0) 0x7c unmounted =
      .ok ⟨⟩ ⟨[⟨[0x2F, 0x61], 0, 3⟩], reads⟩ := ⟨_, rfl⟩

def archiveSession (reads : List Int) : Session where
  vfs := { installedVfs with tarfs := ⟨[⟨[0x2F, 0x61], 0, 3⟩], reads⟩ }
  targets := fun _ => none

theorem archive_session_booted (reads : List Int) : Booted (archiveSession reads) :=
  ⟨fun _ => rfl, fun _ => rfl, fun _ => rfl⟩

def archivePath : Memory := fun address =>
  (ascii ['/', 'i', 'n', 'i', 't', '/', 'a']).getD (address - 4096) 0

def archiveTarget : Target := ⟨.init, [0x2F, 0x61], 0⟩

theorem archive_path_loc : locWoMnt archivePath .init 4096 = archiveTarget.path := by
  decide +kernel

theorem archive_path_exists {vfs : Vfs} (files : vfs.tarfs.files = [⟨[0x2F, 0x61], 0, 3⟩]) :
    PathExists archivePath vfs 4096 .init := by
  refine ⟨by decide, by decide, ?_⟩
  show ∃ file, fileAt (locWoMnt archivePath .init 4096) vfs.tarfs.files = some file
  rw [archive_path_loc, files]
  exact ⟨_, rfl⟩

theorem open_archive_plays (reads : List Int) : ∃ session,
    play (zeroFile [0x61] 3) 0x7c (archiveSession reads) [.sysOpen archivePath 1 4096 0 0] =
        some session ∧
      session.targets = Function.update (fun _ => none) 10 (some archiveTarget) ∧
      Opened (archiveSession reads).vfs 1 4096 0 0 .init 10 session.vfs := by
  have known : PathExists archivePath (archiveSession reads).vfs 4096 .init := archive_path_exists rfl
  have least : IsLeast { i | Slot i ∧ (archiveSession reads).vfs.openFiles i = none } 10 :=
    ⟨⟨⟨by decide, by decide⟩, rfl⟩, fun _ free => free.1.1⟩
  obtain ⟨after, stepped, opened⟩ := step_open (zeroFile [0x61] 3) 0x7c 1 known rfl least
  refine ⟨_, (play_snoc (archiveSession reads) [] _).trans stepped, ?_, opened⟩
  rw [archive_path_loc]
  rfl

/-- Only descriptor 10 is open, and the position of the file is at its start. -/
structure OneOpen (session : Session) : Prop where
  openFiles : session.vfs.openFiles = Function.update (fun _ => none) 10 (some 1)
  files : session.vfs.files = Function.update (fun _ => none) 1 (some ⟨10, 4096, 0, 0, .init⟩)
  position : session.vfs.tarfs.files = [⟨[0x2F, 0x61], 0, 3⟩]

theorem OneOpen.step_open {session : Session} (one : OneOpen session) : ∃ vfs,
    stepEvent (zeroFile [0x61] 3) 0x7c session (.sysOpen archivePath 2 4096 0 0) =
        some ⟨vfs, Function.update session.targets 11 (some archiveTarget)⟩ ∧
      Opened session.vfs 2 4096 0 0 .init 11 vfs ∧
      openFile vfs 10 = some ⟨10, 4096, 0, 0, .init⟩ ∧
      openFile vfs 11 = some ⟨11, 4096, 0, 0, .init⟩ := by
  have least : IsLeast { i | Slot i ∧ session.vfs.openFiles i = none } 11 := by
    rw [one.openFiles]
    refine ⟨⟨⟨by decide, by decide⟩, rfl⟩, ?_⟩
    rintro i ⟨⟨lower, -⟩, free⟩
    by_contra below
    obtain rfl : i = 10 := by
      unfold vfsFdOffset at lower
      omega
    cases free
  have unused : session.vfs.files 2 = none := by
    rw [one.files]
    rfl
  obtain ⟨vfs, stepped, opened⟩ := FileSessions.step_open (zeroFile [0x61] 3) 0x7c 2
    (archive_path_exists one.position) unused least
  rw [archive_path_loc] at stepped
  refine ⟨vfs, stepped, opened, ?_, ?_⟩
  · rw [openFile, opened.openFiles, opened.files, one.openFiles, one.files]
    rfl
  · rw [openFile, opened.openFiles, opened.files]
    rfl

theorem open_archive_one {reads : List Int} {session : Session}
    (opened : Opened (archiveSession reads).vfs 1 4096 0 0 .init 10 session.vfs) : OneOpen session :=
  ⟨opened.openFiles, opened.files, by rw [opened.tarfs]; rfl⟩

/-- A session in which every call so far has been stable and harmless. -/
structure Careful (reads : List Int) (events : List Event) (session : Session) : Prop where
  played : play (zeroFile [0x61] 3) 0x7c (archiveSession reads) events = some session
  stable : AllStable (zeroFile [0x61] 3) 0x7c (archiveSession reads) events
  harmless : AllHarmless (zeroFile [0x61] 3) 0x7c [⟨[0x61], List.replicate 3 0⟩]
    (archiveSession reads) events

theorem Careful.snoc {reads : List Int} {events : List Event} {session next : Session} {event : Event}
    (careful : Careful reads events session) (stable : Stable session event)
    (harmless : Harmless [⟨[0x61], List.replicate 3 0⟩] session event)
    (stepped : stepEvent (zeroFile [0x61] 3) 0x7c session event = some next) :
    Careful reads (events ++ [event]) next := by
  refine ⟨play_of_step careful.played stepped, ?_, ?_⟩
  · intro earlier other inside before played
    rcases List.prefix_concat_iff.mp inside with same | shorter
    · obtain ⟨rfl, rfl⟩ := List.append_singleton_inj.mp same
      obtain rfl := Option.some.inj (careful.played.symm.trans played)
      exact stable
    · exact careful.stable earlier other shorter before played
  · intro earlier other inside before _ played ran
    rcases List.prefix_concat_iff.mp inside with same | shorter
    · obtain ⟨rfl, rfl⟩ := List.append_singleton_inj.mp same
      obtain rfl := Option.some.inj (careful.played.symm.trans played)
      exact harmless
    · exact careful.harmless earlier other shorter before _ played ran

/-- A read, a seek back, and a second descriptor whose seek goes where the first one stands. -/
def carefulEvents : List Event :=
  [.sysOpen archivePath 1 4096 0 0, .sysRead archivePath 10 8192 2, .sysSeek archivePath 10 0,
    .sysOpen archivePath 2 4096 0 0, .sysSeek archivePath 11 0]

theorem small_archive : Archive (zeroFile [0x61] 3) [⟨[0x61], List.replicate 3 0⟩] :=
  zero_file_archive (by decide) (by simp) (by decide)

theorem small_fuel : EnoughFuel 0x7c [⟨[0x61], List.replicate 3 0⟩] :=
  zero_file_fuel (by decide) (by decide)

/-- A seek back to the start, with every other cursor there. -/
theorem Careful.seek {reads : List Int} {events : List Event} {session : Session} {fd : Int}
    {file : VfsFile} {stored : TarfsFile} (careful : Careful reads events session)
    (found : openFile session.vfs fd = some file) (record : file.fs = .init ∧ file.loc = 4096)
    (listed : fileAt archiveTarget.path session.vfs.tarfs.files = some stored)
    (pos : Nat) (held : session.targets fd = some { archiveTarget with pos })
    (others : ∀ other ≠ fd, ∀ target, session.targets other = some target → target.pos = 0) :
    ∃ vfs, Careful reads (events ++ [.sysSeek archivePath fd 0])
        ⟨vfs, moveTarget session.targets fd fun _ => 0⟩ ∧
      vfs.openFiles = session.vfs.openFiles ∧ vfs.files = session.vfs.files ∧
      vfs.tarfs.files = setPos archiveTarget.path 0 session.vfs.tarfs.files := by
  have spelled : locWoMnt archivePath file.fs file.loc = archiveTarget.path := by
    rw [record.1, record.2, archive_path_loc]
  have ends : Ends (vfsSysSeek archivePath fd 0) _ _ session.vfs :=
    ends_vfsSysSeek_archive found record.1 (by rw [record.2]; decide) spelled 0
  cases run : vfsSysSeek archivePath fd 0 session.vfs with
  | error stop after =>
    have missing := ends.stops run
    rw [listed] at missing
    cases missing
  | ok result vfs =>
    have kept := (ends_vfsSysSeek_kept 0).returns run
    refine ⟨vfs, careful.snoc ?_ ?_ (returning_eq_some_iff.mpr ⟨result, vfs, run, rfl⟩),
      kept.openFiles, kept.files, ends.returns run⟩
    · intro target own _
      rw [← Option.some.inj (held.symm.trans own)]
      exact (spells_iff found).mpr spelled
    · intro target own _
      refine ⟨rfl, ?_⟩
      rintro other ⟨place, apart, theirs, -⟩
      rw [others place apart other theirs]
      rfl

theorem careful_plays (reads : List Int) : ∃ session, Careful reads carefulEvents session ∧
    session.targets 10 = some archiveTarget ∧ session.targets 11 = some archiveTarget := by
  obtain ⟨one, played, targets, opened⟩ := open_archive_plays reads
  have oneOpen := open_archive_one opened
  have found : openFile one.vfs 10 = some ⟨10, 4096, 0, 0, .init⟩ := by
    rw [openFile, oneOpen.openFiles, oneOpen.files]
    rfl
  have listed : fileAt archiveTarget.path one.vfs.tarfs.files = some ⟨[0x2F, 0x61], 0, 3⟩ := by
    rw [oneOpen.position]
    rfl
  have start : Careful reads [] (archiveSession reads) :=
    ⟨rfl, fun _ _ inside => absurd inside.length_le (by simp),
      fun _ _ inside => absurd inside.length_le (by simp)⟩
  have first : Careful reads [.sysOpen archivePath 1 4096 0 0] one := by
    refine start.snoc trivial ?_ ((play_snoc (archiveSession reads) [] _).symm.trans played)
    intro _ file place
    rw [archive_path_loc] at place ⊢
    cases place
    rfl
  have own : ∀ fd target, one.targets fd = some target → fd = 10 ∧ target = archiveTarget := by
    intro fd target held
    rw [targets, Function.update_apply] at held
    split at held
    · next here => exact ⟨here, (Option.some.inj held).symm⟩
    · cases held
  -- the read moves the one cursor there is, and the seek takes it back
  obtain ⟨readVfs, reading, moved⟩ := vfs_sys_read_archive small_archive small_fuel
    (@zero_file_roomy [0x61] 3 (by decide)) found rfl (by decide) archive_path_loc listed
    (show 8192 ≠ 0 by decide) 2
  have kept := (ends_vfsSysRead_kept (zeroFile [0x61] 3) 0x7c 8192 2).returns reading
  have second : Careful reads [.sysOpen archivePath 1 4096 0 0, .sysRead archivePath 10 8192 2]
      ⟨readVfs, moveTarget one.targets 10 (· + 2)⟩ := by
    refine @Careful.snoc _ _ _ _ (.sysRead archivePath 10 8192 2) first ?_ ?_
      (returning_eq_some_iff.mpr ⟨_, readVfs, reading, rfl⟩)
    · intro target held _
      rw [(own 10 target held).2]
      exact (spells_iff found).mpr archive_path_loc
    · rintro target - - - other ⟨place, apart, theirs, -⟩
      exact apart (own place other theirs).1
  obtain ⟨backVfs, third, backOpen, backFiles, backPos⟩ := second.seek
    (show openFile readVfs 10 = some ⟨10, 4096, 0, 0, .init⟩ by
      rw [openFile, kept.openFiles, kept.files]
      exact found)
    ⟨rfl, rfl⟩ (moved ▸ file_at_set_pos _ listed)
    2 (show moveTarget one.targets 10 (· + 2) 10 = some { archiveTarget with pos := 2 } by
      rw [moveTarget, Function.update_self, targets]
      rfl)
    (fun other apart target held => by
      dsimp only at held
      rw [moveTarget, Function.update_of_ne apart, targets, Function.update_of_ne apart] at held
      cases held)
  have again : OneOpen ⟨backVfs, moveTarget (moveTarget one.targets 10 (· + 2)) 10 fun _ => 0⟩ :=
    ⟨(backOpen.trans kept.openFiles).trans oneOpen.openFiles,
      (backFiles.trans kept.files).trans oneOpen.files, by
        simp [backPos, moved, oneOpen.position, setPos, archiveTarget]⟩
  have back : moveTarget (moveTarget one.targets 10 (· + 2)) 10 (fun _ => 0) 10 =
      some archiveTarget := by
    rw [moveTarget, Function.update_self, moveTarget, Function.update_self, targets]
    rfl
  have rewound : ∀ fd target, moveTarget (moveTarget one.targets 10 (· + 2)) 10 (fun _ => 0) fd =
      some target → target.pos = 0 := by
    intro fd target held
    by_cases here : fd = 10
    · rw [here, back] at held
      rw [← Option.some.inj held]
      rfl
    · rw [moveTarget, Function.update_of_ne here, moveTarget, Function.update_of_ne here] at held
      exact absurd (own fd target held).1 here
  obtain ⟨twoVfs, stepped, reopened, -, secondFound⟩ := again.step_open
  have fourth := @Careful.snoc _ _ _ _ (.sysOpen archivePath 2 4096 0 0) third trivial
    (fun _ file place => by
    rw [archive_path_loc, again.position] at place
    rw [archive_path_loc]
    cases place
    rfl) stepped
  obtain ⟨vfs, fifth, -⟩ := fourth.seek secondFound ⟨rfl, rfl⟩
    (show fileAt archiveTarget.path twoVfs.tarfs.files = some ⟨[0x2F, 0x61], 0, 3⟩ by
      rw [reopened.tarfs, again.position]
      rfl)
    0 rfl
    (fun other apart target held => by
      dsimp only at held
      rw [Function.update_of_ne apart] at held
      exact rewound other target held)
  have apart : (10 : Int) ≠ 11 := by decide
  refine ⟨_, fifth, ?_, rfl⟩
  dsimp only
  rw [moveTarget, Function.update_of_ne apart, Function.update_of_ne apart, back]

theorem two_descriptors_independent : ∃ reads session,
    tarfsInit (zeroFile [0x61] 3) (fun _ => 0) 0x7c unmounted =
        .ok ⟨⟩ (archiveSession reads).vfs.tarfs ∧
      play (zeroFile [0x61] 3) 0x7c (archiveSession reads) carefulEvents = some session ∧
      session.targets 10 = some archiveTarget ∧ session.targets 11 = some archiveTarget ∧
      Independent (zeroFile [0x61] 3) 0x7c [⟨[0x61], List.replicate 3 0⟩] session := by
  obtain ⟨reads, mounted⟩ := zero_file_at_start
  obtain ⟨session, careful, first, second⟩ := careful_plays reads
  exact ⟨reads, session, mounted, careful.played, first, second,
    (positions_independent_iff _ _ (fun _ => 0) _ small_archive small_fuel _
      (archive_session_booted reads) mounted _ careful.stable).mpr careful.harmless _
      (List.prefix_refl _) session careful.played⟩

theorem open_twice_plays (reads : List Int) : ∃ session,
    play (zeroFile [0x61] 3) 0x7c (archiveSession reads)
        [.sysOpen archivePath 1 4096 0 0, .sysOpen archivePath 2 4096 0 0] = some session ∧
      session.targets 11 = some archiveTarget ∧
      openFile session.vfs 10 = some ⟨10, 4096, 0, 0, .init⟩ ∧
      openFile session.vfs 11 = some ⟨11, 4096, 0, 0, .init⟩ ∧
      session.vfs.tarfs = ⟨[⟨[0x2F, 0x61], 0, 3⟩], reads⟩ := by
  obtain ⟨one, played, -, opened⟩ := open_archive_plays reads
  obtain ⟨vfs, stepped, reopened, first, second⟩ := (open_archive_one opened).step_open
  exact ⟨_, play_of_step played stepped, rfl, first, second,
    reopened.tarfs.trans opened.tarfs⟩

/-- Two descriptors of one file: what the first reads, the second cannot read any more. -/
theorem shared_position_skips : ∃ reads session after,
    tarfsInit (zeroFile [0x61] 3) (fun _ => 0) 0x7c unmounted =
        .ok ⟨⟩ (archiveSession reads).vfs.tarfs ∧
      play (zeroFile [0x61] 3) 0x7c (archiveSession reads)
        [.sysOpen archivePath 1 4096 0 0, .sysOpen archivePath 2 4096 0 0,
          .sysRead archivePath 10 8192 3] = some session ∧
      session.targets 11 = some archiveTarget ∧
      vfsSysRead (zeroFile [0x61] 3) 0x7c archivePath 11 8192 3 session.vfs = .ok (0, []) after ∧
      ¬Independent (zeroFile [0x61] 3) 0x7c [⟨[0x61], List.replicate 3 0⟩] session := by
  have roomy := @zero_file_roomy [0x61] 3 (by decide)
  obtain ⟨reads, mounted⟩ := zero_file_at_start
  obtain ⟨twice, played, target, first, second, tarfs⟩ := open_twice_plays reads
  have listed : fileAt archiveTarget.path twice.vfs.tarfs.files = some ⟨[0x2F, 0x61], 0, 3⟩ := by
    rw [tarfs]
    rfl
  obtain ⟨vfs, run, files⟩ := vfs_sys_read_archive small_archive small_fuel roomy first rfl (by decide)
    archive_path_loc listed (show 8192 ≠ 0 by decide) 3
  have kept := (ends_vfsSysRead_kept (zeroFile [0x61] 3) 0x7c 8192 3).returns run
  have still : openFile vfs 11 = some ⟨11, 4096, 0, 0, .init⟩ := by
    rw [openFile, kept.openFiles, kept.files]
    exact second
  have moved : fileAt archiveTarget.path vfs.tarfs.files = some ⟨[0x2F, 0x61], 3, 3⟩ := by
    rw [files, file_at_set_pos _ listed]
    have end' : advanced (dataAt archiveTarget.path
      [⟨[0x61], List.replicate 3 0⟩]).length 3 0 = 3 := by decide
    rw [end']
  obtain ⟨after, nothing, -⟩ := vfs_sys_read_archive small_archive small_fuel roomy still rfl (by decide)
    archive_path_loc moved (show 8192 ≠ 0 by decide) 3
  have held : moveTarget twice.targets 10 (· + 3) 11 = some archiveTarget :=
    (Function.update_of_ne (by decide) ..).trans target
  refine ⟨reads, ⟨vfs, moveTarget twice.targets 10 (· + 3)⟩, after, mounted, ?_, held, nothing, ?_⟩
  · exact play_of_step played (returning_eq_some_iff.mpr ⟨_, vfs, run, rfl⟩)
  · intro independent
    obtain ⟨other, reads⟩ := independent 11 archiveTarget held rfl archivePath
      ((spells_iff still).mpr archive_path_loc) 8192 3 (by decide)
    rw [nothing] at reads
    cases reads

end RiriaKernel.FilePositions
