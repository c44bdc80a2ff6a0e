import RiriaKernel.FilePositions

/-!
# The read system call

`syscall_read` passes the caller's registers on as they are: the devices and the archive store
what they deliver at any address they are given. The bytes of the address space that is active
during the call are one memory, the caller's half below `2 ^ 47` and the kernel's above. The
tables behind the files are not part of it. A store can fault for good and end the caller;
`traps` are the addresses where it does, after `vmm_pagefault` has done what it does.
-/

namespace RiriaKernel.ReadCalls

open ByteMemory HaltingPrograms KernelState KeyboardBuffer TarFiles TarArchives TarReads TarEncodings
open VirtualFiles FileDescriptors FileSessions FilePositions

/-- The files, and the bytes that addresses stand for. -/
structure Space where
  vfs : Vfs
  memory : Memory

abbrev SyscallM := EStateM Stop Space

def runVfs {Value : Type} (program : VfsM Value) : SyscallM Value := fun space =>
  match program space.vfs with
  | .ok value vfs => .ok value { space with vfs }
  | .error stop vfs => .error stop { space with vfs }

/-- `pdest[i] = bytes[i]`, from the first byte on. An index that leaves the address space is
stopped by the sanitizer. -/
def storeBytes (traps : Nat → Bool) : (pdest : Nat) → List UInt8 → SyscallM PUnit
  | _, [] => return ⟨⟩
  | pdest, byte :: rest => do
      if 2 ^ 64 ≤ pdest then throw (.panic "pointer overflow detected")
      else if traps pdest then throw (.panic "page fault")
      else
        modify fun space => { space with memory := Function.update space.memory pdest byte }
        storeBytes traps (pdest + 1) rest

/-- `r->rdi`, `r->rsi` and `r->rdx` are the descriptor, the buffer and its length. -/
def syscallRead (content : Content) (fuel : Nat) (traps : Nat → Bool) (rdi rsi rdx : Nat) :
    SyscallM Int := do
  let space ← get
  let (ret, bytes) ← runVfs (vfsSysRead content fuel space.memory (toCInt rdi) rsi rdx)
  storeBytes traps rsi bytes
  return if ret < 0 then -1 else ret

/-! ## What a read may change -/

def KernelHalfKept (before after : Memory) : Prop :=
  ∀ address, 2 ^ 47 ≤ address → after address = before address

/-- Apart from the archive's positions, only the index of the keyboard's buffer moves. -/
structure Bookkeeping (before after : Vfs) : Prop where
  openFiles : after.openFiles = before.openFiles
  files : after.files = before.files
  fbInfo : after.fbInfo = before.fbInfo
  hhdm : after.hhdm = before.hhdm
  inputBuffer : after.keyboard.inputBuffer = before.keyboard.inputBuffer
  shiftPressed : after.keyboard.shiftPressed = before.keyboard.shiftPressed

def pending (keyboard : Keyboard) : (size : Nat) → List UInt8
  | 0 => []
  | size + 1 =>
      if 0 < keyboard.inputBufferIndex then
        keyboard.inputBuffer (keyboard.inputBufferIndex - 1) ::
          pending { keyboard with inputBufferIndex := keyboard.inputBufferIndex - 1 } size
      else 0 :: pending keyboard size

def deviceBytes (keyboard : Keyboard) (path : List UInt8) (sz : Nat) : List UInt8 :=
  match devfsFindDev path with
  | some .zero => List.replicate sz 0
  | some .keyboard => pending keyboard sz
  | _ => []

def remaining (entries : List Entry) (files : List TarfsFile) (path : List UInt8) (sz : Nat) :
    List UInt8 :=
  match fileAt path files with
  | none => []
  | some file => (served (dataAt path entries) (toSize file.seekPos) sz).2

def delivered (entries : List Entry) (memory : Memory) (vfs : Vfs) (fd : Int) (buffer sz : Nat) :
    List UInt8 :=
  match openFile vfs fd with
  | none => []
  | some file =>
      if file.loc = 0 ∨ buffer = 0 then []
      else
        match file.fs with
        | .dev => deviceBytes vfs.keyboard (locWoMnt memory .dev file.loc) sz
        | .init => remaining entries vfs.tarfs.files (locWoMnt memory .init file.loc) sz

def Reaches (traps : Nat → Bool) (pdest i : Nat) : Prop :=
  ∀ j, j ≤ i → pdest + j < 2 ^ 64 ∧ traps (pdest + j) = false

/-- Bytes that would be stored outside the caller's half are there already. -/
def Lands (traps : Nat → Bool) (memory : Memory) (pdest : Nat) (bytes : List UInt8) : Prop :=
  ∀ i byte, bytes[i]? = some byte → Reaches traps pdest i → 2 ^ 47 ≤ pdest + i →
    memory (pdest + i) = byte

/-! ## Stores -/

section Stores

variable {traps : Nat → Bool} {memory after : Memory} {pdest : Nat} {byte : UInt8}
  {rest : List UInt8}

theorem reaches_succ (inside : pdest < 2 ^ 64) (free : traps pdest = false) (i : Nat) :
    Reaches traps pdest (i + 1) ↔ Reaches traps (pdest + 1) i := by
  constructor
  · intro reached j below
    have next := reached (j + 1) (by omega)
    rwa [show pdest + (j + 1) = pdest + 1 + j by omega] at next
  · intro reached j below
    cases j with
    | zero => exact ⟨inside, free⟩
    | succ j =>
      rw [show pdest + (j + 1) = pdest + 1 + j by omega]
      exact reached j (by omega)

theorem lands_cons (inside : pdest < 2 ^ 64) (free : traps pdest = false) :
    Lands traps memory pdest (byte :: rest) ↔
      (2 ^ 47 ≤ pdest → memory pdest = byte) ∧
        Lands traps (Function.update memory pdest byte) (pdest + 1) rest := by
  have behind : ∀ i, Function.update memory pdest byte (pdest + 1 + i) = memory (pdest + (i + 1)) := by
    intro i
    rw [Function.update_of_ne (by omega), show pdest + 1 + i = pdest + (i + 1) by omega]
  constructor
  · intro lands
    refine ⟨fun kernel => lands 0 byte rfl ?_ kernel, fun i other found reached kernel => ?_⟩
    · intro j first
      obtain rfl := Nat.le_zero.mp first
      exact ⟨inside, free⟩
    · rw [behind]
      exact lands (i + 1) other found ((reaches_succ inside free i).mpr reached) (by omega)
  · rintro ⟨first, later⟩ i other found reached kernel
    cases i with
    | zero =>
      obtain rfl := Option.some.inj found
      exact first kernel
    | succ i =>
      rw [← behind]
      exact later i other found ((reaches_succ inside free i).mp reached) (by omega)

theorem kernel_half_update_iff (stored : after pdest = byte) :
    KernelHalfKept memory after ↔
      (2 ^ 47 ≤ pdest → memory pdest = byte) ∧
        KernelHalfKept (Function.update memory pdest byte) after := by
  constructor
  · intro kept
    refine ⟨fun kernel => (kept pdest kernel).symm.trans stored, fun address kernel => ?_⟩
    by_cases here : address = pdest
    · rw [here, Function.update_self, stored]
    · rw [Function.update_of_ne here, kept address kernel]
  · rintro ⟨first, kept⟩ address kernel
    rw [kept address kernel]
    by_cases here : address = pdest
    · rw [here, Function.update_self, first (here ▸ kernel)]
    · rw [Function.update_of_ne here]

/-- What the stores of some bytes leave, whether or not they run to their end. -/
structure Stored (traps : Nat → Bool) (pdest : Nat) (bytes : List UInt8) (before after : Space) :
    Prop where
  vfs : after.vfs = before.vfs
  front : ∀ address, address < pdest → after.memory address = before.memory address
  kernel : KernelHalfKept before.memory after.memory ↔ Lands traps before.memory pdest bytes

theorem stored_nothing {bytes : List UInt8} {space : Space} (unreached : ¬Reaches traps pdest 0) :
    Stored traps pdest bytes space space := by
  refine ⟨rfl, fun _ _ => rfl, iff_of_true (fun _ _ => rfl) ?_⟩
  intro i _ _ reached _
  exact absurd (fun j first => reached j (by omega)) unreached

theorem ends_storeBytes (bytes : List UInt8) (pdest : Nat) (space : Space) :
    Ends (storeBytes traps pdest bytes) (fun _ after => Stored traps pdest bytes space after)
      (fun _ after => Stored traps pdest bytes space after) space := by
  induction bytes generalizing pdest space with
  | nil =>
    rw [storeBytes, ends_pure]
    exact ⟨rfl, fun _ _ => rfl,
      iff_of_true (fun _ _ => rfl) fun _ _ impossible => (nomatch impossible)⟩
  | cons byte rest induction =>
    rw [storeBytes, ends_ite]
    split
    · next beyond =>
        rw [ends_throw]
        exact stored_nothing fun reached => Nat.not_lt.mpr beyond (reached 0 (Nat.le_refl _)).1
    · next inside =>
        rw [ends_ite]
        split
        · next trap =>
            rw [ends_throw]
            exact stored_nothing fun reached =>
              absurd (trap.symm.trans (reached 0 (Nat.le_refl _)).2) (by decide)
        · next free =>
            have step : ∀ after, Stored traps (pdest + 1) rest
                { space with memory := Function.update space.memory pdest byte } after →
                Stored traps pdest (byte :: rest) space after := by
              rintro after ⟨vfs, front, kernel⟩
              have here := front pdest (Nat.lt_succ_self _)
              dsimp only at vfs front kernel here
              rw [Function.update_self] at here
              refine ⟨vfs, fun address below => ?_, ?_⟩
              · rw [front address (by omega), Function.update_of_ne (by omega)]
              · rw [kernel_half_update_iff here, kernel,
                  lands_cons (by omega) (Bool.eq_false_iff.mpr free)]
            rw [ends_bind, ends_modify]
            exact ends_mono (induction _ _) (fun _ => step) fun _ => step

end Stores

/-! ## What is delivered -/

section Delivery

variable {content : Content} {fuel : Nat} {entries : List Entry} {memory : Memory} {vfs : Vfs}
  {fd : Int}

theorem ends_keyboardRead (size : Nat) (keyboard : Keyboard) :
    Ends (keyboardRead size)
      (fun chars after => chars = pending keyboard size ∧
        after.inputBuffer = keyboard.inputBuffer ∧ after.shiftPressed = keyboard.shiftPressed)
      (fun _ _ => False) keyboard := by
  induction size generalizing keyboard with
  | zero =>
    rw [keyboardRead, ends_pure]
    exact ⟨rfl, rfl, rfl⟩
  | succ size induction =>
    rw [keyboardRead, ends_bind, kbPop, ends_bind, ends_get, ends_ite, pending]
    split
    · rw [ends_bind, ends_set, ends_pure, ends_bind]
      apply ends_mono (induction _) _ fun _ _ => id
      rintro _ after ⟨rfl, sameBuffer, sameShift⟩
      rw [ends_pure]
      exact ⟨rfl, sameBuffer, sameShift⟩
    · rw [ends_pure, ends_bind]
      apply ends_mono (induction _) _ fun _ _ => id
      rintro _ after ⟨rfl, sameBuffer, sameShift⟩
      rw [ends_pure]
      exact ⟨rfl, sameBuffer, sameShift⟩

/-- The result of a read on its way through `vfs_sys_read`. -/
def Delivers (entries : List Entry) (memory : Memory) (vfs : Vfs) (fd : Int) (buffer sz : Nat)
    (bytes : List UInt8) (after : Vfs) : Prop :=
  bytes = delivered entries memory vfs fd buffer sz ∧ Bookkeeping vfs after ∧
    listing after.tarfs.files = listing vfs.tarfs.files

theorem ends_devfsRead_delivers (path : List UInt8) (buffer sz : Nat) :
    Ends (devfsRead path buffer sz)
      (fun result after =>
        result.2 = (if buffer = 0 then [] else deviceBytes vfs.keyboard path sz) ∧
        Bookkeeping vfs after ∧ after.tarfs = vfs.tarfs)
      (fun _ _ => False) vfs := by
  have same : Bookkeeping vfs vfs := ⟨rfl, rfl, rfl, rfl, rfl, rfl⟩
  rw [devfsRead, ends_ite, deviceBytes]
  split
  · rw [ends_pure]
    exact ⟨rfl, same, rfl⟩
  · cases devfsFindDev path with
    | none => exact (ends_pure ..).mpr ⟨rfl, same, rfl⟩
    | some device =>
      cases device with
      | keyboard =>
        rw [ends_bind, ends_runKeyboard]
        apply ends_mono (ends_keyboardRead sz vfs.keyboard) _ fun _ _ => id
        rintro _ after ⟨rfl, sameBuffer, sameShift⟩
        rw [ends_pure]
        exact ⟨rfl, ⟨rfl, rfl, rfl, rfl, sameBuffer, sameShift⟩, rfl⟩
      | _ => exact (ends_pure ..).mpr ⟨rfl, same, rfl⟩

theorem ends_readFile_null (path : List UInt8) (sz : Nat) (ptr fileSize : Int) (before : Tarfs) :
    Ends (readFile content path 0 sz ptr fileSize) (fun result _ => result.2 = [])
      (fun _ _ => True) before := by
  rw [readFile, ends_bind]
  apply ends_of_forall _ fun _ _ => trivial
  intro index found
  rw [ends_bind, ends_get, ends_ite]
  split
  · rw [ends_pure]
  · rw [ends_ite]
    split
    · rw [ends_pure]
    · rw [if_pos rfl, ends_throw]
      trivial

theorem ends_readHeaders_null (path : List UInt8) (sz fuel : Nat) (ptr : Int) (before : Tarfs) :
    Ends (readHeaders content path 0 sz fuel ptr) (fun result _ => result.2 = [])
      (fun _ _ => True) before := by
  induction fuel generalizing ptr before with
  | zero =>
    rw [readHeaders, ends_throw]
    trivial
  | succ fuel induction =>
    rw [readHeaders, ends_bind]
    apply ends_of_forall _ fun _ _ => trivial
    intro magic _
    rw [ends_ite]
    split
    · rw [ends_bind]
      apply ends_of_forall _ fun _ _ => trivial
      intro fileSize _
      rw [ends_bind]
      apply ends_of_forall _ fun _ _ => trivial
      intro same _
      rw [ends_ite]
      split
      · exact ends_readFile_null path sz ptr fileSize _
      · rw [ends_bind]
        apply ends_of_forall _ fun _ _ => trivial
        exact fun next _ => induction next _
    · rw [ends_pure]

theorem read_back_remaining {path : List UInt8} {sz : Nat} {before after : Tarfs}
    {result : Int × List UInt8} (back : ReadBack path sz before result after (headerFor path entries)) :
    result.2 = remaining entries before.files path sz ∧
      listing after.files = listing before.files := by
  unfold remaining dataAt
  cases header : headerFor path entries with
  | none =>
    rw [header] at back
    obtain ⟨rfl, sameFiles⟩ := back
    rw [sameFiles]
    refine ⟨?_, rfl⟩
    cases fileAt path before.files with
    | none => rfl
    | some file => simp [served]
  | some entry =>
    rw [header] at back
    obtain ⟨file, found, rfl, sameFiles⟩ := back
    rw [sameFiles, listing_set_pos, found]
    exact ⟨rfl, rfl⟩

theorem ends_tarfsRead_delivers (archive : Archive content entries)
    (enough : EnoughFuel fuel entries) (roomy : ∀ entry ∈ entries, Roomy entry.data.length)
    {path : List UInt8} (nonNul : ∀ byte ∈ path.tail, byte ≠ 0) (buffer sz : Nat) (before : Tarfs) :
    Ends (tarfsRead content fuel path buffer sz)
      (fun result after => result.2 =
          (if buffer = 0 then [] else remaining entries before.files path sz) ∧
        listing after.files = listing before.files)
      (fun _ _ => (if buffer = 0 then [] else remaining entries before.files path sz) = [])
      before := by
  have null : buffer = 0 → Ends (tarfsRead content fuel path buffer sz)
      (fun result _ => result.2 = []) (fun _ _ => True) before := by
    rintro rfl
    exact ends_readHeaders_null path sz fuel 0 before
  have walked := ends_readHeaders zero_block_ends path nonNul buffer sz entries fuel 0 before archive
    (within_anywhere entries 0) enough.1
  by_cases none : buffer = 0
  · simp only [if_pos none]
    apply ends_mono (ends_and walked (null none))
    · rintro result after ⟨⟨back, -⟩, nothing⟩
      exact ⟨nothing, (read_back_remaining back).2⟩
    · exact fun _ _ _ => trivial
  · simp only [if_neg none]
    apply ends_mono walked
    · rintro result after ⟨back, -⟩
      exact read_back_remaining back
    · rintro stop after ⟨wide | missing | null, -⟩
      · obtain ⟨entry, member, wide⟩ := wide
        exact absurd (roomy entry member) wide
      · rw [remaining, missing]
      · exact absurd null none

theorem ends_vfsSysRead_delivers (archive : Archive content entries)
    (enough : EnoughFuel fuel entries) (roomy : ∀ entry ∈ entries, Roomy entry.data.length)
    (buffer sz : Nat) :
    Ends (vfsSysRead content fuel memory fd buffer sz)
      (fun result after => Delivers entries memory vfs fd buffer sz result.2 after)
      (fun _ after => delivered entries memory vfs fd buffer sz = [] ∧ Bookkeeping vfs after)
      vfs := by
  have same : Bookkeeping vfs vfs := ⟨rfl, rfl, rfl, rfl, rfl, rfl⟩
  rw [vfsSysRead, ends_bind]
  apply ends_on_file
  · intro closed
    refine (ends_pure ..).mpr ⟨?_, same, rfl⟩
    rw [delivered, closed]
  · intro file found unnamed
    refine (ends_pure ..).mpr ⟨?_, same, rfl⟩
    rw [delivered, found]
    exact (if_pos (Or.inl unnamed)).symm
  · intro file found named
    have whole : delivered entries memory vfs fd buffer sz = if buffer = 0 then [] else
        match file.fs with
        | .dev => deviceBytes vfs.keyboard (locWoMnt memory .dev file.loc) sz
        | .init => remaining entries vfs.tarfs.files (locWoMnt memory .init file.loc) sz := by
      rw [delivered, found]
      simp only [named, false_or]
    unfold Delivers
    rw [whole, ends_bind, record, ends_modify]
    cases file.fs with
    | dev =>
      apply ends_mono (ends_devfsRead_delivers _ buffer sz) _ fun _ _ => False.elim
      rintro result after ⟨bytes, kept, sameTar⟩
      exact (ends_pure ..).mpr ⟨bytes, ⟨kept.openFiles, kept.files, kept.fbInfo, kept.hhdm,
        kept.inputBuffer, kept.shiftPressed⟩, congrArg (fun tarfs => listing tarfs.files) sameTar⟩
    | init =>
      have nonNul : ∀ byte ∈ (locWoMnt memory .init file.loc).tail, byte ≠ 0 := fun byte member =>
        c_string_non_nul _ _ _ byte (List.mem_of_mem_tail member)
      dsimp only
      rw [ends_runTar]
      apply ends_mono (ends_tarfsRead_delivers archive enough roomy nonNul buffer sz vfs.tarfs)
      · rintro result after ⟨bytes, sameList⟩
        exact (ends_pure ..).mpr ⟨bytes, ⟨rfl, rfl, rfl, rfl, rfl, rfl⟩, sameList⟩
      · exact fun _ _ nothing => ⟨nothing, rfl, rfl, rfl, rfl, rfl, rfl⟩

end Delivery

theorem ends_runVfs {Value : Type} {program : VfsM Value} {space : Space}
    {returned : Value → Space → Prop} {stopped : Stop → Space → Prop} :
    Ends (runVfs program) returned stopped space =
      Ends program (fun value vfs => returned value { space with vfs })
        (fun stop vfs => stopped stop { space with vfs }) space.vfs := by
  unfold Ends runVfs
  cases program space.vfs <;> rfl

theorem lands_of_lower {traps : Nat → Bool} {pdest : Nat} {bytes : List UInt8} (memory : Memory)
    (lower : pdest + bytes.length ≤ 2 ^ 47) : Lands traps memory pdest bytes := by
  intro i byte found _ kernel
  obtain ⟨small, -⟩ := List.getElem?_eq_some_iff.mp found
  omega

theorem pending_length (keyboard : Keyboard) (size : Nat) : (pending keyboard size).length = size := by
  induction size generalizing keyboard with
  | zero => rfl
  | succ size induction =>
    rw [pending]
    split <;> rw [List.length_cons, induction]

theorem delivered_length_le (entries : List Entry) (memory : Memory) (vfs : Vfs) (fd : Int)
    (buffer sz : Nat) : (delivered entries memory vfs fd buffer sz).length ≤ sz := by
  unfold delivered deviceBytes remaining
  split
  · exact Nat.zero_le _
  · split
    · exact Nat.zero_le _
    · split
      · split
        · exact (List.length_replicate ..).le
        · exact (pending_length ..).le
        · exact Nat.zero_le _
      · split
        · exact Nat.zero_le _
        · rw [served, List.length_take]
          omega

/-- However a read ends, it leaves the kernel's half as it was exactly when the bytes that the
descriptor delivers fall into the caller's half or are in their place already. -/
theorem read_keeps_kernel_half_iff {content : Content} {entries : List Entry} {fuel : Nat}
    (archive : Archive content entries) (enough : EnoughFuel fuel entries)
    (roomy : ∀ entry ∈ entries, Roomy entry.data.length) (traps : Nat → Bool)
    (rdi rsi rdx : Nat) (space : Space) :
    Ends (syscallRead content fuel traps rdi rsi rdx)
      (fun _ after => Bookkeeping space.vfs after.vfs ∧
        (KernelHalfKept space.memory after.memory ↔ Lands traps space.memory rsi
          (delivered entries space.memory space.vfs (toCInt rdi) rsi rdx)))
      (fun _ after => Bookkeeping space.vfs after.vfs ∧
        (KernelHalfKept space.memory after.memory ↔ Lands traps space.memory rsi
          (delivered entries space.memory space.vfs (toCInt rdi) rsi rdx))) space := by
  rw [syscallRead, ends_bind, ends_get, ends_bind, ends_runVfs]
  apply ends_mono (ends_vfsSysRead_delivers archive enough roomy rsi rdx)
  · rintro ⟨ret, bytes⟩ vfs ⟨whole, kept, -⟩
    dsimp only at whole ⊢
    have stores := @ends_storeBytes traps bytes rsi { space with vfs }
    rw [whole] at stores
    rw [ends_bind, whole]
    apply ends_mono stores
    · rintro _ after ⟨sameVfs, -, kernel⟩
      rw [ends_pure, sameVfs]
      exact ⟨kept, kernel⟩
    · rintro _ after ⟨sameVfs, -, kernel⟩
      rw [sameVfs]
      exact ⟨kept, kernel⟩
  · rintro stop vfs ⟨nothing, kept⟩
    rw [nothing]
    exact ⟨kept, iff_of_true (fun _ _ => rfl) fun _ _ impossible => (nomatch impossible)⟩

theorem zeros_hold (count : Nat) (ptr : Int) : HoldsAt (fun _ => 0) ptr (List.replicate count 0) := by
  induction count generalizing ptr with
  | zero => trivial
  | succ count induction => exact ⟨rfl, induction (ptr + 1)⟩

theorem empty_archive : Archive (fun _ => 0) [] := zeros_hold 512 0

theorem ends_zero_read {vfs : Vfs} {memory : Memory} (content : Content) (fuel : Nat)
    (found : openFile vfs 10 = some ⟨10, 4096, 0, 0, .dev⟩)
    (spelled : locWoMnt memory .dev 4096 = zeroTarget.path) {rsi : Nat} (some : rsi ≠ 0)
    (inside : rsi < 2 ^ 64) :
    Ends (syscallRead content fuel (fun _ => false) 10 rsi 1)
      (fun _ after => after.memory = Function.update memory rsi 0) (fun _ _ => False)
      ⟨vfs, memory⟩ := by
  have fd : toCInt (10 : Nat) = 10 := by decide
  rw [syscallRead, ends_bind, ends_get, ends_bind, ends_runVfs, vfsSysRead, ends_bind]
  apply ends_on_file
  · intro closed
    rw [fd, found] at closed
    cases closed
  · intro file same null
    rw [fd, found] at same
    cases same
    cases null
  · intro file same _
    rw [fd, found] at same
    cases same
    have device : devfsFindDev zeroTarget.path = Option.some .zero := by decide
    rw [ends_bind, record, ends_modify]
    dsimp only
    rw [devfsRead, if_neg some, spelled, device]
    simp only [ends_pure, ends_bind, List.replicate_one, storeBytes, if_neg (Nat.not_le.mpr inside),
      if_neg Bool.false_ne_true, ends_modify]

/-- A zero read into the caller's half. -/
theorem zero_read_stays_in_user_half :
    ∃ session ret after, play (fun _ => 0) 1 bootSession [.sysOpen zeroPath 1 4096 0 0] = some session ∧
      syscallRead (fun _ => 0) 1 (fun _ => false) 10 8192 1 ⟨session.vfs, zeroPath⟩ = .ok ret after ∧
      KernelHalfKept zeroPath after.memory := by
  obtain ⟨session, played, -, found⟩ := open_zero_plays (fun _ => 0) 1
  obtain ⟨ret, after, run, -⟩ := (ends_zero_read (fun _ => 0) 1 found zero_path_loc
    (show 8192 ≠ 0 by decide) (by decide)).exists_ok
  have kept := ((read_keeps_kernel_half_iff empty_archive ⟨by decide, List.forall_mem_nil _⟩
    (List.forall_mem_nil _) (fun _ => false) 10 8192 1 ⟨session.vfs, zeroPath⟩).returns run).2
  refine ⟨session, ret, after, played, run, ?_⟩
  dsimp only at kept
  rw [kept]
  have short := delivered_length_le [] zeroPath session.vfs (toCInt (10 : Nat)) 8192 1
  exact lands_of_lower zeroPath (Nat.le_trans (Nat.add_le_add_left short _) (by decide))

def kernelByte : Memory := Function.update zeroPath 0xFFFF800000000000 1

theorem kernel_byte_loc : locWoMnt kernelByte .dev 4096 = zeroTarget.path := by
  decide +kernel

/-- The zero device clears a byte of the kernel's half. -/
theorem zero_read_clears_kernel_byte :
    ∃ session ret after, play (fun _ => 0) 1 bootSession [.sysOpen zeroPath 1 4096 0 0] = some session ∧
      syscallRead (fun _ => 0) 1 (fun _ => false) 10 0xFFFF800000000000 1
        ⟨session.vfs, kernelByte⟩ = .ok ret after ∧
      ¬KernelHalfKept kernelByte after.memory := by
  obtain ⟨session, played, -, found⟩ := open_zero_plays (fun _ => 0) 1
  obtain ⟨ret, after, run, stored⟩ := (ends_zero_read (fun _ => 0) 1 found kernel_byte_loc
    (show 0xFFFF800000000000 ≠ 0 by decide) (by decide)).exists_ok
  refine ⟨session, ret, after, played, run, fun kept => ?_⟩
  have same := kept 0xFFFF800000000000 (by decide)
  rw [stored, Function.update_self, kernelByte, Function.update_self] at same
  exact absurd same (by decide)

end RiriaKernel.ReadCalls
