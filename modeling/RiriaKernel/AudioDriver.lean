import RiriaKernel.UserProcesses

/-!
# The sound driver

`ac97.c` and the write function of `/dev/audio`. Bytes are collected in a staging buffer and
copied to one of 32 DMA buffers whenever the staging buffer is full. The card is known to the
driver through three registers of its output channel: the index of the buffer it plays, the
last valid index and the control byte. The first one moves on its own, so every read of it is
a read of the state at that moment.
-/

namespace RiriaKernel.AudioDriver

open ByteMemory HaltingPrograms KernelState
open UserProcesses (toInt)

def ac97Buffers : Nat := 32

def ac97BufferSize : Nat := 128000

/-- Why a call does not return: `panic`, or a spin on the driver's own latch. -/
inductive Halt
  | panic (message : String)
  | spin
  deriving DecidableEq, Repr

/-- `data i` is what `buffers[i].data` points to. -/
structure Ac97 where
  initialized : Bool
  locked : Bool
  entry : Nat
  data : Nat → Memory
  tempBuffer : Memory
  tempBufferCount : Nat
  currentIndex : Nat
  lastValidIndex : Nat
  control : UInt8

abbrev Audio := EStateM Halt Ac97

/-- The count of free buffers as both callers compute it, in a `uint8_t`. -/
def bufferLeft (entry readPtr : Nat) : Nat :=
  if readPtr ≤ entry then
    let left := (ac97Buffers - entry) % 2 ^ 8
    if readPtr = 0 ∧ 0 < left then left - 1 else left
  else (readPtr - entry - 1) % 2 ^ 8

def ac97CanWrite : Audio Bool := do
  let driver ← get
  if driver.initialized = false then return false
  else return decide (0 < bufferLeft driver.entry driver.currentIndex)

def ac97Flush : Audio PUnit := do
  let driver ← get
  if driver.initialized = false then return ⟨⟩
  else if driver.control &&& 1 ≠ 0 then return ⟨⟩
  else set { driver with control := driver.control ||| 1 }

/-- `buf` is given by its bytes. -/
def ac97WriteBuffer (buf : Nat → UInt8) (sz : Nat) : Audio Bool := do
  let driver ← get
  if driver.initialized = false then return false
  else if ac97BufferSize < sz then throw (.panic "Assertion failure")
  else if driver.locked then throw .spin
  else
    set { driver with locked := true }
    if bufferLeft driver.entry driver.currentIndex = 0 then throw (.panic "no buffers left!")
    else
      modify fun driver => { driver with
        data := Function.update driver.data driver.entry
          (memset (driver.data driver.entry) 0 0 ac97BufferSize) }
      if sz = 0 then throw (.panic "Assertion failure")
      else
        modify fun driver => { driver with
          data := Function.update driver.data driver.entry
            (copyIn (driver.data driver.entry) 0 buf sz)
          lastValidIndex := (driver.entry + ac97Buffers - 1) % ac97Buffers
          entry := (driver.entry + 1) % ac97Buffers }
        ac97Flush
        modify fun driver => { driver with locked := false }
        return true

/-- `buf` is an address in the caller's memory; the copy asserts that it is not null and that
the count is not zero. -/
def ac97WritePcm (memory : Memory) (buf sz : Nat) : Audio Int := do
  let driver ← get
  if driver.initialized = false then return 0
  else
    let bytesWritten := min sz (sub64 ac97BufferSize driver.tempBufferCount)
    if buf = 0 ∨ bytesWritten = 0 then throw (.panic "Assertion failure")
    else
      let count := driver.tempBufferCount + bytesWritten
      let staged := copyIn driver.tempBuffer driver.tempBufferCount
        (fun index => memory (buf + index)) bytesWritten
      set { driver with tempBuffer := staged, tempBufferCount := count }
      if count < ac97BufferSize then return toInt bytesWritten
      else
        let submitted ← ac97WriteBuffer staged ac97BufferSize
        if submitted = false then return toInt bytesWritten
        else
          modify fun driver => { driver with tempBufferCount := 0 }
          return toInt bytesWritten

/-! ## The count of free buffers -/

def following (index : Nat) : Nat := (index + 1) % ac97Buffers

/-- The two cases of the formula agree: no buffer is left exactly when the card plays the one
behind the next to be written. -/
theorem buffer_left_eq_zero_iff {entry readPtr : Nat} (inside : entry < ac97Buffers)
    (index : readPtr < ac97Buffers) :
    bufferLeft entry readPtr = 0 ↔ readPtr = following entry := by
  unfold bufferLeft following
  unfold ac97Buffers at inside index ⊢
  split
  · dsimp only
    split <;> omega
  · omega

/-! ## One write -/

def submit (driver : Ac97) (block : Nat → UInt8) : Ac97 where
  initialized := driver.initialized
  locked := false
  entry := following driver.entry
  data := Function.update driver.data driver.entry
    (copyIn (memset (driver.data driver.entry) 0 0 ac97BufferSize) 0 block ac97BufferSize)
  tempBuffer := driver.tempBuffer
  tempBufferCount := driver.tempBufferCount
  currentIndex := driver.currentIndex
  lastValidIndex := (driver.entry + ac97Buffers - 1) % ac97Buffers
  control := if driver.control &&& 1 ≠ 0 then driver.control else driver.control ||| 1

section Writes

variable {driver : Ac97} {block : Nat → UInt8} {memory : Memory} {buf sz : Nat}

theorem ends_ac97WriteBuffer {returned : Bool → Ac97 → Prop} {stopped : Halt → Ac97 → Prop}
    (initialized : driver.initialized = true) (unlocked : driver.locked = false)
    (full : bufferLeft driver.entry driver.currentIndex = 0 →
      stopped (.panic "no buffers left!") { driver with locked := true })
    (free : bufferLeft driver.entry driver.currentIndex ≠ 0 → returned true (submit driver block)) :
    Ends (ac97WriteBuffer block ac97BufferSize) returned stopped driver := by
  have up : ¬driver.initialized = false := by rw [initialized]; decide
  have unlatched : ¬driver.locked = true := by rw [unlocked]; decide
  simp only [ac97WriteBuffer, ac97Flush, ends_bind, ends_get, ends_ite, ends_set, ends_modify,
    ends_pure, ends_throw]
  rw [if_neg up, if_neg (Nat.lt_irrefl _), if_neg unlatched]
  split
  · next left => exact full left
  · next left =>
      have result := free left
      rw [if_neg (by decide)]
      unfold submit at result
      split
      · next set =>
          rw [if_pos set] at result
          simpa [Function.update_idem, following] using result
      · next clear =>
          rw [if_neg clear] at result
          simpa [Function.update_idem, following] using result

def stage (driver : Ac97) (memory : Memory) (buf bytesWritten : Nat) : Ac97 where
  initialized := driver.initialized
  locked := driver.locked
  entry := driver.entry
  data := driver.data
  tempBuffer := copyIn driver.tempBuffer driver.tempBufferCount
    (fun index => memory (buf + index)) bytesWritten
  tempBufferCount := driver.tempBufferCount + bytesWritten
  currentIndex := driver.currentIndex
  lastValidIndex := driver.lastValidIndex
  control := driver.control

def accepted (driver : Ac97) (sz : Nat) : Nat := min sz (ac97BufferSize - driver.tempBufferCount)

theorem accepted_le_size (driver : Ac97) (sz : Nat) : accepted driver sz ≤ sz :=
  Nat.min_le_left _ _

theorem accepted_pos (room : driver.tempBufferCount < ac97BufferSize) (some : 0 < sz) :
    0 < accepted driver sz :=
  Nat.lt_min.mpr ⟨some, Nat.sub_pos_of_lt room⟩

theorem staged_count_le (room : driver.tempBufferCount ≤ ac97BufferSize) :
    driver.tempBufferCount + accepted driver sz ≤ ac97BufferSize := by
  unfold accepted
  omega

theorem toInt_accepted (driver : Ac97) (sz : Nat) :
    toInt (accepted driver sz) = (accepted driver sz : Nat) := by
  have small : accepted driver sz ≤ 128000 := (Nat.min_le_right _ _).trans (Nat.sub_le _ _)
  unfold toInt
  rw [Nat.mod_eq_of_lt (by omega), if_pos (by omega)]

theorem sub64_of_le {left right : Nat} (ordered : right ≤ left) (small : left < 2 ^ 64) :
    sub64 left right = left - right := by
  unfold sub64
  rw [Nat.mod_eq_of_lt (by omega : right < 2 ^ 64)]
  omega

/-- Every way a call of `ac97_write_pcm` ends while the driver is up. A latch that was left
behind by a stopped call is not reached: the staging buffer is then still full. -/
theorem ends_ac97WritePcm {returned : Int → Ac97 → Prop} {stopped : Halt → Ac97 → Prop}
    (initialized : driver.initialized = true)
    (unlocked : driver.tempBufferCount < ac97BufferSize → driver.locked = false)
    (room : driver.tempBufferCount ≤ ac97BufferSize)
    (refused : buf = 0 ∨ accepted driver sz = 0 → stopped (.panic "Assertion failure") driver)
    (staged : driver.tempBufferCount + accepted driver sz < ac97BufferSize →
      returned (accepted driver sz : Nat) (stage driver memory buf (accepted driver sz)))
    (full : ¬(buf = 0 ∨ accepted driver sz = 0) →
      driver.tempBufferCount + accepted driver sz = ac97BufferSize →
      bufferLeft driver.entry driver.currentIndex = 0 → stopped (.panic "no buffers left!")
        { stage driver memory buf (accepted driver sz) with locked := true })
    (submitted : driver.tempBufferCount + accepted driver sz = ac97BufferSize →
      bufferLeft driver.entry driver.currentIndex ≠ 0 → returned (accepted driver sz : Nat)
        { submit (stage driver memory buf (accepted driver sz))
            (stage driver memory buf (accepted driver sz)).tempBuffer with tempBufferCount := 0 }) :
    Ends (ac97WritePcm memory buf sz) returned stopped driver := by
  have taken : min sz (sub64 ac97BufferSize driver.tempBufferCount) = accepted driver sz := by
    rw [sub64_of_le room (by decide)]
    rfl
  have up : ¬driver.initialized = false := by rw [initialized]; decide
  simp only [ac97WritePcm, ends_bind, ends_get, ends_ite, ends_pure, ends_throw, ends_set, taken,
    toInt_accepted]
  rw [if_neg up]
  split
  · next bad => exact refused bad
  next good =>
  split
  · next short => exact staged short
  · next whole =>
      have before : driver.tempBufferCount < ac97BufferSize := by
        unfold accepted at good
        omega
      have exact : driver.tempBufferCount + accepted driver sz = ac97BufferSize :=
        Nat.le_antisymm (staged_count_le room) (Nat.not_lt.mp whole)
      refine ends_ac97WriteBuffer initialized (unlocked before) (full good exact) fun left => ?_
      simp only [ends_ite, ends_bind, ends_modify, ends_pure]
      rw [if_neg (by decide)]
      exact submitted exact left

end Writes

/-! ## The stream of samples -/

def bytes (memory : Memory) (start count : Nat) : List UInt8 :=
  (List.range count).map fun index => memory (start + index)

theorem bytes_length (memory : Memory) (start count : Nat) :
    (bytes memory start count).length = count := by
  simp [bytes]

theorem bytes_congr {left right : Memory} {start other count : Nat}
    (same : ∀ index, index < count → left (start + index) = right (other + index)) :
    bytes left start count = bytes right other count := by
  apply List.map_congr_left
  intro index member
  exact same index (List.mem_range.mp member)

theorem bytes_add (memory : Memory) (start first second : Nat) :
    bytes memory start (first + second) =
      bytes memory start first ++ bytes memory (start + first) second := by
  simp only [bytes, List.range_add, List.map_append, List.map_map]
  congr 1
  apply List.map_congr_left
  intro index _
  simp only [Function.comp_apply, Nat.add_assoc]

theorem bytes_staged (driver : Ac97) (memory : Memory) (buf count : Nat) :
    bytes (stage driver memory buf count).tempBuffer 0 (driver.tempBufferCount + count) =
      bytes driver.tempBuffer 0 driver.tempBufferCount ++ bytes memory buf count := by
  rw [bytes_add]
  congr 1
  · apply bytes_congr
    intro index _
    simp only [stage]
    rw [copyIn_apply, if_neg (by omega)]
  · apply bytes_congr
    intro index inside
    simp only [stage]
    rw [copyIn_apply, if_pos (by omega)]
    congr 1
    omega

theorem following_lt (index : Nat) : following index < ac97Buffers :=
  Nat.mod_lt _ (by decide)

theorem following_ne {index : Nat} (inside : index < ac97Buffers) : following index ≠ index := by
  intro same
  have bound : index < 32 := inside
  have wrapped : (index + 1) % 32 = index := same
  omega

def handed (before after : Ac97) : List (List UInt8) :=
  if after.entry = before.entry then []
  else [bytes (after.data before.entry) 0 ac97BufferSize]

theorem handed_stage (driver : Ac97) (memory : Memory) (buf count : Nat) :
    handed driver (stage driver memory buf count) = [] :=
  if_pos rfl

theorem handed_submit {driver : Ac97} (inside : driver.entry < ac97Buffers)
    (block : Nat → UInt8) (count : Nat) :
    handed driver { submit driver block with tempBufferCount := count } =
      [bytes block 0 ac97BufferSize] := by
  have moved : ¬(submit driver block).entry = driver.entry := following_ne inside
  have copied : bytes ((submit driver block).data driver.entry) 0 ac97BufferSize =
      bytes block 0 ac97BufferSize := by
    apply bytes_congr
    intro index bound
    simp only [submit, Function.update_self]
    rw [copyIn_apply, if_pos (by omega), Nat.sub_zero]
  rw [handed, if_neg moved, copied]

structure Installed (driver : Ac97) : Prop where
  initialized : driver.initialized = true
  unlocked : driver.locked = false
  entry : driver.entry = 0
  empty : driver.tempBufferCount = 0

structure Stream where
  driver : Ac97
  blocks : List (List UInt8)
  taken : List (List UInt8)

/-- If a call of this size completes a block, a buffer is free for it. -/
def FreeIfSubmitted (driver : Ac97) (sz : Nat) : Prop :=
  ac97BufferSize ≤ driver.tempBufferCount + sz → bufferLeft driver.entry driver.currentIndex ≠ 0

/-- Calls of `ac97_write_pcm`, between which the card moves its registers. -/
inductive StreamRun : Stream → Prop
  | install {driver : Ac97} (installed : Installed driver) : StreamRun ⟨driver, [], []⟩
  | card {stream : Stream} (currentIndex : Nat) (control : UInt8) (run : StreamRun stream) :
      StreamRun { stream with driver := { stream.driver with currentIndex, control } }
  | write {stream : Stream} {memory : Memory} {buf sz : Nat} {result : Int} {after : Ac97}
      (run : StreamRun stream) (some : 0 < sz) (free : FreeIfSubmitted stream.driver sz)
      (call : ac97WritePcm memory buf sz stream.driver = .ok result after) :
      StreamRun ⟨after, stream.blocks ++ handed stream.driver after,
        stream.taken ++ [bytes memory buf result.toNat]⟩

structure Flowing (stream : Stream) : Prop where
  initialized : stream.driver.initialized = true
  unlocked : stream.driver.locked = false
  entry : stream.driver.entry < ac97Buffers
  room : stream.driver.tempBufferCount < ac97BufferSize
  whole : ∀ block ∈ stream.blocks, block.length = ac97BufferSize
  law : stream.blocks.flatten ++
    bytes stream.driver.tempBuffer 0 stream.driver.tempBufferCount = stream.taken.flatten

theorem Flowing.ends_write {stream : Stream} (flowing : Flowing stream) (memory : Memory)
    (buf : Nat) {sz : Nat} (some : 0 < sz) (free : FreeIfSubmitted stream.driver sz) :
    Ends (ac97WritePcm memory buf sz)
      (fun result after => 0 < result ∧ result ≤ sz ∧
        Flowing ⟨after, stream.blocks ++ handed stream.driver after,
          stream.taken ++ [bytes memory buf result.toNat]⟩)
      (fun _ _ => buf = 0) stream.driver := by
  have positive := accepted_pos flowing.room some
  have bounded := accepted_le_size stream.driver sz
  have grown := bytes_staged stream.driver memory buf (accepted stream.driver sz)
  apply ends_ac97WritePcm flowing.initialized (fun _ => flowing.unlocked)
    (Nat.le_of_lt flowing.room)
  · intro refused
    exact refused.resolve_right (Nat.ne_of_gt positive)
  · intro short
    rw [handed_stage, List.append_nil]
    refine ⟨by omega, by omega, flowing.initialized, flowing.unlocked, flowing.entry, short,
      flowing.whole, ?_⟩
    rw [List.flatten_append, List.flatten_singleton, ← flowing.law, List.append_assoc]
    exact congrArg _ grown
  · intro _ complete left
    have needed : ac97BufferSize ≤ stream.driver.tempBufferCount + sz := by omega
    exact absurd left (free needed)
  · intro complete _
    have block := @handed_submit (stage stream.driver memory buf (accepted stream.driver sz))
      flowing.entry (stage stream.driver memory buf (accepted stream.driver sz)).tempBuffer 0
    have emptied : 0 < ac97BufferSize := by decide
    refine ⟨by omega, by omega, flowing.initialized, rfl, following_lt _, emptied, ?_, ?_⟩
    · intro other member
      rcases List.mem_append.mp member with earlier | last
      · exact flowing.whole other earlier
      · rw [show handed stream.driver _ = _ from block, List.mem_singleton] at last
        rw [last, bytes_length]
    · rw [show handed stream.driver _ = _ from block, List.flatten_append, List.flatten_append,
        List.flatten_singleton, List.flatten_singleton, ← flowing.law, List.append_assoc,
        List.append_assoc, ← complete, grown]
      simp [bytes]

theorem flowing_of_run {stream : Stream} (run : StreamRun stream) : Flowing stream := by
  induction run with
  | install installed =>
    refine ⟨installed.initialized, installed.unlocked, ?_, ?_, nofun, ?_⟩
    · rw [installed.entry]
      decide
    · rw [installed.empty]
      decide
    · simp [installed.empty, bytes]
  | card _ _ _ held =>
    exact ⟨held.initialized, held.unlocked, held.entry, held.room, held.whole, held.law⟩
  | write _ some free call held => exact ((held.ends_write _ _ some free).returns call).2.2

theorem Flowing.exists_write {stream : Stream} (flowing : Flowing stream) (memory : Memory)
    {buf sz : Nat} (address : buf ≠ 0) (some : 0 < sz) (free : FreeIfSubmitted stream.driver sz) :
    ∃ result after, ac97WritePcm memory buf sz stream.driver = .ok result after ∧
      0 < result ∧ result ≤ sz := by
  have ends := ends_mono (flowing.ends_write memory buf some free) (fun _ _ => id)
    (fun _ _ null => address null)
  obtain ⟨result, after, call, positive, bounded, -⟩ := ends.exists_ok
  exact ⟨result, after, call, positive, bounded⟩

/-- Between calls, what reached the DMA buffers followed by what is staged is what the calls
took; a call that finds a buffer free when it needs one returns how much it took. -/
theorem pcm_stream_kept {stream : Stream} (run : StreamRun stream) :
    stream.blocks.flatten ++
        bytes stream.driver.tempBuffer 0 stream.driver.tempBufferCount = stream.taken.flatten ∧
      (∀ block ∈ stream.blocks, block.length = ac97BufferSize) ∧
      stream.driver.tempBufferCount < ac97BufferSize ∧
      ∀ memory buf sz, buf ≠ 0 → 0 < sz → FreeIfSubmitted stream.driver sz →
        ∃ result after, ac97WritePcm memory buf sz stream.driver = .ok result after ∧
          0 < result ∧ result ≤ sz := by
  have flowing := flowing_of_run run
  exact ⟨flowing.law, flowing.whole, flowing.room,
    fun memory _ _ address some free => flowing.exists_write memory address some free⟩

def freshDriver : Ac97 where
  initialized := true
  locked := false
  entry := 0
  data := fun _ _ => 0
  tempBuffer := fun _ => 0
  tempBufferCount := 0
  currentIndex := 0
  lastValidIndex := 0
  control := 1

theorem fresh_driver_installed : Installed freshDriver := ⟨rfl, rfl, rfl, rfl⟩

/-- One call that fills the staging buffer. -/
theorem pcm_stream_kept_one_block : ∃ stream : Stream, StreamRun stream ∧
    stream.taken.length = 1 ∧
    stream.blocks.flatten ++
      bytes stream.driver.tempBuffer 0 stream.driver.tempBufferCount = stream.taken.flatten := by
  have start := StreamRun.install fresh_driver_installed
  have free : FreeIfSubmitted freshDriver ac97BufferSize := fun _ => by decide
  obtain ⟨result, after, call, -⟩ :=
    (flowing_of_run start).exists_write (fun _ => 7) (by decide : 4096 ≠ 0) (by decide) free
  have run := StreamRun.write start (by decide) free call
  exact ⟨_, run, rfl, (pcm_stream_kept run).1⟩

/-! ## Waiting for a buffer -/

/-- Where a call of `_audio_write` stands: nowhere, in the wait loop, or behind it. Behind the
loop, `seen` is the index that its last read returned and `moves` counts the card's moves
since. -/
inductive Phase
  | idle
  | waiting (memory : Memory) (buf sz : Nat)
  | writing (memory : Memory) (buf sz seen moves : Nat)

structure Sound where
  driver : Ac97
  phase : Phase

def Phase.moved : Phase → Phase
  | .idle => .idle
  | .waiting memory buf sz => .waiting memory buf sz
  | .writing memory buf sz seen moves => .writing memory buf sz seen (moves + 1)

def Sound.advance (sound : Sound) : Sound where
  driver := { sound.driver with currentIndex := following sound.driver.currentIndex }
  phase := sound.phase.moved

/-- `_audio_write`, cut at its reads of the card's index, and the moves of the card. A write
that panics kills its process, and the next call begins on what it left behind. -/
inductive Step : Sound → Sound → Prop
  | card (sound : Sound) : Step sound sound.advance
  | call {driver : Ac97} (memory : Memory) (buf sz : Nat) (available : driver.initialized = true) :
      Step ⟨driver, .idle⟩ ⟨driver, .waiting memory buf sz⟩
  | wait {driver after : Ac97} {memory : Memory} {buf sz : Nat}
      (read : ac97CanWrite driver = .ok false after) :
      Step ⟨driver, .waiting memory buf sz⟩ ⟨after, .waiting memory buf sz⟩
  | ready {driver after : Ac97} {memory : Memory} {buf sz : Nat}
      (read : ac97CanWrite driver = .ok true after) :
      Step ⟨driver, .waiting memory buf sz⟩ ⟨after, .writing memory buf sz after.currentIndex 0⟩
  | written {driver after : Ac97} {memory : Memory} {buf sz seen moves : Nat} {result : Int}
      (write : ac97WritePcm memory buf sz driver = .ok result after) :
      Step ⟨driver, .writing memory buf sz seen moves⟩ ⟨after, .idle⟩
  | killed {driver after : Ac97} {memory : Memory} {buf sz seen moves : Nat} {halt : Halt}
      (write : ac97WritePcm memory buf sz driver = .error halt after) :
      Step ⟨driver, .writing memory buf sz seen moves⟩ ⟨after, .idle⟩

/-- The card's index is the one that the wait saw, moved on. -/
def Phase.Tracks (driver : Ac97) : Phase → Prop
  | .idle => True
  | .waiting _ _ _ => True
  | .writing _ _ _ seen moves => driver.currentIndex = (seen + moves) % ac97Buffers

/-- What holds between any two steps. A stopped write leaves the latch set, but also a full
staging buffer. -/
structure Sounding (driver : Ac97) : Prop where
  initialized : driver.initialized = true
  entry : driver.entry < ac97Buffers
  index : driver.currentIndex < ac97Buffers
  room : driver.tempBufferCount ≤ ac97BufferSize
  unlocked : driver.tempBufferCount < ac97BufferSize → driver.locked = false

theorem Sounding.installed {driver : Ac97} (installed : Installed driver)
    (index : driver.currentIndex < ac97Buffers) : Sounding driver where
  initialized := installed.initialized
  entry := by
    rw [installed.entry]
    decide
  index := index
  room := by
    rw [installed.empty]
    exact Nat.zero_le _
  unlocked := fun _ => installed.unlocked

theorem Sounding.ends_write {driver : Ac97} (sounding : Sounding driver) (memory : Memory)
    (buf sz : Nat) :
    Ends (ac97WritePcm memory buf sz) (fun _ after => Sounding after)
      (fun _ after => Sounding after) driver := by
  have within := @staged_count_le driver sz sounding.room
  apply ends_ac97WritePcm sounding.initialized sounding.unlocked sounding.room
  · exact fun _ => sounding
  · intro short
    refine ⟨sounding.initialized, sounding.entry, sounding.index, Nat.le_of_lt short, fun _ => ?_⟩
    exact sounding.unlocked (Nat.lt_of_le_of_lt (Nat.le_add_right _ _) short)
  · intro _ complete _
    refine ⟨sounding.initialized, sounding.entry, sounding.index, Nat.le_of_eq complete, ?_⟩
    exact fun short => absurd complete (Nat.ne_of_lt short)
  · intro _ _
    exact ⟨sounding.initialized, following_lt _, sounding.index, Nat.zero_le _, fun _ => rfl⟩

theorem ends_ac97CanWrite {driver : Ac97} (initialized : driver.initialized = true) :
    Ends ac97CanWrite (fun ready after => after = driver ∧
        ready = decide (0 < bufferLeft driver.entry driver.currentIndex))
      (fun _ _ => False) driver := by
  have up : ¬driver.initialized = false := by rw [initialized]; decide
  simp only [ac97CanWrite, ends_bind, ends_get, ends_ite, ends_pure]
  rw [if_neg up]
  exact ⟨trivial, trivial⟩

theorem following_tracks {index seen moves : Nat} (tracks : index = (seen + moves) % ac97Buffers) :
    following index = (seen + (moves + 1)) % ac97Buffers := by
  rw [tracks, following, Nat.mod_add_mod, Nat.add_assoc]

theorem Sounding.step {before after : Sound} (step : Step before after)
    (sounding : Sounding before.driver) (tracks : before.phase.Tracks before.driver) :
    Sounding after.driver ∧ after.phase.Tracks after.driver := by
  cases step with
  | card =>
    refine ⟨⟨sounding.initialized, sounding.entry, following_lt _, sounding.room,
      sounding.unlocked⟩, ?_⟩
    obtain ⟨driver, phase⟩ := before
    cases phase with
    | idle => trivial
    | waiting memory buf sz => trivial
    | writing memory buf sz seen moves => exact following_tracks tracks
  | call memory buf sz available => exact ⟨sounding, trivial⟩
  | wait read =>
    obtain ⟨same, -⟩ := (ends_ac97CanWrite sounding.initialized).returns read
    subst same
    exact ⟨sounding, trivial⟩
  | ready read =>
    obtain ⟨same, -⟩ := (ends_ac97CanWrite sounding.initialized).returns read
    subst same
    exact ⟨sounding, (Nat.mod_eq_of_lt sounding.index).symm⟩
  | written write => exact ⟨(sounding.ends_write _ _ _).returns write, trivial⟩
  | killed write => exact ⟨(sounding.ends_write _ _ _).stops write, trivial⟩

theorem sounding_of_run {driver : Ac97} {sound : Sound} (sounding : Sounding driver)
    (run : Relation.ReflTransGen Step ⟨driver, .idle⟩ sound) :
    Sounding sound.driver ∧ sound.phase.Tracks sound.driver := by
  induction run with
  | refl => exact ⟨sounding, trivial⟩
  | tail _ step held => exact Sounding.step step held.1 held.2

def Completes (driver : Ac97) (buf sz : Nat) : Prop :=
  buf ≠ 0 ∧ driver.tempBufferCount < ac97BufferSize ∧
    ac97BufferSize ≤ driver.tempBufferCount + sz

theorem completes_iff {driver : Ac97} {buf sz : Nat}
    (room : driver.tempBufferCount ≤ ac97BufferSize) :
    Completes driver buf sz ↔ ¬(buf = 0 ∨ accepted driver sz = 0) ∧
      driver.tempBufferCount + accepted driver sz = ac97BufferSize := by
  unfold Completes accepted
  omega

theorem Sounding.no_buffers_iff {driver : Ac97} (sounding : Sounding driver) (memory : Memory)
    (buf sz : Nat) :
    (∃ after, ac97WritePcm memory buf sz driver = .error (.panic "no buffers left!") after) ↔
      Completes driver buf sz ∧ driver.currentIndex = following driver.entry := by
  rw [completes_iff sounding.room, ← buffer_left_eq_zero_iff sounding.entry sounding.index]
  constructor
  · rintro ⟨after, stopped⟩
    have cause : Ends (ac97WritePcm memory buf sz) (fun _ _ => True)
        (fun halt _ => halt = .panic "no buffers left!" →
          (¬(buf = 0 ∨ accepted driver sz = 0) ∧
            driver.tempBufferCount + accepted driver sz = ac97BufferSize) ∧
          bufferLeft driver.entry driver.currentIndex = 0) driver := by
      apply ends_ac97WritePcm sounding.initialized sounding.unlocked sounding.room
      · intro _ other
        exact absurd other (by decide)
      · exact fun _ => trivial
      · exact fun good complete left _ => ⟨⟨good, complete⟩, left⟩
      · exact fun _ _ => trivial
    exact cause.stops stopped rfl
  · rintro ⟨⟨good, complete⟩, left⟩
    have stops : Ends (ac97WritePcm memory buf sz) (fun _ _ => False)
        (fun halt _ => halt = .panic "no buffers left!") driver := by
      apply ends_ac97WritePcm sounding.initialized sounding.unlocked sounding.room
      · exact fun bad => absurd bad good
      · exact fun short => absurd complete (Nat.ne_of_lt short)
      · exact fun _ _ _ => rfl
      · exact fun _ free => absurd left free
    obtain ⟨halt, after, stopped, same⟩ := stops.exists_error
    exact ⟨after, same ▸ stopped⟩

/-- Behind the wait loop, the write panics for want of a buffer exactly when it completes a
block and the card has meanwhile moved to the buffer behind the next one to be written. -/
theorem wait_suffices_iff {driver start : Ac97} {memory : Memory} {buf sz seen moves : Nat}
    (installed : Installed start) (index : start.currentIndex < ac97Buffers)
    (run : Relation.ReflTransGen Step ⟨start, .idle⟩
      ⟨driver, .writing memory buf sz seen moves⟩) :
    (∀ after, ac97WritePcm memory buf sz driver ≠ .error (.panic "no buffers left!") after) ↔
      ¬(Completes driver buf sz ∧ (seen + moves) % ac97Buffers = following driver.entry) := by
  obtain ⟨sounding, tracks⟩ := sounding_of_run (Sounding.installed installed index) run
  have tracked : driver.currentIndex = (seen + moves) % ac97Buffers := tracks
  rw [← tracked, ← sounding.no_buffers_iff memory, not_exists]

def afterWait : Sound := ⟨freshDriver, .writing (fun _ => 7) 4096 ac97BufferSize 0 0⟩

theorem after_wait_reached : Relation.ReflTransGen Step ⟨freshDriver, .idle⟩ afterWait := by
  have called : Step ⟨freshDriver, .idle⟩ ⟨freshDriver, .waiting (fun _ => 7) 4096 ac97BufferSize⟩ :=
    .call _ _ _ rfl
  exact (Relation.ReflTransGen.single called).tail (.ready rfl)

/-- While the card stands still, the buffer that the wait found is there. -/
theorem wait_suffices_at_rest : ¬∃ after,
    ac97WritePcm (fun _ => 7) 4096 ac97BufferSize freshDriver =
      .error (.panic "no buffers left!") after := by
  intro panics
  obtain ⟨after, panicked⟩ := panics
  have condition := (wait_suffices_iff fresh_driver_installed (by decide) after_wait_reached).mpr
    (fun busy => absurd busy.2 (by decide))
  exact condition after panicked

/-- The card moves from the first buffer to the second between the two reads. -/
theorem wait_does_not_suffice : ∃ driver memory buf sz seen moves after,
    Relation.ReflTransGen Step ⟨freshDriver, .idle⟩ ⟨driver, .writing memory buf sz seen moves⟩ ∧
      ac97WritePcm memory buf sz driver = .error (.panic "no buffers left!") after := by
  have run := after_wait_reached.tail (.card afterWait)
  have sounding := (sounding_of_run (Sounding.installed fresh_driver_installed (by decide)) run).1
  have completes : Completes afterWait.advance.driver 4096 ac97BufferSize := by
    refine ⟨by decide, ?_, Nat.le_add_left _ _⟩
    decide
  obtain ⟨after, panicked⟩ :=
    (sounding.no_buffers_iff (fun _ => 7) 4096 ac97BufferSize).mpr ⟨completes, rfl⟩
  exact ⟨_, _, _, _, _, _, after, run, panicked⟩

end RiriaKernel.AudioDriver
