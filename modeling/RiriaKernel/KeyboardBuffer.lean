import Mathlib
import RiriaKernel.KernelState

/-!
# The keyboard buffer

The interrupt handler of `ps2.keyboard.c`, the buffer macros of `ps2.h` and the read
function of `/dev/keyboard`. The handler pushes a character for every scancode but zero,
a NUL where the table has none, so key releases fill the buffer as well; a read takes the
characters from the same end. Reads run with interrupts off, so the two never overlap.
-/

namespace RiriaKernel.KeyboardBuffer

open KernelState

def kbBufferSize : Nat := 1024

structure Keyboard where
  inputBuffer : Nat → UInt8
  inputBufferIndex : Nat
  shiftPressed : Bool

abbrev Driver := EStateM Stop Keyboard

def asciiSetNormal (scancode : UInt8) : UInt8 :=
  ([(0x02, 0x31), (0x03, 0x32), (0x04, 0x33), (0x05, 0x34), (0x06, 0x35), (0x07, 0x36),
    (0x08, 0x37), (0x09, 0x38), (0x0A, 0x39), (0x0B, 0x30), (0x0C, 0x2D), (0x0D, 0x3D),
    (0x10, 0x71), (0x11, 0x77), (0x12, 0x65), (0x13, 0x72), (0x14, 0x74), (0x15, 0x79),
    (0x16, 0x75), (0x17, 0x69), (0x18, 0x6F), (0x19, 0x70), (0x1A, 0x5B), (0x1B, 0x5D),
    (0x1E, 0x61), (0x1F, 0x73), (0x20, 0x64), (0x21, 0x66), (0x22, 0x67), (0x23, 0x68),
    (0x24, 0x6A), (0x25, 0x6B), (0x26, 0x6C), (0x27, 0x3B), (0x28, 0x27), (0x29, 0x60),
    (0x2C, 0x7A), (0x2D, 0x78), (0x2E, 0x63), (0x2F, 0x76), (0x30, 0x62), (0x31, 0x6E),
    (0x32, 0x6D), (0x33, 0x2C), (0x34, 0x2E), (0x35, 0x2F), (0x39, 0x20), (0x1C, 0x0A),
    (0x0E, 0x08)].lookup scancode).getD 0

def asciiSetShifted (scancode : UInt8) : UInt8 :=
  ([(0x02, 0x21), (0x03, 0x40), (0x04, 0x23), (0x05, 0x24), (0x06, 0x25), (0x07, 0x5E),
    (0x08, 0x26), (0x09, 0x2A), (0x0A, 0x28), (0x0B, 0x29), (0x0C, 0x5F), (0x0D, 0x2B),
    (0x10, 0x51), (0x11, 0x57), (0x12, 0x45), (0x13, 0x52), (0x14, 0x54), (0x15, 0x59),
    (0x16, 0x55), (0x17, 0x49), (0x18, 0x4F), (0x19, 0x50), (0x1A, 0x7B), (0x1B, 0x7D),
    (0x1E, 0x41), (0x1F, 0x53), (0x20, 0x44), (0x21, 0x46), (0x22, 0x47), (0x23, 0x48),
    (0x24, 0x4A), (0x25, 0x4B), (0x26, 0x4C), (0x27, 0x3A), (0x28, 0x22), (0x29, 0x7E),
    (0x2C, 0x5A), (0x2D, 0x58), (0x2E, 0x43), (0x2F, 0x56), (0x30, 0x42), (0x31, 0x4E),
    (0x32, 0x4D), (0x33, 0x3C), (0x34, 0x3E), (0x35, 0x3F), (0x39, 0x20), (0x1C, 0x0A),
    (0x0E, 0x08)].lookup scancode).getD 0

/-- `KB_PUSH`: the store is bounds-checked by the sanitizer, the assertion comes after it. -/
def kbPush (char : UInt8) : Driver PUnit := do
  let keyboard ← get
  if keyboard.inputBufferIndex < kbBufferSize then
    set { keyboard with
      inputBuffer := Function.update keyboard.inputBuffer keyboard.inputBufferIndex char
      inputBufferIndex := keyboard.inputBufferIndex + 1 }
    if keyboard.inputBufferIndex + 1 < kbBufferSize then return ⟨⟩
    else throw (.panic "Assertion failure")
  else throw (.panic "out of bounds detected")

def kbPop : Driver UInt8 := do
  let keyboard ← get
  if 0 < keyboard.inputBufferIndex then
    set { keyboard with inputBufferIndex := keyboard.inputBufferIndex - 1 }
    return keyboard.inputBuffer (keyboard.inputBufferIndex - 1)
  else return 0

/-- The device port is read only when the status port says that a byte is pending. -/
def readScancode (pending : Bool) (device : UInt8) : UInt8 := if pending then device else 0

def setsShift (scancode : UInt8) : Bool := scancode = 0x2A ∨ scancode = 0x36
def clearsShift (scancode : UInt8) : Bool := scancode = 0xAA ∨ scancode = 0xB6

def keyboardHandler (pending : Bool) (device : UInt8) : Driver PUnit := do
  let scancode := readScancode pending device
  if setsShift scancode then modify fun keyboard => { keyboard with shiftPressed := true }
  else if clearsShift scancode then modify fun keyboard => { keyboard with shiftPressed := false }
  let keyboard ← get
  if scancode ≠ 0 ∧ keyboard.shiftPressed then kbPush (asciiSetShifted scancode)
  else if scancode ≠ 0 then kbPush (asciiSetNormal scancode)

/-- `_keyboard_read`, with the bytes it stores. -/
def keyboardRead : (size : Nat) → Driver (List UInt8)
  | 0 => return []
  | size + 1 => do
      let char ← kbPop
      let rest ← keyboardRead size
      return char :: rest

/-! ## What is typed and what is delivered -/

def shiftAfter (shift : Bool) (scancode : UInt8) : Bool :=
  if setsShift scancode then true else if clearsShift scancode then false else shift

def decoded (shift : Bool) (scancode : UInt8) : UInt8 :=
  if shift then asciiSetShifted scancode else asciiSetNormal scancode

/-- The characters of a sequence of scancodes, from a given shift state. -/
def typedFrom : (shift : Bool) → List UInt8 → List UInt8
  | _, [] => []
  | shift, scancode :: rest =>
      decoded (shiftAfter shift scancode) scancode :: typedFrom (shiftAfter shift scancode) rest

def nonNul (chars : List UInt8) : List UInt8 := chars.filter (· ≠ 0)

inductive Event
  | interrupt (pending : Bool) (device : UInt8)
  | read (size : Nat)

structure Session where
  keyboard : Keyboard
  scancodes : List UInt8
  delivered : List UInt8

/-- A session is followed up to the first overflow. The panic there may end only the process that
runs, and the driver would then go on with an index behind the buffer. -/
def stepEvent (session : Session) : Event → Option Session
  | .interrupt pending device =>
      match keyboardHandler pending device session.keyboard with
      | .ok _ keyboard => some { session with
          keyboard
          scancodes := session.scancodes ++ [readScancode pending device] }
      | .error _ _ => none
  | .read size =>
      match keyboardRead size session.keyboard with
      | .ok chars keyboard => some { session with
          keyboard
          delivered := session.delivered ++ chars }
      | .error _ _ => none

def booted : Session where
  keyboard := { inputBuffer := fun _ => 0, inputBufferIndex := 0, shiftPressed := false }
  scancodes := []
  delivered := []

def play (events : List Event) : Option Session := events.foldlM stepEvent booted

/-- The characters delivered so far are the first ones typed. -/
def InOrder (session : Session) : Prop :=
  nonNul session.delivered <+: nonNul (typedFrom false session.scancodes)

/-- An interrupt that can do no harm: there is room behind the character it pushes, and that
character is a NUL or the only one in the buffer, repeated or not. -/
def Harmless (keyboard : Keyboard) (scancode : UInt8) : Prop :=
  scancode ≠ 0 → keyboard.inputBufferIndex + 1 < kbBufferSize ∧
    (decoded (shiftAfter keyboard.shiftPressed scancode) scancode ≠ 0 →
      ∀ i, i < keyboard.inputBufferIndex → keyboard.inputBuffer i ≠ 0 →
        keyboard.inputBuffer i =
          decoded (shiftAfter keyboard.shiftPressed scancode) scancode)

def AllHarmless (events : List Event) : Prop :=
  ∀ earlier pending device, earlier ++ [.interrupt pending device] <+: events →
    ∀ session, play earlier = some session →
      Harmless session.keyboard (readScancode pending device)

/-! ## The buffer as a stack -/

/-- The first `count` characters of the buffer, the one pushed last in front. -/
def stacked (buffer : Nat → UInt8) : (count : Nat) → List UInt8
  | 0 => []
  | count + 1 => buffer count :: stacked buffer count

def waiting (keyboard : Keyboard) : List UInt8 :=
  stacked keyboard.inputBuffer keyboard.inputBufferIndex

theorem stacked_update (buffer : Nat → UInt8) (char : UInt8) {index count : Nat}
    (below : count ≤ index) : stacked (Function.update buffer index char) count = stacked buffer count := by
  induction count with
  | zero => rfl
  | succ count induction =>
    rw [stacked, stacked, induction (by omega), Function.update_of_ne (by omega)]

theorem mem_stacked {buffer : Nat → UInt8} {count : Nat} {char : UInt8} :
    char ∈ stacked buffer count ↔ ∃ i, i < count ∧ buffer i = char := by
  induction count with
  | zero => simp [stacked]
  | succ count induction =>
    rw [stacked, List.mem_cons, induction]
    constructor
    · intro found
      rcases found with last | ⟨i, bound, same⟩
      · exact ⟨count, by omega, last.symm⟩
      · exact ⟨i, by omega, same⟩
    · intro found
      obtain ⟨i, bound, same⟩ := found
      by_cases last : i = count
      · exact Or.inl (by rw [← same, last])
      · exact Or.inr ⟨i, by omega, same⟩

theorem mem_non_nul {chars : List UInt8} {char : UInt8} :
    char ∈ nonNul chars ↔ char ∈ chars ∧ char ≠ 0 := by
  simp [nonNul]

theorem non_nul_append (left right : List UInt8) :
    nonNul (left ++ right) = nonNul left ++ nonNul right := by
  simp [nonNul]

theorem non_nul_cons (char : UInt8) (chars : List UInt8) :
    nonNul (char :: chars) = (if char = 0 then [] else [char]) ++ nonNul chars := by
  by_cases nul : char = 0
  · simp [nonNul, nul]
  · simp [nonNul, nul]

/-- What a read of `size` bytes takes off a buffer of `index` characters. -/
def taken (buffer : Nat → UInt8) : (index size : Nat) → List UInt8
  | _, 0 => []
  | 0, size + 1 => 0 :: taken buffer 0 size
  | index + 1, size + 1 => buffer index :: taken buffer index size

theorem keyboard_read_eq (size : Nat) (keyboard : Keyboard) :
    keyboardRead size keyboard = .ok (taken keyboard.inputBuffer keyboard.inputBufferIndex size)
      { keyboard with inputBufferIndex := keyboard.inputBufferIndex - size } := by
  induction size generalizing keyboard with
  | zero =>
    cases keyboard
    rw [taken]
    rfl
  | succ size induction =>
    obtain ⟨buffer, index, shift⟩ := keyboard
    cases index with
    | zero =>
      have popped : kbPop ⟨buffer, 0, shift⟩ = .ok 0 ⟨buffer, 0, shift⟩ := rfl
      simp only [keyboardRead, bind, EStateM.bind, popped, induction, taken, Nat.zero_sub]
      rfl
    | succ index =>
      have popped : kbPop ⟨buffer, index + 1, shift⟩ =
          .ok (buffer index) ⟨buffer, index, shift⟩ := rfl
      simp only [keyboardRead, bind, EStateM.bind, popped, induction, taken,
        Nat.add_sub_add_right]
      rfl

theorem non_nul_taken (buffer : Nat → UInt8) (index size : Nat) :
    nonNul (taken buffer index size) ++ nonNul (stacked buffer (index - size)) =
      nonNul (stacked buffer index) := by
  induction size generalizing index with
  | zero => rw [taken, Nat.sub_zero]; rfl
  | succ size induction =>
    cases index with
    | zero =>
      have rest := induction 0
      rw [taken, non_nul_cons, if_pos rfl, List.nil_append, Nat.zero_sub]
      rwa [Nat.zero_sub] at rest
    | succ index =>
      rw [taken, stacked, non_nul_cons, non_nul_cons, List.append_assoc, Nat.add_sub_add_right,
        induction]

def pressed (keyboard : Keyboard) (scancode : UInt8) : Keyboard :=
  if scancode = 0 then keyboard
  else
    { inputBuffer := Function.update keyboard.inputBuffer keyboard.inputBufferIndex
        (decoded (shiftAfter keyboard.shiftPressed scancode) scancode)
      inputBufferIndex := keyboard.inputBufferIndex + 1
      shiftPressed := shiftAfter keyboard.shiftPressed scancode }

theorem keyboard_handler_eq (pending : Bool) (device : UInt8) (keyboard : Keyboard) :
    keyboardHandler pending device keyboard =
      if readScancode pending device = 0 then .ok ⟨⟩ keyboard
      else kbPush (decoded (shiftAfter keyboard.shiftPressed (readScancode pending device))
          (readScancode pending device))
        { keyboard with
          shiftPressed := shiftAfter keyboard.shiftPressed (readScancode pending device) } := by
  obtain ⟨buffer, index, shift⟩ := keyboard
  unfold keyboardHandler shiftAfter decoded
  generalize readScancode pending device = scancode
  by_cases zero : scancode = 0
  · subst zero
    rfl
  · rw [if_neg zero]
    by_cases sets : setsShift scancode = true
    · simp only [sets, if_true, zero, ne_eq, not_false_eq_true, true_and]
      rfl
    · by_cases clears : clearsShift scancode = true
      · simp only [sets, clears, if_true, zero, ne_eq, not_false_eq_true, true_and]
        rfl
      · cases shift with
        | true => simp only [sets, clears, zero, ne_eq, not_false_eq_true, true_and]; rfl
        | false => simp only [sets, clears, zero, ne_eq, not_false_eq_true, true_and]; rfl

theorem keyboard_handler_of_room {pending : Bool} {device : UInt8} {keyboard : Keyboard}
    (room : readScancode pending device ≠ 0 → keyboard.inputBufferIndex + 1 < kbBufferSize) :
    keyboardHandler pending device keyboard =
      .ok ⟨⟩ (pressed keyboard (readScancode pending device)) := by
  rw [keyboard_handler_eq, pressed]
  by_cases zero : readScancode pending device = 0
  · rw [if_pos zero, if_pos zero]
  · have fits := room zero
    have stores : keyboard.inputBufferIndex < kbBufferSize := by omega
    rw [if_neg zero, if_neg zero]
    unfold kbPush
    simp only [bind, EStateM.bind, get, getThe, MonadStateOf.get, EStateM.get, stores, fits, if_true]
    rfl

theorem keyboard_handler_of_full {pending : Bool} {device : UInt8} {keyboard : Keyboard}
    (pushes : readScancode pending device ≠ 0)
    (full : ¬keyboard.inputBufferIndex + 1 < kbBufferSize) :
    ∃ stop after, keyboardHandler pending device keyboard = .error stop after := by
  rw [keyboard_handler_eq, if_neg pushes]
  unfold kbPush
  by_cases stores : keyboard.inputBufferIndex < kbBufferSize
  · simp only [bind, EStateM.bind, get, getThe, MonadStateOf.get, EStateM.get, stores, full, if_true]
    exact ⟨_, _, rfl⟩
  · simp only [bind, EStateM.bind, get, getThe, MonadStateOf.get, EStateM.get, stores]
    exact ⟨_, _, rfl⟩

/-! ## Sequences of events -/

theorem decoded_zero (shift : Bool) : decoded shift 0 = 0 := by
  cases shift <;> rfl

theorem typed_from_append (shift : Bool) (scancodes : List UInt8) (scancode : UInt8) :
    typedFrom shift (scancodes ++ [scancode]) = typedFrom shift scancodes ++
      [decoded (shiftAfter (scancodes.foldl shiftAfter shift) scancode) scancode] := by
  induction scancodes generalizing shift with
  | nil => rfl
  | cons first rest induction => rw [List.cons_append, typedFrom, induction]; rfl

theorem play_append (events : List Event) (event : Event) :
    play (events ++ [event]) = (play events).bind fun session => stepEvent session event := by
  unfold play
  rw [List.foldlM_append]
  simp

theorem reverse_of_alike {chars : List UInt8} (alike : ∀ c ∈ chars, ∀ d ∈ chars, c = d) :
    chars.reverse = chars := by
  cases chars with
  | nil => rfl
  | cons char rest =>
    have repeated : char :: rest = List.replicate (rest.length + 1) char :=
      List.eq_replicate_iff.mpr ⟨rfl, fun other member => alike other member char List.mem_cons_self⟩
    rw [repeated, List.reverse_replicate]

/-- The characters delivered and those waiting make up what was typed, and those that wait
are all the same. -/
structure Queued (session : Session) : Prop where
  shift : session.keyboard.shiftPressed = session.scancodes.foldl shiftAfter false
  order : nonNul session.delivered ++ (nonNul (waiting session.keyboard)).reverse =
    nonNul (typedFrom false session.scancodes)
  alike : ∀ c ∈ nonNul (waiting session.keyboard), ∀ d ∈ nonNul (waiting session.keyboard), c = d

theorem queued_booted : Queued booted :=
  ⟨rfl, rfl, fun _ member => absurd member List.not_mem_nil⟩

theorem waiting_pressed {keyboard : Keyboard} {scancode : UInt8} :
    nonNul (waiting (pressed keyboard scancode)) =
      (if decoded (shiftAfter keyboard.shiftPressed scancode) scancode = 0 then []
        else [decoded (shiftAfter keyboard.shiftPressed scancode) scancode]) ++
        nonNul (waiting keyboard) := by
  unfold pressed
  by_cases zero : scancode = 0
  · rw [if_pos zero, zero, decoded_zero, if_pos rfl, List.nil_append]
  · rw [if_neg zero, ← non_nul_cons]
    simp only [waiting, stacked, Function.update_self, stacked_update _ _ (Nat.le_refl _)]

theorem pressed_shift {keyboard : Keyboard} {scancode : UInt8} :
    (pressed keyboard scancode).shiftPressed = shiftAfter keyboard.shiftPressed scancode := by
  unfold pressed
  by_cases zero : scancode = 0
  · rw [if_pos zero, zero]
    rfl
  · rw [if_neg zero]

section Steps

variable {session : Session} {pending : Bool} {device : UInt8}

def interrupted (session : Session) (scancode : UInt8) : Session :=
  { session with
    keyboard := pressed session.keyboard scancode
    scancodes := session.scancodes ++ [scancode] }

def readOff (session : Session) (size : Nat) : Session :=
  { session with
    keyboard := { session.keyboard with
      inputBufferIndex := session.keyboard.inputBufferIndex - size }
    delivered := session.delivered ++
      taken session.keyboard.inputBuffer session.keyboard.inputBufferIndex size }

theorem step_interrupt (room : readScancode pending device ≠ 0 →
      session.keyboard.inputBufferIndex + 1 < kbBufferSize) :
    stepEvent session (.interrupt pending device) =
      some (interrupted session (readScancode pending device)) := by
  rw [stepEvent, keyboard_handler_of_room room]
  rfl

theorem step_read (size : Nat) : stepEvent session (.read size) = some (readOff session size) := by
  rw [stepEvent, keyboard_read_eq]
  rfl

section

variable (queued : Queued session)

include queued

theorem Queued.typed (scancode : UInt8) :
    nonNul (typedFrom false (session.scancodes ++ [scancode])) =
      nonNul (typedFrom false session.scancodes) ++
        nonNul [decoded (shiftAfter session.keyboard.shiftPressed scancode) scancode] := by
  rw [typed_from_append, non_nul_append, queued.shift]

theorem Queued.interrupt {scancode : UInt8} (harmless : Harmless session.keyboard scancode) :
    Queued (interrupted session scancode) := by
  refine ⟨?_, ?_, ?_⟩
  · rw [interrupted, pressed_shift, queued.shift, List.foldl_append]
    rfl
  · have typed := queued.typed scancode
    rw [interrupted, waiting_pressed, typed, ← queued.order, non_nul_cons]
    split <;> simp [nonNul]
  · -- a new character is the one that is waiting already, if any is
    rw [interrupted, waiting_pressed]
    split
    · rw [List.nil_append]
      exact queued.alike
    · next char =>
        have pushes : scancode ≠ 0 := by
          intro zero
          rw [zero, decoded_zero] at char
          exact char rfl
        have same : ∀ c ∈ nonNul (waiting session.keyboard),
            c = decoded (shiftAfter session.keyboard.shiftPressed scancode) scancode := by
          intro c member
          obtain ⟨inside, nonzero⟩ := mem_non_nul.mp member
          obtain ⟨i, bound, rfl⟩ := mem_stacked.mp inside
          exact (harmless pushes).2 char i bound nonzero
        intro c first d second
        rw [List.singleton_append, List.mem_cons] at first second
        have left := first.elim id (same c)
        have right := second.elim id (same d)
        rw [left, right]

theorem Queued.read (size : Nat) : Queued (readOff session size) := by
  have split := non_nul_taken session.keyboard.inputBuffer session.keyboard.inputBufferIndex size
  have alike := queued.alike
  have order := queued.order
  rw [waiting, ← split] at alike order
  refine ⟨queued.shift, ?_, ?_⟩
  · rw [reverse_of_alike alike] at order
    have rest := reverse_of_alike fun c first d second =>
      alike c (List.mem_append_right _ first) d (List.mem_append_right _ second)
    rw [readOff, non_nul_append, waiting, rest, List.append_assoc]
    exact order
  · intro c first d second
    exact alike c (List.mem_append_right _ first) d (List.mem_append_right _ second)

theorem Queued.inOrder : InOrder session :=
  ⟨_, queued.order⟩

/-- Reading the whole buffer right after an interrupt shows whether it was harmless. -/
theorem Queued.harmless_of_inOrder {scancode : UInt8}
    (room : scancode ≠ 0 → session.keyboard.inputBufferIndex + 1 < kbBufferSize)
    (ordered : InOrder (readOff (interrupted session scancode)
      (interrupted session scancode).keyboard.inputBufferIndex)) :
    Harmless session.keyboard scancode := by
  intro pushes
  refine ⟨room pushes, ?_⟩
  intro char i bound nonzero
  have all := non_nul_taken (interrupted session scancode).keyboard.inputBuffer
    (interrupted session scancode).keyboard.inputBufferIndex
    (interrupted session scancode).keyboard.inputBufferIndex
  rw [Nat.sub_self, stacked] at all
  change _ ++ [] = nonNul (waiting (pressed session.keyboard scancode)) at all
  rw [List.append_nil, waiting_pressed, if_neg char] at all
  have typed := queued.typed scancode
  rw [← queued.order, reverse_of_alike queued.alike, non_nul_cons, if_neg char] at typed
  change nonNul (session.delivered ++ _) <+: nonNul (typedFrom false (session.scancodes ++ [scancode]))
    at ordered
  rw [non_nul_append, all, typed, List.append_assoc, List.prefix_append_right_inj] at ordered
  have member : session.keyboard.inputBuffer i ∈ nonNul (waiting session.keyboard) :=
    mem_non_nul.mpr ⟨mem_stacked.mpr ⟨i, bound, rfl⟩, nonzero⟩
  cases line : nonNul (waiting session.keyboard) with
  | nil => rw [line] at member; exact absurd member List.not_mem_nil
  | cons first rest =>
    rw [line, List.singleton_append, List.cons_append, List.cons_prefix_cons] at ordered
    have same := queued.alike _ member first (by rw [line]; exact List.mem_cons_self)
    rw [same, ordered.1]

end

end Steps

theorem AllHarmless.earlier {events earlier : List Event} (harmless : AllHarmless events)
    (shorter : earlier <+: events) : AllHarmless earlier :=
  fun before pending device inside => harmless before pending device (inside.trans shorter)

theorem play_of_harmless (events : List Event) (harmless : AllHarmless events) :
    ∃ session, play events = some session ∧ Queued session := by
  induction events using List.reverseRecOn with
  | nil => exact ⟨booted, rfl, queued_booted⟩
  | append_singleton events event induction =>
    obtain ⟨session, played, queued⟩ :=
      induction (harmless.earlier (List.prefix_append events [event]))
    rw [play_append, played, Option.bind_some]
    cases event with
    | read size => exact ⟨_, step_read size, queued.read size⟩
    | interrupt pending device =>
      have now := harmless events pending device (List.prefix_refl _) session played
      exact ⟨_, step_interrupt fun pushes => (now pushes).1, queued.interrupt now⟩

/-- A sequence of interrupts and reads keeps the keyboard a queue, wherever one reads in it,
exactly when every interrupt is harmless. -/
theorem keyboard_queue_iff (events : List Event) :
    (∀ earlier, earlier <+: events → ∀ size, ∃ session,
        play (earlier ++ [.read size]) = some session ∧ InOrder session) ↔ AllHarmless events := by
  constructor
  · intro ordered
    induction events using List.reverseRecOn with
    | nil =>
      intro earlier pending device inside
      have short := inside.length_le
      simp at short
    | append_singleton events event induction =>
      have before := induction fun earlier shorter =>
        ordered earlier (shorter.trans (List.prefix_append events [event]))
      intro earlier pending device inside session played
      rcases List.prefix_concat_iff.mp inside with whole | shorter
      · obtain ⟨rfl, same⟩ := List.append_inj' whole rfl
        obtain ⟨rfl⟩ := same
        obtain ⟨found, foundPlayed, queued⟩ := play_of_harmless _ before
        obtain rfl : session = found := Option.some.inj (played.symm.trans foundPlayed)
        have room : readScancode pending device ≠ 0 →
            session.keyboard.inputBufferIndex + 1 < kbBufferSize := by
          intro pushes
          by_contra full
          obtain ⟨stop, after, panics⟩ := keyboard_handler_of_full pushes full
          obtain ⟨last, lastPlayed, -⟩ := ordered _ (List.prefix_refl _) 0
          rw [play_append, play_append, played, Option.bind_some, stepEvent, panics] at lastPlayed
          cases lastPlayed
        obtain ⟨last, lastPlayed, lastOrder⟩ := ordered _ (List.prefix_refl _)
          (interrupted session (readScancode pending device)).keyboard.inputBufferIndex
        rw [play_append, play_append, played, Option.bind_some, step_interrupt room,
          Option.bind_some, step_read] at lastPlayed
        cases lastPlayed
        exact queued.harmless_of_inOrder room lastOrder
      · exact before earlier pending device shorter session played
  · intro harmless earlier shorter size
    obtain ⟨session, played, queued⟩ := play_of_harmless earlier (harmless.earlier shorter)
    refine ⟨readOff session size, ?_, (queued.read size).inOrder⟩
    rw [play_append, played, Option.bind_some, step_read]

/-- Typing `a` and then `b` before a read of two bytes delivers `b` first. -/
theorem keyboard_reverses :
    ∃ session, play [.interrupt true 0x1E, .interrupt true 0x30, .read 2] = some session ∧
      session.delivered = [0x62, 0x61] ∧ typedFrom false session.scancodes = [0x61, 0x62] ∧
      ¬InOrder session := by
  refine ⟨_, rfl, rfl, rfl, ?_⟩
  unfold InOrder
  decide

/-! ## What the keyboard is -/

/-- The keyboard as a reader sees it: what is typed goes on top, and a read takes from the top. -/
structure Stack where
  shift : Bool
  chars : List UInt8
  delivered : List UInt8

/-- A read beyond the last character gives NULs; a full stack overflows. -/
def Stack.step (stack : Stack) : Event → Option Stack
  | .interrupt pending device =>
      let scancode := readScancode pending device
      let shift := shiftAfter stack.shift scancode
      if scancode = 0 then some stack
      else if stack.chars.length + 1 < kbBufferSize then
        some { stack with shift, chars := decoded shift scancode :: stack.chars }
      else none
  | .read size => some { stack with
      chars := stack.chars.drop size
      delivered := stack.delivered ++ (stack.chars.take size ++
        List.replicate (size - stack.chars.length) 0) }

def Session.stack (session : Session) : Stack :=
  ⟨session.keyboard.shiftPressed, waiting session.keyboard, session.delivered⟩

theorem length_stacked (buffer : Nat → UInt8) (count : Nat) : (stacked buffer count).length = count := by
  induction count with
  | zero => rfl
  | succ count induction => rw [stacked, List.length_cons, induction]

theorem drop_stacked (buffer : Nat → UInt8) (index size : Nat) :
    (stacked buffer index).drop size = stacked buffer (index - size) := by
  induction size generalizing index with
  | zero => rfl
  | succ size induction =>
    cases index with
    | zero => rw [stacked, List.drop_nil, Nat.zero_sub, stacked]
    | succ index => rw [stacked, List.drop_succ_cons, induction, Nat.add_sub_add_right]

theorem taken_eq (buffer : Nat → UInt8) (index size : Nat) :
    taken buffer index size = (stacked buffer index).take size ++ List.replicate (size - index) 0 := by
  induction size generalizing index with
  | zero => rw [taken, List.take_zero, Nat.zero_sub]; rfl
  | succ size induction =>
    cases index with
    | zero =>
      have rest := induction 0
      rw [stacked, List.take_nil, List.nil_append, Nat.sub_zero] at rest
      rw [taken, rest, stacked, List.take_nil, List.nil_append, Nat.sub_zero, List.replicate_succ]
    | succ index =>
      rw [taken, induction, stacked, List.take_succ_cons, List.cons_append, Nat.add_sub_add_right]

theorem stack_step (session : Session) (event : Event) :
    (stepEvent session event).map Session.stack = session.stack.step event := by
  cases event with
  | read size =>
    rw [step_read, Option.map_some, Stack.step, Session.stack, readOff, taken_eq]
    simp only [Session.stack, waiting, drop_stacked, length_stacked]
  | interrupt pending device =>
    have count : session.stack.chars.length = session.keyboard.inputBufferIndex :=
      length_stacked _ _
    simp only [Stack.step, count]
    by_cases zero : readScancode pending device = 0
    · rw [if_pos zero, step_interrupt fun pushes => absurd zero pushes, zero, interrupted, pressed,
        if_pos rfl]
      rfl
    · rw [if_neg zero]
      by_cases room : session.keyboard.inputBufferIndex + 1 < kbBufferSize
      · rw [if_pos room, step_interrupt fun _ => room, interrupted, pressed, if_neg zero]
        simp only [Option.map_some, Session.stack, waiting, stacked, Function.update_self,
          stacked_update _ _ (Nat.le_refl _)]
      · obtain ⟨stop, after, panics⟩ := keyboard_handler_of_full zero room
        rw [if_neg room, stepEvent, panics]
        rfl

/-- Until the first overflow, any sequence of interrupts and reads makes the buffer, its index and
the shift state behave as a stack of at most 1023 characters, and it overflows where the stack
does. -/
theorem keyboard_refines_stack (events : List Event) :
    (play events).map Session.stack = events.foldlM Stack.step ⟨false, [], []⟩ := by
  have simulates : ∀ session : Session, (events.foldlM stepEvent session).map Session.stack =
      events.foldlM Stack.step session.stack := by
    induction events with
    | nil => exact fun _ => rfl
    | cons event rest induction =>
      intro session
      rw [List.foldlM_cons, List.foldlM_cons, ← stack_step]
      cases stepEvent session event with
      | none => rfl
      | some next => exact induction next
  exact simulates booted

end RiriaKernel.KeyboardBuffer
