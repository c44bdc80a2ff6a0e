import Mathlib.Data.Nat.ModEq
import Mathlib.Logic.Function.Basic

/-!
# Byte-addressed memory

A memory is a total map from addresses to bytes. Words are little-endian, of any
width, so the 64-bit table entries and list words and the 16 and 32-bit fields of a
file header are read by one definition. The string routines are written as the byte
loops of the C library and proved equal to their range form.
-/

namespace RiriaKernel.ByteMemory

abbrev Memory := Nat → UInt8

def loadLE (memory : Memory) (address : Nat) : Nat → Nat
  | 0 => 0
  | width + 1 => (memory address).toNat + 256 * loadLE memory (address + 1) width

def storeLE (memory : Memory) (address value width : Nat) : Memory := fun position =>
  if address ≤ position ∧ position < address + width then
    UInt8.ofNat (value / 256 ^ (position - address))
  else memory position

def load64 (memory : Memory) (address : Nat) : Nat := loadLE memory address 8

def store64 (memory : Memory) (address value : Nat) : Memory := storeLE memory address value 8

theorem load_lt (memory : Memory) (address width : Nat) :
    loadLE memory address width < 256 ^ width := by
  induction width generalizing address with
  | zero => simp [loadLE]
  | succ width induction =>
    have low := (memory address).toNat_lt
    have high := induction (address + 1)
    rw [loadLE, pow_succ]
    omega

theorem load_congr {before after : Memory} {address width : Nat}
    (same : ∀ position, address ≤ position → position < address + width →
      after position = before position) :
    loadLE after address width = loadLE before address width := by
  induction width generalizing address with
  | zero => rfl
  | succ width induction =>
    rw [loadLE, loadLE, same address (Nat.le_refl _) (by omega),
      induction (fun position lower upper => same position (by omega) (by omega))]

theorem load_shifted {left right : Memory} {address other width : Nat}
    (same : ∀ index, index < width → left (address + index) = right (other + index)) :
    loadLE left address width = loadLE right other width := by
  induction width generalizing address other with
  | zero => rfl
  | succ width induction =>
    have first := same 0 (Nat.succ_pos _)
    rw [Nat.add_zero, Nat.add_zero] at first
    have rest : loadLE left (address + 1) width = loadLE right (other + 1) width := by
      apply induction
      intro index inside
      have later := same (index + 1) (Nat.succ_lt_succ inside)
      rwa [Nat.add_comm index, ← Nat.add_assoc, ← Nat.add_assoc] at later
    rw [loadLE, loadLE, first, rest]

theorem load_eq_zero {memory : Memory} {address width : Nat}
    (cleared : ∀ position, address ≤ position → position < address + width →
      memory position = 0) :
    loadLE memory address width = 0 := by
  induction width generalizing address with
  | zero => rfl
  | succ width induction =>
    rw [loadLE, cleared address (Nat.le_refl _) (by omega),
      induction (fun position lower upper => cleared position (by omega) (by omega))]
    rfl

theorem load_of_digits {memory : Memory} {address value width : Nat}
    (digits : ∀ index, index < width →
      memory (address + index) = UInt8.ofNat (value / 256 ^ index)) :
    loadLE memory address width = value % 256 ^ width := by
  induction width generalizing address value with
  | zero => simp [loadLE, Nat.mod_one]
  | succ width induction =>
    have low : memory address = UInt8.ofNat value := by
      simpa using digits 0 (Nat.succ_pos _)
    have high : loadLE memory (address + 1) width = value / 256 % 256 ^ width := by
      apply induction
      intro index bound
      have digit := digits (index + 1) (by omega)
      rwa [pow_succ', ← Nat.div_div_eq_div_mul,
        show address + (index + 1) = address + 1 + index by omega] at digit
    rw [loadLE, low, high, pow_succ', Nat.mod_mul]
    simp

theorem load_store_same (memory : Memory) (address value width : Nat) :
    loadLE (storeLE memory address value width) address width = value % 256 ^ width := by
  apply load_of_digits
  intro index bound
  simp [storeLE, bound]

theorem store_apply_other {memory : Memory} {address value width position : Nat}
    (outside : position < address ∨ address + width ≤ position) :
    storeLE memory address value width position = memory position := by
  rw [storeLE, if_neg (by omega)]

theorem load_store_other {memory : Memory} {address value width other otherWidth : Nat}
    (apart : other + otherWidth ≤ address ∨ address + width ≤ other) :
    loadLE (storeLE memory address value width) other otherWidth =
      loadLE memory other otherWidth :=
  load_congr (fun _ lower upper => store_apply_other (by omega))

section Words

variable {memory before after : Memory} {address other value position : Nat}

theorem load64_lt (memory : Memory) (address : Nat) : load64 memory address < 2 ^ 64 := by
  have bound := load_lt memory address 8
  simpa [load64] using bound

theorem load64_congr
    (same : ∀ position, address ≤ position → position < address + 8 →
      after position = before position) :
    load64 after address = load64 before address :=
  load_congr same

theorem load64_eq_zero
    (cleared : ∀ position, address ≤ position → position < address + 8 → memory position = 0) :
    load64 memory address = 0 :=
  load_eq_zero cleared

theorem load64_store64 (bounded : value < 2 ^ 64) :
    load64 (store64 memory address value) address = value := by
  have stored := load_store_same memory address value 8
  rwa [Nat.mod_eq_of_lt (by simpa using bounded)] at stored

theorem load64_store64_other (apart : other + 8 ≤ address ∨ address + 8 ≤ other) :
    load64 (store64 memory address value) other = load64 memory other :=
  load_store_other apart

theorem store64_apply_other (outside : position < address ∨ address + 8 ≤ position) :
    store64 memory address value position = memory position :=
  store_apply_other outside

end Words

def memset (memory : Memory) (start : Nat) (byte : UInt8) : Nat → Memory
  | 0 => memory
  | count + 1 => Function.update (memset memory start byte count) (start + count) byte

theorem memset_apply (memory : Memory) (start : Nat) (byte : UInt8) (count position : Nat) :
    memset memory start byte count position =
      if start ≤ position ∧ position < start + count then byte else memory position := by
  induction count with
  | zero => rw [memset, if_neg (by omega)]
  | succ count induction =>
    rw [memset]
    by_cases last : position = start + count
    · subst last
      rw [Function.update_self, if_pos (by omega)]
    · rw [Function.update_of_ne last, induction]
      exact if_congr (by omega) rfl rfl

theorem memset_memset (memory : Memory) (start : Nat) (byte : UInt8) (count : Nat) :
    memset (memset memory start byte count) start byte count = memset memory start byte count := by
  funext position
  rw [memset_apply, memset_apply]
  split <;> rfl

/-- `memcpy` inside one memory: each byte is read after the bytes before it have been
written. -/
def memcpy (memory : Memory) (dest src : Nat) : Nat → Memory
  | 0 => memory
  | count + 1 =>
      Function.update (memcpy memory dest src count) (dest + count)
        (memcpy memory dest src count (src + count))

theorem memcpy_apply_outside (memory : Memory) (dest src count position : Nat)
    (outside : position < dest ∨ dest + count ≤ position) :
    memcpy memory dest src count position = memory position := by
  induction count with
  | zero => rfl
  | succ count induction =>
    rw [memcpy, Function.update_of_ne (by omega), induction (by omega)]

theorem memcpy_apply_inside (memory : Memory) (dest src count index : Nat)
    (apart : src + count ≤ dest ∨ dest + count ≤ src) (bound : index < count) :
    memcpy memory dest src count (dest + index) = memory (src + index) := by
  induction count with
  | zero => omega
  | succ count induction =>
    rw [memcpy]
    by_cases last : index = count
    · subst last
      rw [Function.update_self, memcpy_apply_outside _ _ _ _ _ (by omega)]
    · rw [Function.update_of_ne (by omega), induction (by omega) (by omega)]

/-- `memcpy` from a buffer that lies in another memory. -/
def copyIn (memory : Memory) (dest : Nat) (source : Nat → UInt8) : Nat → Memory
  | 0 => memory
  | count + 1 => Function.update (copyIn memory dest source count) (dest + count) (source count)

theorem copyIn_apply (memory : Memory) (dest : Nat) (source : Nat → UInt8)
    (count position : Nat) :
    copyIn memory dest source count position =
      if dest ≤ position ∧ position < dest + count then source (position - dest)
      else memory position := by
  induction count with
  | zero => rw [copyIn, if_neg (by omega)]
  | succ count induction =>
    rw [copyIn]
    by_cases last : position = dest + count
    · subst last
      rw [Function.update_self, if_pos (by omega)]
      congr 1
      omega
    · rw [Function.update_of_ne last, induction]
      exact if_congr (by omega) rfl rfl

end RiriaKernel.ByteMemory
