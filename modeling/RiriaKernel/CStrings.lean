import Mathlib.Data.List.Basic
import RiriaKernel.ByteMemory

/-!
# Strings in memory

A C string is a run of bytes up to a zero byte. The loops that measure and compare such
strings are written as the C library has them, by pointers into one memory, and are related
here to the list of bytes before the terminator.
-/

namespace RiriaKernel.CStrings

open ByteMemory

def TextAt (memory : Memory) : (address : Nat) → List UInt8 → Prop
  | address, [] => memory address = 0
  | address, byte :: rest => memory address = byte ∧ byte ≠ 0 ∧ TextAt memory (address + 1) rest

instance decidableTextAt (memory : Memory) :
    (address : Nat) → (text : List UInt8) → Decidable (TextAt memory address text)
  | address, [] => inferInstanceAs (Decidable (memory address = 0))
  | address, byte :: rest =>
      have := decidableTextAt memory (address + 1) rest
      inferInstanceAs
        (Decidable (memory address = byte ∧ byte ≠ 0 ∧ TextAt memory (address + 1) rest))

/-- The pointer at which `while (*s) s++` stops. -/
def terminatorFrom (memory : Memory) : (fuel s : Nat) → Nat
  | 0, s => s
  | fuel + 1, s => if memory s = 0 then s else terminatorFrom memory fuel (s + 1)

/-- No string is longer than the address space. -/
def strlen (memory : Memory) (str : Nat) : Nat := terminatorFrom memory (2 ^ 64) str - str

/-- The index at which `while (i < n && s1[i] && s1[i] == s2[i]) i++` stops. -/
def differenceFrom (memory : Memory) (s1 s2 : Nat) : (remaining i : Nat) → Nat
  | 0, i => i
  | remaining + 1, i =>
      if memory (s1 + i) ≠ 0 ∧ memory (s1 + i) = memory (s2 + i) then
        differenceFrom memory s1 s2 remaining (i + 1)
      else i

def strncmp (memory : Memory) (s1 s2 n : Nat) : Int :=
  let i := differenceFrom memory s1 s2 n 0
  if i = n then 0 else (memory (s1 + i)).toNat - (memory (s2 + i)).toNat

section Text

variable {memory : Memory} {address other fuel : Nat} {text name : List UInt8}

theorem text_unique (first : TextAt memory address text) (second : TextAt memory address name) :
    text = name := by
  induction text generalizing address name with
  | nil =>
    cases name with
    | nil => rfl
    | cons byte rest => exact absurd (second.1.symm.trans first) second.2.1
  | cons byte rest induction =>
    cases name with
    | nil => exact absurd (first.1.symm.trans second) first.2.1
    | cons byte' rest' => rw [← first.1, ← second.1, induction first.2.2 second.2.2]

theorem text_drop {count : Nat} (held : TextAt memory address text) (inside : count ≤ text.length) :
    TextAt memory (address + count) (text.drop count) := by
  induction count generalizing address text with
  | zero => exact held
  | succ count induction =>
    cases text with
    | nil => exact absurd inside (Nat.not_succ_le_zero _)
    | cons byte rest =>
      have later := induction held.2.2 (Nat.le_of_succ_le_succ inside)
      rwa [Nat.add_assoc, Nat.add_comm 1 count] at later

theorem text_terminator (held : TextAt memory address text) (short : text.length < fuel) :
    terminatorFrom memory fuel address = address + text.length := by
  induction text generalizing address fuel with
  | nil =>
    cases fuel with
    | zero => exact absurd short (Nat.not_lt_zero _)
    | succ fuel => simp [terminatorFrom, show memory address = 0 from held]
  | cons byte rest induction =>
    cases fuel with
    | zero => exact absurd short (Nat.not_lt_zero _)
    | succ fuel =>
      have more : memory address ≠ 0 := held.1 ▸ held.2.1
      rw [terminatorFrom, if_neg more, induction held.2.2 (Nat.lt_of_succ_lt_succ short),
        List.length_cons]
      omega

theorem strlen_eq (held : TextAt memory address text) (short : text.length < 2 ^ 64) :
    strlen memory address = text.length := by
  rw [strlen, text_terminator held short, Nat.add_sub_cancel_left]

/-- Where the comparison stops is behind the common bytes: at the end exactly when the whole
second string begins the first. -/
theorem difference_eq_iff {i : Nat} (held : TextAt memory (address + i) text)
    (compared : TextAt memory (other + i) name) :
    differenceFrom memory address other name.length i = i + name.length ↔ name <+: text := by
  induction name generalizing i text with
  | nil => simp [differenceFrom]
  | cons byte rest induction =>
    have byteAt : memory (other + i) = byte := compared.1
    rw [List.length_cons, differenceFrom, byteAt]
    cases text with
    | nil =>
      have ended : memory (address + i) = 0 := held
      simp [ended]
    | cons head tail =>
      have headAt : memory (address + i) = head := held.1
      rw [headAt, List.cons_prefix_cons]
      by_cases same : head = byte
      · rw [if_pos ⟨held.2.1, same⟩, show i + (rest.length + 1) = i + 1 + rest.length by omega,
          induction held.2.2 compared.2.2]
        simp [same]
      · have stops : ¬(head ≠ 0 ∧ head = byte) := fun both => same both.2
        rw [if_neg stops]
        constructor
        · omega
        · exact fun begins => absurd begins.1.symm same

/-- Where the comparison stops early, the bytes differ: the second string has not ended, and
either the first one has or its byte is another one. -/
theorem difference_differs {i : Nat} (held : TextAt memory (address + i) text)
    (compared : TextAt memory (other + i) name)
    (early : differenceFrom memory address other name.length i ≠ i + name.length) :
    memory (address + differenceFrom memory address other name.length i) ≠
      memory (other + differenceFrom memory address other name.length i) := by
  induction name generalizing i text with
  | nil => exact absurd rfl early
  | cons byte rest induction =>
    rw [List.length_cons, differenceFrom] at early ⊢
    split
    · next same =>
        rw [if_pos same] at early
        cases text with
        | nil => exact absurd held same.1
        | cons head tail =>
          apply induction held.2.2 compared.2.2
          omega
    · next stops =>
        intro equal
        have nonzero : memory (address + i) ≠ 0 := by
          rw [equal, compared.1]
          exact compared.2.1
        exact stops ⟨nonzero, equal⟩

theorem strncmp_eq_zero_iff (held : TextAt memory address text)
    (compared : TextAt memory other name) :
    strncmp memory address other name.length = 0 ↔ name <+: text := by
  have whole := @difference_eq_iff memory address other text name 0 held compared
  rw [Nat.zero_add] at whole
  rw [← whole, strncmp]
  split
  · next all => simp [all]
  · next early =>
      have differs := @difference_differs memory address other text name 0 held compared
        (by rwa [Nat.zero_add])
      constructor
      · intro zero
        exact absurd (UInt8.toNat_inj.mp (by omega)) differs
      · exact fun all => absurd all early

end Text

end RiriaKernel.CStrings
