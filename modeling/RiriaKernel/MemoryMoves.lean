import RiriaKernel.KernelState

/-!
# Copies between ranges that may overlap

`memmove` reads and writes one memory byte by byte. It goes up when the source is above the
destination and down when it is below, so a byte of the source is overwritten only after it has
been read. Addresses are 64-bit words, and each one is computed from its index as the compiled
loop does.
-/

namespace RiriaKernel.MemoryMoves

open ByteMemory KernelState

/-- `pdest[i] = psrc[i]`. -/
def copyByte (dest src i : Nat) (memory : Memory) : Memory :=
  Function.update memory (add64 dest i) (memory (add64 src i))

/-- `for (size_t i = 0; i < n; i++)`, with `remaining` rounds to go at index `i`. -/
def copyUp (dest src : Nat) : (remaining i : Nat) → Memory → Memory
  | 0, _, memory => memory
  | remaining + 1, i, memory => copyUp dest src remaining (i + 1) (copyByte dest src i memory)

/-- `for (size_t i = n; i > 0; i--)`. -/
def copyDown (dest src : Nat) : (i : Nat) → Memory → Memory
  | 0, memory => memory
  | i + 1, memory => copyDown dest src i (copyByte dest src i memory)

/-- The pointer that is returned, and the memory behind the call. -/
def memmove (memory : Memory) (dest src n : Nat) : Nat × Memory :=
  if src > dest then (dest, copyUp dest src n 0 memory)
  else if src < dest then (dest, copyDown dest src n memory)
  else (dest, memory)

/-- The bytes from index `lower` up to index `upper` have been copied as they were `before`, and
nothing else has changed. -/
structure Copied (before : Memory) (dest src lower upper : Nat) (after : Memory) : Prop where
  bytes : ∀ i, lower ≤ i → i < upper → after (dest + i) = before (src + i)
  frame : ∀ position, position < dest + lower ∨ dest + upper ≤ position →
    after position = before position

theorem copied_none (memory : Memory) (dest src i : Nat) : Copied memory dest src i i memory :=
  ⟨fun _ above below => absurd below (Nat.not_lt.mpr above), fun _ _ => rfl⟩

section Loops

variable {before memory : Memory} {dest src n i lower upper : Nat}

theorem copy_byte_eq (destFits : dest + n ≤ 2 ^ 64) (srcFits : src + n ≤ 2 ^ 64) (inside : i < n) :
    copyByte dest src i memory = Function.update memory (dest + i) (memory (src + i)) := by
  have write : add64 dest i = dest + i := Nat.mod_eq_of_lt (by omega)
  have read : add64 src i = src + i := Nat.mod_eq_of_lt (by omega)
  rw [copyByte, write, read]

theorem Copied.write (copied : Copied before dest src lower upper memory) {low high : Nat}
    (unread : memory (src + i) = before (src + i))
    (here : ∀ k, low ≤ k → k < high → k = i ∨ (lower ≤ k ∧ k < upper)) (within : low ≤ i ∧ i < high)
    (wider : low ≤ lower ∧ upper ≤ high) :
    Copied before dest src low high
      (Function.update memory (dest + i) (memory (src + i))) := by
  constructor
  · intro k above below
    by_cases same : k = i
    · rw [same, Function.update_self, unread]
    · obtain ⟨later, earlier⟩ := (here k above below).resolve_left same
      rw [Function.update_of_ne (by omega), copied.bytes k later earlier]
  · intro position outside
    rw [Function.update_of_ne (by omega), copied.frame position (by omega)]

theorem copy_up_copied (destFits : dest + n ≤ 2 ^ 64) (srcFits : src + n ≤ 2 ^ 64)
    (above : dest < src) {remaining : Nat} (whole : i + remaining = n)
    (copied : Copied before dest src 0 i memory) :
    Copied before dest src 0 n (copyUp dest src remaining i memory) := by
  induction remaining generalizing i memory with
  | zero =>
    obtain rfl : i = n := whole
    exact copied
  | succ remaining induction =>
    have unread := copied.frame (src + i) (Or.inr (by omega))
    rw [copyUp, copy_byte_eq destFits srcFits (by omega)]
    apply induction (by omega)
    exact copied.write unread (fun k _ _ => by omega) (by omega) (by omega)

theorem copy_down_copied (destFits : dest + n ≤ 2 ^ 64) (srcFits : src + n ≤ 2 ^ 64)
    (below : src < dest) (inside : i ≤ n) (copied : Copied before dest src i n memory) :
    Copied before dest src 0 n (copyDown dest src i memory) := by
  induction i generalizing memory with
  | zero => exact copied
  | succ i induction =>
    have unread := copied.frame (src + i) (Or.inl (by omega))
    rw [copyDown, copy_byte_eq destFits srcFits (by omega)]
    apply induction (by omega)
    exact copied.write unread (fun k _ _ => by omega) (by omega) (by omega)

end Loops

/-- `memmove` copies all bytes at once, whatever the two ranges have in common. -/
theorem memmove_copies (memory : Memory) (dest src n : Nat) (destFits : dest + n ≤ 2 ^ 64)
    (srcFits : src + n ≤ 2 ^ 64) :
    (∀ i, i < n → (memmove memory dest src n).2 (dest + i) = memory (src + i)) ∧
    (∀ position, position < dest ∨ dest + n ≤ position →
      (memmove memory dest src n).2 position = memory position) ∧
    (memmove memory dest src n).1 = dest := by
  have moved : Copied memory dest src 0 n (memmove memory dest src n).2 ∧
      (memmove memory dest src n).1 = dest := by
    rw [memmove]
    rcases Nat.lt_trichotomy src dest with below | rfl | above
    · rw [if_neg (by omega), if_pos below]
      exact ⟨copy_down_copied destFits srcFits below (Nat.le_refl _) (copied_none _ _ _ _), rfl⟩
    · -- nothing is copied, and every byte is where it belongs
      rw [if_neg (Nat.lt_irrefl _), if_neg (Nat.lt_irrefl _)]
      exact ⟨⟨fun _ _ _ => rfl, fun _ _ => rfl⟩, rfl⟩
    · rw [if_pos above]
      exact ⟨copy_up_copied destFits srcFits above (Nat.zero_add n) (copied_none _ _ _ _), rfl⟩
  obtain ⟨copied, returned⟩ := moved
  exact ⟨fun i inside => copied.bytes i (Nat.zero_le _) inside, copied.frame, returned⟩

/-- Four bytes moved up by two, into the middle of their own range. -/
theorem overlapping_bytes_moved : 3 + 4 ≤ 2 ^ 64 ∧ 1 + 4 ≤ 2 ^ 64 ∧
    ∀ i, i < 4 → (memmove UInt8.ofNat 3 1 4).2 (3 + i) = UInt8.ofNat (1 + i) :=
  ⟨by decide, by decide, (memmove_copies UInt8.ofNat 3 1 4 (by decide) (by decide)).1⟩

/-! ## The loop of `memcpy` on the same ranges -/

section Agreement

variable {memory left right : Memory} {dest src n i : Nat}

theorem Copied.unique (first : Copied memory dest src 0 n left)
    (second : Copied memory dest src 0 n right) : left = right := by
  funext position
  by_cases inside : dest ≤ position ∧ position < dest + n
  · obtain ⟨i, rfl⟩ := Nat.exists_eq_add_of_le inside.1
    rw [first.bytes i (Nat.zero_le _) (by omega), second.bytes i (Nat.zero_le _) (by omega)]
  · rw [first.frame position (by omega), second.frame position (by omega)]

theorem memmove_copied (destFits : dest + n ≤ 2 ^ 64) (srcFits : src + n ≤ 2 ^ 64) :
    Copied memory dest src 0 n (memmove memory dest src n).2 := by
  rw [memmove]
  split_ifs with above below
  · exact copy_up_copied destFits srcFits above (Nat.zero_add n) (copied_none _ _ _ _)
  · exact copy_down_copied destFits srcFits below (Nat.le_refl _) (copied_none _ _ _ _)
  · obtain rfl : src = dest := by omega
    exact ⟨fun _ _ _ => rfl, fun _ _ => rfl⟩

theorem memcpy_copied (apart : dest ≤ src ∨ src + n ≤ dest) :
    Copied memory dest src 0 n (memcpy memory dest src n) := by
  induction n with
  | zero => exact copied_none _ _ _ _
  | succ n induction =>
    have copied := induction (by omega)
    have unread := copied.frame (src + n) (by omega)
    exact copied.write unread (fun k _ _ => by omega) (by omega) (by omega)

theorem memcpy_apply_written (inside : i < n) :
    memcpy memory dest src n (dest + i) = memcpy memory dest src i (src + i) := by
  induction n with
  | zero => omega
  | succ n induction =>
    rw [memcpy]
    by_cases last : i = n
    · rw [last, Function.update_self]
    · rw [Function.update_of_ne (by omega), induction (by omega)]

end Agreement

/-- `memcpy` does the work of `memmove` exactly where its destination does not start inside the
source: there, the first byte it has written is read again as a byte of the source. -/
theorem memcpy_moves_iff (dest src n : Nat) (destFits : dest + n ≤ 2 ^ 64)
    (srcFits : src + n ≤ 2 ^ 64) :
    (∀ memory, memcpy memory dest src n = (memmove memory dest src n).2) ↔
      dest ≤ src ∨ src + n ≤ dest := by
  constructor
  · intro same
    by_contra inside
    obtain ⟨gap, rfl⟩ : ∃ gap, dest = src + gap := ⟨dest - src, by omega⟩
    have moved := (@memmove_copied (Function.update (fun _ => 0) src 1) _ _ _ destFits
      srcFits).bytes gap (Nat.zero_le _) (by omega)
    -- byte `gap` of the source is byte 0 of the destination, which is written first
    rw [← same, memcpy_apply_written (by omega)] at moved
    have first := @memcpy_apply_written (Function.update (fun _ => 0) src 1) (src + gap) src gap 0
      (by omega)
    rw [Nat.add_zero, moved, memcpy, Nat.add_zero, Function.update_self,
      Function.update_of_ne (by omega)] at first
    exact absurd first (by decide)
  · intro apart memory
    exact (memcpy_copied apart).unique (memmove_copied destFits srcFits)

theorem memcpy_moves_down : memcpy UInt8.ofNat 1 3 4 = (memmove UInt8.ofNat 1 3 4).2 :=
  (memcpy_moves_iff 1 3 4 (by decide) (by decide)).mpr (by decide) UInt8.ofNat

end RiriaKernel.MemoryMoves
