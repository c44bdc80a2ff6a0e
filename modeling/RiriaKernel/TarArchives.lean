import RiriaKernel.TarFiles

/-!
# Walks over a well-formed archive

What an archive of named entries looks like in memory, and what each function of `tarfs.c`
does on it. An entry is a header block with the NUL-terminated name at its start, eleven
octal digits of the data's length and the magic, followed by the data in whole blocks. The
other bytes of the headers and of the padding are arbitrary. Every lemma also says which
bytes were looked at, as a predicate `inside` of offsets.
-/

namespace RiriaKernel.TarArchives

open HaltingPrograms KernelState TarFiles

def HoldsAt (content : Content) : (ptr : Int) → List UInt8 → Prop
  | _, [] => True
  | ptr, byte :: rest => content ptr = byte ∧ HoldsAt content (ptr + 1) rest

instance decidableHoldsAt (content : Content) :
    (ptr : Int) → (bytes : List UInt8) → Decidable (HoldsAt content ptr bytes)
  | _, [] => .isTrue trivial
  | ptr, _ :: rest =>
      have := decidableHoldsAt content (ptr + 1) rest
      inferInstanceAs (Decidable (_ ∧ _))

def octal : (digits value : Nat) → List UInt8
  | 0, _ => []
  | digits + 1, value => UInt8.ofNat (48 + value / 8 ^ digits % 8) :: octal digits value

structure Entry where
  name : List UInt8
  data : List UInt8
  deriving DecidableEq, Repr

structure Stored (content : Content) (ptr : Int) (entry : Entry) : Prop where
  name : HoldsAt content ptr (entry.name ++ [0])
  nonNul : ∀ byte ∈ entry.name, byte ≠ 0
  size : HoldsAt content (ptr + 0x7c) (octal 11 entry.data.length)
  sizeFits : entry.data.length < 8 ^ 11
  magic : HoldsAt content (ptr + 257) ustar
  data : HoldsAt content (ptr + 512) entry.data

def span (length : Nat) : Nat := ((length + 511) / 512 + 1) * 512

def Chained (content : Content) (last : Int → Prop) : List Entry → (ptr : Int) → Prop
  | [], ptr => last ptr
  | entry :: rest, ptr =>
      Stored content ptr entry ∧ Chained content last rest (ptr + span entry.data.length)

/-- The bytes looked at in between are `inside`. -/
def Looked (inside : Int → Prop) (before after : Tarfs) : Prop :=
  ∀ offset ∈ after.reads, offset ∈ before.reads ∨ inside offset

theorem Looked.trans {inside : Int → Prop} {before middle after : Tarfs}
    (first : Looked inside before middle) (second : Looked inside middle after) :
    Looked inside before after := by
  intro offset member
  rcases second offset member with earlier | now
  · exact first offset earlier
  · exact Or.inr now

/-- Nothing but looking at bytes that are `inside`. -/
structure Touched (inside : Int → Prop) (before after : Tarfs) : Prop where
  files : after.files = before.files
  reads : Looked inside before after

theorem Touched.refl (inside : Int → Prop) (tarfs : Tarfs) : Touched inside tarfs tarfs :=
  ⟨rfl, fun _ member => Or.inl member⟩

theorem Touched.trans {inside : Int → Prop} {before middle after : Tarfs}
    (first : Touched inside before middle) (second : Touched inside middle after) :
    Touched inside before after :=
  ⟨second.files.trans first.files, first.reads.trans second.reads⟩

section Fetches

variable {content : Content} {inside : Int → Prop}

theorem ends_fetch {offset : Int} {returned : UInt8 → Tarfs → Prop}
    {stopped : Stop → Tarfs → Prop} (before : Tarfs) (within : inside offset)
    (fetched : ∀ after, Touched inside before after → returned (content offset) after) :
    Ends (fetch content offset) returned stopped before := by
  simp only [fetch, ends_bind, ends_modify]
  rw [ends_pure]
  refine fetched _ ⟨rfl, ?_⟩
  intro other member
  rcases List.mem_cons.mp member with same | earlier
  · rw [same]
    exact Or.inr within
  · exact Or.inl earlier

theorem within_tail {ptr : Int} {count : Nat}
    (within : ∀ i : Nat, i < count + 1 → inside (ptr + i)) (i : Nat) (bound : i < count) :
    inside (ptr + 1 + i) := by
  have shifted := within (i + 1) (by omega)
  rwa [show ptr + ((i + 1 : Nat) : Int) = ptr + 1 + i by omega] at shifted

theorem within_head {ptr : Int} {count : Nat}
    (within : ∀ i : Nat, i < count + 1 → inside (ptr + i)) : inside ptr := by
  have first := within 0 (Nat.succ_pos _)
  rwa [show ptr + ((0 : Nat) : Int) = ptr by omega] at first

theorem ends_memcmpEq (bytes : List UInt8) (ptr : Int) (before : Tarfs)
    (within : ∀ i : Nat, i < bytes.length → inside (ptr + i)) :
    Ends (memcmpEq content ptr bytes)
      (fun same after => (same = true ↔ HoldsAt content ptr bytes) ∧ Touched inside before after)
      (fun _ _ => False) before := by
  induction bytes generalizing ptr before with
  | nil =>
    simp only [memcmpEq, ends_pure, HoldsAt]
    exact ⟨by simp, Touched.refl _ _⟩
  | cons byte rest induction =>
    simp only [memcmpEq, ends_bind, HoldsAt]
    refine ends_fetch before (within_head within) fun after touched => ?_
    rw [ends_ite, ends_pure]
    split
    · next same =>
        apply ends_mono (induction (ptr + 1) after (within_tail within))
        · intro answer later compared
          rw [compared.1]
          exact ⟨by simp [same], touched.trans compared.2⟩
        · exact fun _ _ => id
    · next different => exact ⟨by simp [different], touched⟩

/-- Comparing the C string at `ptr` looks at no byte behind its terminator. -/
theorem ends_strcmpEq (name string : List UInt8) (ptr : Int) (before : Tarfs)
    (stored : HoldsAt content ptr (name ++ [0])) (nonNul : ∀ byte ∈ name, byte ≠ 0)
    (stringNonNul : ∀ byte ∈ string, byte ≠ 0)
    (within : ∀ i : Nat, i < name.length + 1 → inside (ptr + i)) :
    Ends (strcmpEq content ptr string)
      (fun same after => (same = true ↔ name = string) ∧ Touched inside before after)
      (fun _ _ => False) before := by
  induction string generalizing name ptr before with
  | nil =>
    simp only [strcmpEq, ends_bind]
    refine ends_fetch before (within_head within) fun after touched => ?_
    rw [ends_pure]
    refine ⟨?_, touched⟩
    cases name with
    | nil => simp [stored.1]
    | cons first rest => simp [stored.1, nonNul first List.mem_cons_self]
  | cons byte rest induction =>
    simp only [strcmpEq, ends_bind]
    refine ends_fetch before (within_head within) fun after touched => ?_
    rw [ends_ite, ends_pure]
    cases name with
    | nil =>
      have different : content ptr ≠ byte := by
        rw [stored.1]
        exact (stringNonNul byte List.mem_cons_self).symm
      rw [if_neg different]
      exact ⟨by simp, touched⟩
    | cons first others =>
      rw [stored.1]
      split
      · next same =>
          subst same
          apply ends_mono (induction others (ptr + 1) after stored.2
            (fun other member => nonNul other (List.mem_cons_of_mem _ member))
            (fun other member => stringNonNul other (List.mem_cons_of_mem _ member))
            (within_tail within))
          · intro answer later compared
            rw [compared.1]
            exact ⟨by simp, touched.trans compared.2⟩
          · exact fun _ _ => id
      · next different => exact ⟨by simp [different], touched⟩

theorem ends_readString (name : List UInt8) (fuel : Nat) (ptr : Int) (before : Tarfs)
    (enough : name.length < fuel) (stored : HoldsAt content ptr (name ++ [0]))
    (nonNul : ∀ byte ∈ name, byte ≠ 0)
    (within : ∀ i : Nat, i < name.length + 1 → inside (ptr + i)) :
    Ends (readString content fuel ptr)
      (fun string after => string = name ∧ Touched inside before after)
      (fun _ _ => False) before := by
  induction name generalizing fuel ptr before with
  | nil =>
    obtain ⟨steps, rfl⟩ := Nat.exists_eq_succ_of_ne_zero (Nat.ne_of_gt enough)
    simp only [readString, ends_bind]
    refine ends_fetch before (within_head within) fun after touched => ?_
    rw [ends_ite, ends_pure]
    rw [if_pos stored.1]
    exact ⟨rfl, touched⟩
  | cons byte rest induction =>
    obtain ⟨steps, rfl⟩ := Nat.exists_eq_succ_of_ne_zero (Nat.ne_of_gt (Nat.zero_lt_of_lt enough))
    simp only [readString, ends_bind]
    refine ends_fetch before (within_head within) fun after touched => ?_
    rw [ends_ite, ends_pure]
    rw [stored.1, if_neg (nonNul byte List.mem_cons_self), ends_bind]
    apply ends_mono (induction steps (ptr + 1) after (by simpa using enough) stored.2
      (fun other member => nonNul other (List.mem_cons_of_mem _ member)) (within_tail within))
    · intro string later readRest
      rw [ends_pure, readRest.1]
      exact ⟨rfl, touched.trans readRest.2⟩
    · exact fun _ _ => id

def bytesAt (content : Content) : (ptr : Int) → (count : Nat) → List UInt8
  | _, 0 => []
  | ptr, count + 1 => content ptr :: bytesAt content (ptr + 1) count

theorem ends_copyBytes (count : Nat) (ptr : Int) (before : Tarfs)
    (within : ∀ i : Nat, i < count → inside (ptr + i)) :
    Ends (copyBytes content ptr count)
      (fun data after => data = bytesAt content ptr count ∧ Touched inside before after)
      (fun _ _ => False) before := by
  induction count generalizing ptr before with
  | zero =>
    rw [copyBytes, ends_pure, bytesAt]
    exact ⟨rfl, Touched.refl _ _⟩
  | succ count induction =>
    simp only [copyBytes, ends_bind, bytesAt]
    refine ends_fetch before (within_head within) fun after touched => ?_
    rw [ends_bind]
    apply ends_mono (induction (ptr + 1) after (within_tail within))
    · intro data later copied
      rw [ends_pure, copied.1]
      exact ⟨rfl, touched.trans copied.2⟩
    · exact fun _ _ => id

theorem bytes_at_of_holds (bytes : List UInt8) (ptr : Int) (stored : HoldsAt content ptr bytes)
    (skip count : Nat) (fits : skip + count ≤ bytes.length) :
    bytesAt content (ptr + skip) count = (bytes.drop skip).take count := by
  induction bytes generalizing ptr skip count with
  | nil =>
    obtain ⟨rfl, rfl⟩ : skip = 0 ∧ count = 0 := by simp at fits; exact fits
    rfl
  | cons byte rest induction =>
    cases skip with
    | succ skip =>
      have later := induction (ptr + 1) stored.2 skip count (by simp at fits; omega)
      rwa [show ptr + 1 + (skip : Int) = ptr + ((skip + 1 : Nat) : Int) by omega]
        at later
    | zero =>
      cases count with
      | zero => rfl
      | succ count =>
        have later := induction (ptr + 1) stored.2 0 count (by simp at fits; omega)
        rw [show ∀ place : Int, place + ((0 : Nat) : Int) = place by intro place; omega]
          at later ⊢
        rw [bytesAt, stored.1, later]
        rfl

end Fetches

/-! ## Sizes and steps -/

section Sizes

variable {content : Content} {inside : Int → Prop}

theorem ends_checkedInt (message : String) (value : Int) {returned : Int → Tarfs → Prop}
    {stopped : Stop → Tarfs → Prop} {before : Tarfs} :
    Ends (checkedInt message value) returned stopped before =
      if FitsInt value then returned value before
      else stopped (.panic message) before := by
  unfold checkedInt
  rw [ends_ite, ends_pure, ends_throw]

structure Halted (inside : Int → Prop) (before : Tarfs) (stop : Stop) (after : Tarfs) : Prop where
  panics : ∃ message, stop = .panic message
  reads : Looked inside before after

/-- Decoding the digits of a number gives that number, or panics if it is no C int. The
induction is on the digits left; `n` holds the quotient by their weight. -/
theorem ends_oct2bin (digits value : Nat) (str : Int) (before : Tarfs)
    (stored : HoldsAt content str (octal digits value)) (fits : value / 8 ^ digits < 2 ^ 31)
    (within : ∀ i : Nat, i < digits → inside (str + i)) :
    Ends (oct2bin content str digits (value / 8 ^ digits : Nat))
      (fun result after => result = value ∧ value < 2 ^ 31 ∧ Touched inside before after)
      (fun stop after => 2 ^ 31 ≤ value ∧ Halted inside before stop after) before := by
  induction digits generalizing str before with
  | zero =>
    rw [pow_zero, Nat.div_one] at fits ⊢
    rw [oct2bin, ends_pure]
    exact ⟨rfl, fits, Touched.refl _ _⟩
  | succ digits induction =>
    have quotient : value / 8 ^ digits = value / 8 ^ (digits + 1) * 8 + value / 8 ^ digits % 8 := by
      rw [pow_succ, ← Nat.div_div_eq_div_mul]
      omega
    have smaller := Nat.div_le_self value (8 ^ digits)
    have looked : Looked inside before before := (Touched.refl inside before).reads
    simp only [oct2bin, ends_bind]
    rw [ends_checkedInt]
    by_cases shifts : FitsInt (((value / 8 ^ (digits + 1) : Nat) : Int) * 8)
    · rw [if_pos shifts, ends_bind]
      refine ends_fetch before (within_head within) fun after touched => ?_
      have digit : ((content str).toNat : Int) - 48 = (value / 8 ^ digits % 8 : Nat) := by
        rw [stored.1, UInt8.toNat_ofNat']
        omega
      have sum : ((value / 8 ^ (digits + 1) : Nat) : Int) * 8 +
          (((content str).toNat : Int) - 48) = (value / 8 ^ digits : Nat) := by
        rw [digit]
        omega
      rw [ends_bind, ends_checkedInt, sum]
      by_cases adds : FitsInt ((value / 8 ^ digits : Nat) : Int)
      · rw [if_pos adds]
        unfold FitsInt at adds
        apply ends_mono (induction (str + 1) after stored.2 (by omega) (within_tail within))
        · intro result later decoded
          exact ⟨decoded.1, decoded.2.1, touched.trans decoded.2.2⟩
        · intro stop later stopped
          exact ⟨stopped.1, stopped.2.panics, touched.reads.trans stopped.2.reads⟩
      · rw [if_neg adds]
        unfold FitsInt at adds
        exact ⟨by omega, ⟨_, rfl⟩, touched.reads⟩
    · rw [if_neg shifts]
      unfold FitsInt at shifts
      exact ⟨by omega, ⟨_, rfl⟩, looked⟩

/-- The length of an entry that both walks can step over. -/
def Roomy (length : Nat) : Prop := length + 1023 < 2 ^ 31

theorem ends_nextHeader (ptr : Int) (length : Nat) (before : Tarfs) :
    Ends (nextHeader ptr length)
      (fun next after => next = ptr + span length ∧ Roomy length ∧ after = before)
      (fun stop after => ¬Roomy length ∧ (∃ message, stop = .panic message) ∧ after = before)
      before := by
  have blocks : ((length : Int) + 511).tdiv 512 = ((length + 511) / 512 : Nat) := by
    rw [Int.tdiv_eq_ediv_of_nonneg (by omega)]
    omega
  have fits : FitsInt ((length : Int) + 511) ∧
      FitsInt ((((length + 511) / 512 : Nat) + 1 : Int) * 512) ↔ Roomy length := by
    unfold FitsInt Roomy
    omega
  simp only [nextHeader, ends_bind]
  by_cases raised : FitsInt ((length : Int) + 511)
  · have added : FitsInt (((length + 511) / 512 : Nat) + 1) := by
      unfold FitsInt at raised ⊢
      omega
    by_cases steps : FitsInt ((((length + 511) / 512 : Nat) + 1 : Int) * 512)
    · rw [ends_checkedInt, if_pos raised, ends_bind, ends_checkedInt, blocks, if_pos added,
        ends_bind, ends_checkedInt, if_pos steps, ends_pure]
      refine ⟨?_, fits.mp ⟨raised, steps⟩, rfl⟩
      unfold span
      omega
    · rw [ends_checkedInt, if_pos raised, ends_bind, ends_checkedInt, blocks, if_pos added,
        ends_bind, ends_checkedInt, if_neg steps]
      exact ⟨fun roomy => steps (fits.mpr roomy).2, ⟨_, rfl⟩, rfl⟩
  · rw [ends_checkedInt, if_neg raised]
    exact ⟨fun roomy => raised (fits.mpr roomy).1, ⟨_, rfl⟩, rfl⟩

theorem toSize_natCast {value : Nat} (small : value < 2 ^ 64) : toSize value = value := by
  unfold toSize
  omega

end Sizes

/-! ## The two walks -/

def indexedName : List UInt8 → List UInt8
  | [] => [0x2F]
  | first :: rest => if first = 0x2E then rest else 0x2F :: first :: rest

def listing (files : List TarfsFile) : List (List UInt8 × Nat) :=
  files.map fun file => (file.loc, file.len)

def hasData (entry : Entry) : Bool := entry.data ≠ []

/-- The listing of an archive: its entries with data, in order. -/
def indexed (entries : List Entry) : List (List UInt8 × Nat) :=
  (entries.filter hasData).map fun entry => (indexedName entry.name, entry.data.length)

/-- The headers, names and data the walks look at are `inside`. -/
def Within (inside : Int → Prop) : List Entry → (ptr : Int) → Prop
  | [], ptr => ∀ i : Nat, i < 262 → inside (ptr + i)
  | entry :: rest, ptr =>
      (∀ i : Nat, i < span entry.data.length → inside (ptr + i)) ∧
        (∀ i : Nat, i < entry.name.length + 1 → inside (ptr + i)) ∧
        Within inside rest (ptr + span entry.data.length)

section Headers

variable {content : Content} {inside : Int → Prop}

theorem within_part {ptr : Int} {count : Nat} (within : ∀ i : Nat, i < count → inside (ptr + i))
    (skip : Nat) {part : Nat} (fits : skip + part ≤ count) (i : Nat) (bound : i < part) :
    inside (ptr + skip + i) := by
  have place := within (skip + i) (by omega)
  rwa [show ptr + ((skip + i : Nat) : Int) = ptr + skip + i by omega] at place

theorem header_in_span (length : Nat) : 512 + length ≤ span length := by
  unfold span
  omega

theorem ends_tarfsAddFile (garbage : Nat → Int) {fuel : Nat} {ptr : Int} {name : List UInt8}
    (size : Nat) (before : Tarfs) (enough : name.length < fuel)
    (stored : HoldsAt content ptr (name ++ [0])) (nonNul : ∀ byte ∈ name, byte ≠ 0)
    (within : ∀ i : Nat, i < name.length + 1 → inside (ptr + i)) :
    Ends (tarfsAddFile content garbage fuel ptr size)
      (fun _ after => listing after.files = listing before.files ++ [(indexedName name, size)] ∧
        Looked inside before after)
      (fun _ _ => False) before := by
  simp only [tarfsAddFile, ends_bind]
  refine ends_fetch before (within_head within) fun after touched => ?_
  rw [ends_ite]
  split
  · next dot =>
      rw [ends_bind]
      cases name with
      | nil =>
        rw [stored.1] at dot
        cases dot
      | cons first rest =>
        obtain rfl : first = 0x2E := stored.1.symm.trans dot
        apply ends_mono (ends_readString rest fuel (ptr + 1) after
          (by simp only [List.length_cons] at enough; omega) stored.2
          (fun byte member => nonNul byte (List.mem_cons_of_mem _ member)) (within_tail within))
        · intro loc later readLoc
          rw [ends_modify]
          obtain ⟨rfl, further⟩ := readLoc
          refine ⟨?_, touched.reads.trans further.reads⟩
          simp [listing, further.files, touched.files, indexedName]
        · exact fun _ _ => id
  · next other =>
      rw [ends_bind]
      apply ends_mono (ends_readString name fuel ptr after enough stored nonNul within)
      · intro loc later readLoc
        rw [ends_bind, ends_pure, ends_modify]
        obtain ⟨rfl, further⟩ := readLoc
        refine ⟨?_, touched.reads.trans further.reads⟩
        have slashed : indexedName loc = 0x2F :: loc := by
          cases loc with
          | nil => rfl
          | cons first rest =>
            rw [indexedName, if_neg]
            rw [stored.1] at other
            exact other
        simp [listing, further.files, touched.files, slashed]
      · exact fun _ _ => id

theorem ends_header {Value : Type} {ptr : Int} {entry : Entry} (stored : Stored content ptr entry)
    (within : ∀ i : Nat, i < span entry.data.length → inside (ptr + i))
    {found : Int → Tar Value} {missing : Tar Value} {returned : Value → Tarfs → Prop}
    {stopped : Stop → Tarfs → Prop} {before : Tarfs}
    (rest : ∀ after, entry.data.length < 2 ^ 31 → Touched inside before after →
      Ends (found entry.data.length) returned stopped after)
    (panics : ∀ stop after, 2 ^ 31 ≤ entry.data.length → Halted inside before stop after →
      stopped stop after) :
    Ends (do
      if ← memcmpEq content (ptr + 257) ustar then
        let fileSize ← oct2bin content (ptr + 0x7c) 11 0
        found fileSize
      else missing) returned stopped before := by
  have covers := header_in_span entry.data.length
  have magicInside : ∀ i : Nat, i < ustar.length → inside (ptr + 257 + i) :=
    within_part within 257 (by rw [show ustar.length = 5 from rfl]; omega)
  have sizeInside : ∀ i : Nat, i < 11 → inside (ptr + 0x7c + i) :=
    within_part within 0x7c (by omega)
  rw [ends_bind]
  apply ends_mono (ends_memcmpEq ustar (ptr + 257) before magicInside)
  · intro same after compared
    rw [if_pos (compared.1.mpr stored.magic), ends_bind]
    have zero : (0 : Int) = (entry.data.length / 8 ^ 11 : Nat) := by
      rw [Nat.div_eq_of_lt stored.sizeFits]
      rfl
    rw [zero]
    apply ends_mono (ends_oct2bin 11 entry.data.length (ptr + 0x7c) after stored.size
      (by rw [Nat.div_eq_of_lt stored.sizeFits]; decide) sizeInside)
    · intro size later decoded
      rw [decoded.1]
      exact rest later decoded.2.1 (compared.2.trans decoded.2.2)
    · intro stop later stopping
      exact panics stop later stopping.1
        ⟨stopping.2.panics, compared.2.reads.trans stopping.2.reads⟩
  · exact fun _ _ => False.elim

end Headers

section Index

variable {content : Content} {inside : Int → Prop} {last : Int → Prop}

theorem ends_last {Value : Type} {ptr : Int} (ended : ¬HoldsAt content (ptr + 257) ustar)
    (within : ∀ i : Nat, i < 262 → inside (ptr + i)) {found missing : Tar Value}
    {returned : Value → Tarfs → Prop} {stopped : Stop → Tarfs → Prop} {before : Tarfs}
    (rest : ∀ after, Touched inside before after → Ends missing returned stopped after) :
    Ends (do if ← memcmpEq content (ptr + 257) ustar then found else missing)
      returned stopped before := by
  rw [ends_bind]
  apply ends_mono (ends_memcmpEq ustar (ptr + 257) before (within_part within 257 (by decide)))
  · intro same after compared
    rw [if_neg fun found => ended (compared.1.mp found)]
    exact rest after compared.2
  · exact fun _ _ => False.elim

theorem indexed_cons (entry : Entry) (rest : List Entry) :
    indexed (entry :: rest) = indexed [entry] ++ indexed rest := by
  unfold indexed
  rw [← List.map_append, ← List.filter_append]
  rfl

theorem indexed_single (entry : Entry) :
    indexed [entry] =
      if entry.data.length = 0 then [] else [(indexedName entry.name, entry.data.length)] := by
  obtain ⟨name, data⟩ := entry
  cases data with
  | nil => rfl
  | cons byte rest => rfl

/-- `tarfs_init` lists the entries with data, or panics at one it cannot step over. -/
theorem ends_indexHeaders (garbage : Nat → Int) (names : Nat)
    (noMagic : ∀ ptr, last ptr → ¬HoldsAt content (ptr + 257) ustar) (entries : List Entry)
    (fuel : Nat) (ptr : Int) (before : Tarfs) (chained : Chained content last entries ptr)
    (within : Within inside entries ptr) (enough : entries.length < fuel)
    (short : ∀ entry ∈ entries, entry.name.length < names) :
    Ends (indexHeaders content garbage names fuel ptr)
      (fun _ after => listing after.files = listing before.files ++ indexed entries ∧
        (∀ entry ∈ entries, Roomy entry.data.length) ∧ Looked inside before after)
      (fun stop after => (∃ entry ∈ entries, ¬Roomy entry.data.length) ∧
        Halted inside before stop after) before := by
  induction entries generalizing fuel ptr before with
  | nil =>
    obtain ⟨steps, rfl⟩ := Nat.exists_eq_succ_of_ne_zero (Nat.ne_of_gt enough)
    rw [indexHeaders]
    apply ends_last (noMagic ptr chained) within
    intro after touched
    rw [ends_pure, touched.files]
    exact ⟨(List.append_nil _).symm, fun _ member => absurd member List.not_mem_nil, touched.reads⟩
  | cons entry rest induction =>
    obtain ⟨steps, rfl⟩ := Nat.exists_eq_succ_of_ne_zero (Nat.ne_of_gt (Nat.zero_lt_of_lt enough))
    obtain ⟨stored, behind⟩ := chained
    obtain ⟨blocks, nameInside, restInside⟩ := within
    -- the rest of the walk, once this entry has been listed or passed over
    have onward : ∀ middle, listing middle.files = listing before.files ++ indexed [entry] →
        Looked inside before middle →
        Ends (do
          let next ← nextHeader ptr entry.data.length
          indexHeaders content garbage names steps next)
        (fun _ after => listing after.files = listing before.files ++ indexed (entry :: rest) ∧
          (∀ other ∈ entry :: rest, Roomy other.data.length) ∧ Looked inside before after)
        (fun stop after => (∃ other ∈ entry :: rest, ¬Roomy other.data.length) ∧
          Halted inside before stop after) middle := by
      intro middle listed looked
      rw [ends_bind]
      apply ends_mono (ends_nextHeader ptr entry.data.length middle)
      · intro next after stepped
        obtain ⟨rfl, roomy, same⟩ := stepped
        rw [same]
        apply ends_mono (induction steps _ middle behind restInside
          (by simp only [List.length_cons] at enough; omega)
          fun other member => short other (List.mem_cons_of_mem _ member))
        · intro _ after walked
          refine ⟨?_, ?_, looked.trans walked.2.2⟩
          · rw [walked.1, listed, indexed_cons entry rest, List.append_assoc]
          · exact List.forall_mem_cons.mpr ⟨roomy, walked.2.1⟩
        · intro stop after stopping
          obtain ⟨⟨other, member, wide⟩, halted⟩ := stopping
          exact ⟨⟨other, List.mem_cons_of_mem _ member, wide⟩, halted.panics,
            looked.trans halted.reads⟩
      · intro stop after stepped
        obtain ⟨wide, panics, rfl⟩ := stepped
        exact ⟨⟨entry, List.mem_cons_self, wide⟩, panics, looked⟩
    rw [indexHeaders]
    apply ends_header stored blocks
    · intro after small touched
      dsimp only
      rw [ends_ite]
      by_cases empty : entry.data.length = 0
      · rw [if_neg (by omega)]
        apply onward after _ touched.reads
        rw [indexed_single, if_pos empty, List.append_nil, touched.files]
      · rw [if_pos (by omega), toSize_natCast (by omega), ends_bind]
        apply ends_mono (ends_tarfsAddFile garbage entry.data.length after
          (short entry List.mem_cons_self) stored.name stored.nonNul nameInside)
        · intro _ added listed
          apply onward added _ (touched.reads.trans listed.2)
          rw [listed.1, touched.files, indexed_single, if_neg empty]
        · exact fun _ _ => False.elim
    · intro stop after large halted
      exact ⟨⟨entry, List.mem_cons_self, by unfold Roomy; omega⟩, halted⟩

end Index

end RiriaKernel.TarArchives
