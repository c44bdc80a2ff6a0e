import Mathlib.Data.List.GetD
import Mathlib.Data.List.Nodup
import RiriaKernel.TarReads

/-!
# What is listed and what is read

`tarfs_init` and `tarfs_read` on an archive of any entries, whatever the rest of its header
and padding bytes are: the index is the list of entries with data, a file that has been
positioned is a cursor over its data, and a listed path reads back its entry when the header
that the read finds is the right one.
-/

namespace RiriaKernel.TarEncodings

open HaltingPrograms TarFiles TarArchives TarReads

/-- The entries from the start of the archive on, and a zero block. -/
def Archive (content : Content) (entries : List Entry) : Prop :=
  Chained content (fun ptr => HoldsAt content ptr (List.replicate 512 0)) entries 0

section Blocks

variable {content : Content}

theorem holds_at_replicate {count : Nat} {ptr : Int} {byte : UInt8}
    (holds : HoldsAt content ptr (List.replicate count byte)) (i : Nat) (bound : i < count) :
    content (ptr + i) = byte := by
  induction count generalizing ptr i with
  | zero => omega
  | succ count induction =>
    obtain ⟨first, rest⟩ := holds
    cases i with
    | zero => rwa [show ptr + ((0 : Nat) : Int) = ptr by omega]
    | succ i =>
      have later := induction rest i (by omega)
      rwa [show ptr + 1 + (i : Int) = ptr + ((i + 1 : Nat) : Int) by omega] at later

theorem zero_block_ends (ptr : Int) (zero : HoldsAt content ptr (List.replicate 512 0)) :
    ¬HoldsAt content (ptr + 257) ustar := by
  intro magic
  have byte : content (ptr + 257) = 0 := holds_at_replicate zero 257 (by decide)
  rw [magic.1] at byte
  cases byte

theorem within_anywhere (entries : List Entry) (ptr : Int) :
    Within (fun _ => True) entries ptr := by
  induction entries generalizing ptr with
  | nil => exact fun _ _ => trivial
  | cons entry rest induction => exact ⟨fun _ _ => trivial, fun _ _ => trivial, induction _⟩

theorem chained_name_non_nul {last : Int → Prop} {entries : List Entry} {ptr : Int}
    (chained : Chained content last entries ptr) :
    ∀ entry ∈ entries, ∀ byte ∈ entry.name, byte ≠ 0 := by
  induction entries generalizing ptr with
  | nil => exact fun _ member => absurd member List.not_mem_nil
  | cons first rest induction =>
    obtain ⟨stored, behind⟩ := chained
    exact List.forall_mem_cons.mpr ⟨stored.nonNul, induction behind⟩

end Blocks

/-- Enough steps for the headers and for every name. -/
def EnoughFuel (fuel : Nat) (entries : List Entry) : Prop :=
  entries.length < fuel ∧ ∀ entry ∈ entries, entry.name.length < fuel

def unmounted : Tarfs := ⟨[], []⟩

section Mounting

variable {content : Content} {entries : List Entry} {garbage : Nat → Int} {fuel : Nat}

theorem ends_tarfsInit (archive : Archive content entries) (enough : EnoughFuel fuel entries) :
    Ends (tarfsInit content garbage fuel)
      (fun _ after => listing after.files = indexed entries ∧
        ∀ entry ∈ entries, Roomy entry.data.length)
      (fun _ _ => ∃ entry ∈ entries, ¬Roomy entry.data.length) unmounted := by
  apply ends_mono (ends_indexHeaders garbage fuel zero_block_ends entries fuel 0 unmounted archive
    (within_anywhere entries 0) enough.1 enough.2)
  · intro _ after walked
    exact ⟨walked.1, walked.2.1⟩
  · intro _ _ stopping
    exact stopping.1

theorem tarfs_init_total (garbage : Nat → Int) (archive : Archive content entries)
    (enough : EnoughFuel fuel entries) (roomy : ∀ entry ∈ entries, Roomy entry.data.length) :
    ∃ after, tarfsInit content garbage fuel unmounted = .ok ⟨⟩ after ∧
      listing after.files = indexed entries := by
  have total : Ends (tarfsInit content garbage fuel)
      (fun _ after => listing after.files = indexed entries) (fun _ _ => False) unmounted := by
    apply ends_mono (ends_tarfsInit archive enough)
    · exact fun _ after mounted => mounted.1
    · intro _ _ stopping
      obtain ⟨entry, member, wide⟩ := stopping
      exact wide (roomy entry member)
  obtain ⟨_, after, returned, listed⟩ := total.exists_ok
  exact ⟨after, returned, listed⟩

theorem ends_tarfsRead (archive : Archive content entries) (enough : EnoughFuel fuel entries)
    (roomy : ∀ entry ∈ entries, Roomy entry.data.length) {path : List UInt8}
    (nonNul : ∀ byte ∈ path.tail, byte ≠ 0) {buffer : Nat} (valid : buffer ≠ 0) (sz : Nat)
    {before : Tarfs} {file : TarfsFile} (found : fileAt path before.files = some file) :
    Ends (tarfsRead content fuel path buffer sz)
      (fun result after => ReadBack path sz before result after (headerFor path entries))
      (fun _ _ => False) before := by
  apply ends_mono (ends_readHeaders zero_block_ends path nonNul buffer sz entries fuel 0 before
    archive (within_anywhere entries 0) enough.1)
  · exact fun result after read => read.1
  · intro stop after stopping
    rcases stopping.1 with ⟨entry, member, wide⟩ | missing | null
    · exact wide (roomy entry member)
    · rw [found] at missing
      cases missing
    · exact valid null

end Mounting

/-! ## Cursors -/

/-- What the archive is made of: distinct names of one to 99 bytes that do not start with a
dot, and data whose length is a C int with a block to spare. -/
structure Encodable (entries : List Entry) : Prop where
  distinct : (entries.map Entry.name).Nodup
  named : ∀ entry ∈ entries, 1 ≤ entry.name.length ∧ entry.name.length ≤ 99 ∧
    entry.name.head? ≠ some 0x2E
  short : ∀ entry ∈ entries, entry.data.length < 2 ^ 31 - 512

def pathOf (entry : Entry) : List UInt8 := 0x2F :: entry.name

theorem Encodable.indexed_name {entries : List Entry} (encodable : Encodable entries)
    {entry : Entry} (member : entry ∈ entries) : indexedName entry.name = pathOf entry := by
  obtain ⟨long, -, dotless⟩ := encodable.named entry member
  unfold pathOf
  cases name : entry.name with
  | nil => rfl
  | cons first rest =>
    rw [name] at dotless
    rw [indexedName, if_neg]
    intro dot
    exact dotless (by rw [dot]; rfl)

theorem Encodable.indexed {entries : List Entry} (encodable : Encodable entries) :
    indexed entries =
      (entries.filter hasData).map fun entry => (pathOf entry, entry.data.length) := by
  apply List.map_congr_left
  intro entry member
  rw [encodable.indexed_name (List.mem_of_mem_filter member)]

theorem Encodable.header_for {entries : List Entry} (encodable : Encodable entries)
    {entry : Entry} (member : entry ∈ entries) :
    headerFor (pathOf entry) entries = some entry := by
  have distinct := encodable.distinct
  clear encodable
  induction entries with
  | nil => exact absurd member List.not_mem_nil
  | cons first rest induction =>
    rw [List.map_cons, List.nodup_cons] at distinct
    rw [header_for_cons]
    rcases List.mem_cons.mp member with same | later
    · rw [← same, if_pos (by rfl)]
    · rw [if_neg, induction later distinct.2]
      intro same
      exact distinct.1 (List.mem_map.mpr ⟨entry, later, same.symm⟩)

theorem Encodable.listed {entries : List Entry} (encodable : Encodable entries) {entry : Entry}
    (member : entry ∈ entries) (some : entry.data ≠ []) {files : List TarfsFile}
    (list : listing files = TarArchives.indexed entries) :
    ∃ file, fileAt (pathOf entry) files = Option.some file := by
  apply file_at_eq_some_iff_listed.mpr
  rw [list, encodable.indexed]
  exact ⟨_, List.mem_map.mpr ⟨entry, List.mem_filter.mpr ⟨member, decide_eq_true some⟩, rfl⟩⟩

/-- Runs of seeks and reads over the files of an archive, with the position each file has
since it was last sought; none before. -/
inductive CursorRun (content : Content) (garbage : Nat → Int) (fuel : Nat)
    (entries : List Entry) : Tarfs → (List UInt8 → Option Nat) → Prop
  | mounted {after : Tarfs} (run : tarfsInit content garbage fuel unmounted = .ok ⟨⟩ after) :
      CursorRun content garbage fuel entries after fun _ => none
  | seek {tarfs after : Tarfs} {cursors : List UInt8 → Option Nat} {entry : Entry} {offset : Nat}
      {result : Int} (prior : CursorRun content garbage fuel entries tarfs cursors)
      (member : entry ∈ entries) (some : entry.data ≠ []) (small : offset < 2 ^ 31)
      (run : tarfsSeek (pathOf entry) offset tarfs = .ok result after) :
      CursorRun content garbage fuel entries after
        (Function.update cursors (pathOf entry) (Option.some offset))
  | read {tarfs after : Tarfs} {cursors : List UInt8 → Option Nat} {entry : Entry}
      {buffer sz : Nat} {result : Int × List UInt8}
      (prior : CursorRun content garbage fuel entries tarfs cursors)
      (member : entry ∈ entries) (some : entry.data ≠ []) (valid : buffer ≠ 0)
      (run : tarfsRead content fuel (pathOf entry) buffer sz tarfs = .ok result after) :
      CursorRun content garbage fuel entries after
        (Function.update cursors (pathOf entry)
          ((cursors (pathOf entry)).map fun pos => pos + result.2.length))

/-- Every file can be sought, and one that has been is read from its position. -/
def ActsAsCursors (content : Content) (fuel : Nat) (entries : List Entry) (tarfs : Tarfs)
    (cursors : List UInt8 → Option Nat) : Prop :=
  ∀ entry ∈ entries, entry.data ≠ [] →
    (∀ offset, offset < 2 ^ 31 →
      ∃ after, tarfsSeek (pathOf entry) offset tarfs = .ok (offset : Int) after) ∧
    ∀ pos, cursors (pathOf entry) = some pos → ∀ buffer sz, buffer ≠ 0 →
      ∃ after, tarfsRead content fuel (pathOf entry) buffer sz tarfs =
        .ok ((min sz (entry.data.length - pos) : Nat),
          (entry.data.drop pos).take (min sz (entry.data.length - pos))) after

structure Positioned (entries : List Entry) (tarfs : Tarfs)
    (cursors : List UInt8 → Option Nat) : Prop where
  listed : listing tarfs.files = TarArchives.indexed entries
  small : ∀ path pos, cursors path = some pos → pos < 2 ^ 31
  positions : ∀ path pos file, cursors path = some pos → fileAt path tarfs.files = some file →
    file.seekPos = pos

theorem int_of_small {value : Nat} (small : value < 2 ^ 31) : intOf value = value := by
  unfold intOf
  rw [Int.bmod_def]
  omega

theorem advanced_of_position {length sz pos : Nat} (small : pos < 2 ^ 31) (roomy : Roomy length) :
    advanced length sz pos = (pos + min (length - pos) sz : Nat) := by
  unfold Roomy at roomy
  rw [advanced, toSize_natCast (by omega)]
  split
  · next none => omega
  · next some => rw [int_of_small (by omega)]

theorem length_served (data : List UInt8) (pos sz : Nat) :
    (served data pos sz).2.length = min (data.length - pos) sz := by
  unfold served
  rw [List.length_take, List.length_drop]
  omega

section Steps

variable {entries : List Entry} {tarfs : Tarfs} {cursors : List UInt8 → Option Nat} {path : List UInt8}

theorem Positioned.move (positioned : Positioned entries tarfs cursors) {after : Tarfs}
    {seekPos : Int} (files : after.files = setPos path seekPos tarfs.files)
    {cursor : Option Nat} (same : ∀ pos, cursor = some pos → pos < 2 ^ 31 ∧ seekPos = pos)
    (listed : ∃ file, fileAt path tarfs.files = some file) :
    Positioned entries after (Function.update cursors path cursor) := by
  refine ⟨?_, ?_, ?_⟩
  · rw [files, listing_set_pos, positioned.listed]
  · intro other pos held
    by_cases here : other = path
    · subst here
      rw [Function.update_self] at held
      exact (same pos held).1
    · rw [Function.update_of_ne here] at held
      exact positioned.small other pos held
  · intro other pos file held found
    rw [files] at found
    by_cases here : other = path
    · subst here
      obtain ⟨old, oldFound⟩ := listed
      rw [file_at_set_pos seekPos oldFound] at found
      obtain rfl := Option.some.inj found
      rw [Function.update_self] at held
      exact (same pos held).2
    · rw [file_at_set_pos_other here] at found
      rw [Function.update_of_ne here] at held
      exact positioned.positions other pos file held found

end Steps

section Cursors

variable {content : Content} {garbage : Nat → Int} {fuel : Nat} {entries : List Entry}
  {tarfs : Tarfs} {cursors : List UInt8 → Option Nat} (archive : Archive content entries)
  (enough : EnoughFuel fuel entries) (encodable : Encodable entries)
  (roomy : ∀ entry ∈ entries, Roomy entry.data.length)
  (run : CursorRun content garbage fuel entries tarfs cursors)

include archive enough encodable roomy run

theorem cursor_run_positioned : Positioned entries tarfs cursors := by
  have nonNul := chained_name_non_nul archive
  induction run with
  | mounted run =>
    have listed := ((ends_tarfsInit archive enough).returns run).1
    refine ⟨listed, ?_, ?_⟩
    · intro path pos held
      cases held
    · intro path pos file held
      cases held
  | @seek tarfs after cursors entry offset result prior member some small run positioned =>
    have sought := (ends_tarfsSeek (pathOf entry) offset tarfs).returns run
    rw [int_of_small small] at sought
    refine positioned.move sought.2.2.1 ?_ sought.2.1
    intro pos held
    obtain rfl := Option.some.inj held
    exact ⟨small, rfl⟩
  | @read tarfs after cursors entry buffer sz result prior member some valid run positioned =>
    obtain ⟨file, found⟩ := encodable.listed member some positioned.listed
    have tail : ∀ byte ∈ (pathOf entry).tail, byte ≠ 0 := nonNul entry member
    have back := (ends_tarfsRead archive enough roomy tail valid sz found).returns run
    rw [encodable.header_for member] at back
    obtain ⟨other, otherFound, rfl, files⟩ := back
    obtain rfl := Option.some.inj (otherFound.symm.trans found)
    refine positioned.move files ?_ ⟨other, found⟩
    intro pos held
    obtain ⟨old, oldHeld, rfl⟩ := Option.map_eq_some_iff.mp held
    have small := positioned.small _ old oldHeld
    have place := positioned.positions _ old other oldHeld found
    have bound := roomy entry member
    rw [place, advanced_of_position small bound, toSize_natCast (by omega), length_served]
    unfold Roomy at bound
    exact ⟨by omega, rfl⟩

theorem cursor_run_acts : ActsAsCursors content fuel entries tarfs cursors := by
  have positioned := cursor_run_positioned archive enough encodable roomy run
  intro entry member some
  obtain ⟨file, found⟩ := encodable.listed member some positioned.listed
  constructor
  · intro offset small
    have sought : Ends (tarfsSeek (pathOf entry) offset) (fun result _ => result = offset)
        (fun _ _ => False) tarfs := by
      apply ends_mono (ends_tarfsSeek (pathOf entry) offset tarfs)
      · intro result after sought
        rw [sought.1, int_of_small small]
      · intro stop after missing
        rw [found] at missing
        cases missing
    obtain ⟨result, after, returned, rfl⟩ := sought.exists_ok
    exact ⟨after, returned⟩
  · intro pos held buffer sz valid
    have tail : ∀ byte ∈ (pathOf entry).tail, byte ≠ 0 := chained_name_non_nul archive entry member
    have reading := ends_tarfsRead archive enough roomy tail valid sz found
    rw [encodable.header_for member] at reading
    obtain ⟨result, after, returned, other, otherFound, rfl, -⟩ := reading.exists_ok
    obtain rfl := Option.some.inj (otherFound.symm.trans found)
    have small := positioned.small _ pos held
    rw [positioned.positions _ pos other held found, toSize_natCast (by omega), served,
      Nat.min_comm] at returned
    exact ⟨after, returned⟩

end Cursors

/-- `tarfs_init` lists what was encoded, and every file is a cursor over its data, exactly
when no entry is so long that the step over it overflows. -/
theorem tar_decodes_iff (content : Content) (entries : List Entry) (garbage : Nat → Int)
    (fuel : Nat) (encodable : Encodable entries) (archive : Archive content entries)
    (headers : entries.length < fuel) (names : 100 ≤ fuel) :
    ((∃ after, tarfsInit content garbage fuel unmounted = .ok ⟨⟩ after ∧
        listing after.files =
          (entries.filter hasData).map fun entry => (pathOf entry, entry.data.length)) ∧
      ∀ tarfs cursors, CursorRun content garbage fuel entries tarfs cursors →
        ActsAsCursors content fuel entries tarfs cursors) ↔
      ∀ entry ∈ entries, entry.data.length + 1023 < 2 ^ 31 := by
  have enough : EnoughFuel fuel entries := by
    refine ⟨headers, ?_⟩
    intro entry member
    have bound := (encodable.named entry member).2.1
    omega
  constructor
  · intro decodes
    obtain ⟨⟨after, returned, -⟩, -⟩ := decodes
    exact ((ends_tarfsInit archive enough).returns returned).2
  · intro roomy
    refine ⟨?_, fun tarfs cursors run => cursor_run_acts archive enough encodable roomy run⟩
    obtain ⟨after, returned, listed⟩ := tarfs_init_total garbage archive enough roomy
    exact ⟨after, returned, listed.trans encodable.indexed⟩

def zeroFile (name : List UInt8) (length : Nat) : Content := fun offset =>
  if offset < name.length then name.getD offset.toNat 0
  else if 0x7c ≤ offset ∧ offset < 0x7c + 11 then (octal 11 length).getD (offset - 0x7c).toNat 0
  else if 257 ≤ offset ∧ offset < 262 then ustar.getD (offset - 257).toNat 0
  else 0

theorem holds_at_of_getD {content : Content} (bytes : List UInt8) (ptr : Int)
    (same : ∀ i : Nat, i < bytes.length → content (ptr + i) = bytes.getD i 0) :
    HoldsAt content ptr bytes := by
  induction bytes generalizing ptr with
  | nil => trivial
  | cons byte rest induction =>
    have first := same 0 (Nat.succ_pos _)
    rw [show ptr + ((0 : Nat) : Int) = ptr by omega] at first
    refine ⟨first, induction (ptr + 1) ?_⟩
    intro i bound
    have later := same (i + 1) (Nat.succ_lt_succ bound)
    rwa [show ptr + ((i + 1 : Nat) : Int) = ptr + 1 + i by omega] at later

theorem length_octal (digits value : Nat) : (octal digits value).length = digits := by
  induction digits with
  | zero => rfl
  | succ digits induction => rw [octal, List.length_cons, induction]

theorem zero_file_archive {name : List UInt8} {length : Nat} (short : name.length < 0x7c)
    (nonNul : ∀ byte ∈ name, byte ≠ 0) (fits : length < 8 ^ 11) :
    Archive (zeroFile name length) [⟨name, List.replicate length 0⟩] := by
  have behind : ∀ offset : Int, 262 ≤ offset → zeroFile name length offset = 0 := by
    intro offset behind
    unfold zeroFile
    rw [if_neg (by omega), if_neg (by omega), if_neg (by omega)]
  have zeros : ∀ (count : Nat) (ptr : Int), 262 ≤ ptr →
      HoldsAt (zeroFile name length) ptr (List.replicate count 0) := by
    intro count ptr far
    apply holds_at_of_getD
    intro i bound
    rw [List.length_replicate] at bound
    rw [behind _ (by omega), List.getD_replicate 0 bound]
  refine ⟨⟨?_, nonNul, ?_, ?_, ?_, ?_⟩, ?_⟩
  · apply holds_at_of_getD
    intro i bound
    dsimp only at bound ⊢
    rw [List.length_append, List.length_singleton] at bound
    unfold zeroFile
    by_cases inside : i < name.length
    · rw [if_pos (by omega), List.getD_append _ _ _ _ inside]
      congr 1
      omega
    · obtain rfl : i = name.length := by omega
      rw [if_neg (by omega), if_neg (by omega), if_neg (by omega),
        List.getD_append_right _ _ _ _ (Nat.le_refl _), Nat.sub_self]
      rfl
  · rw [List.length_replicate]
    apply holds_at_of_getD
    intro i bound
    rw [length_octal] at bound
    unfold zeroFile
    rw [if_neg (by omega), if_pos (by omega)]
    congr 1
    omega
  · rw [List.length_replicate]
    exact fits
  · apply holds_at_of_getD
    intro i bound
    change i < 5 at bound
    unfold zeroFile
    rw [if_neg (by omega), if_neg (by omega), if_pos (by omega)]
    congr 1
    omega
  · exact zeros _ _ (by omega)
  · have covers := header_in_span (List.replicate length (0 : UInt8)).length
    exact zeros _ _ (by dsimp only; omega)

theorem zero_file_fuel {name : List UInt8} {fuel length : Nat} (short : name.length < fuel)
    (two : 1 < fuel) : EnoughFuel fuel [⟨name, List.replicate length 0⟩] := by
  refine ⟨two, ?_⟩
  intro entry member
  rw [List.mem_singleton.mp member]
  exact short

theorem zero_file_roomy {name : List UInt8} {length : Nat} (roomy : length + 1023 < 2 ^ 31) :
    ∀ entry ∈ [(⟨name, List.replicate length 0⟩ : Entry)], Roomy entry.data.length := by
  intro entry member
  rw [List.mem_singleton.mp member, List.length_replicate]
  exact roomy

theorem zero_file_encodable {length : Nat} (short : length < 2 ^ 31 - 512) :
    Encodable [⟨[0x61], List.replicate length 0⟩] := by
  refine ⟨List.nodup_singleton _, ?_, ?_⟩
  · intro entry member
    rw [List.mem_singleton.mp member]
    exact ⟨Nat.le_refl 1, show 1 ≤ 99 by decide, show some 0x61 ≠ some 0x2E by decide⟩
  · intro entry member
    rw [List.mem_singleton.mp member, List.length_replicate]
    exact short

/-- A file of three zeros, named `a`. -/
theorem tar_decodes_small_file :
    ∃ after, tarfsInit (zeroFile [0x61] 3) (fun _ => 7) 100 unmounted = .ok ⟨⟩ after ∧
      listing after.files = [([0x2F, 0x61], 3)] :=
  ((tar_decodes_iff (zeroFile [0x61] 3) [⟨[0x61], List.replicate 3 0⟩] (fun _ => 7) 100
    (zero_file_encodable (by decide)) (zero_file_archive (by decide) (by simp) (by decide))
    (by decide) (by decide)).mpr (by decide)).1

theorem long_file_panics {length : Nat} (long : 2 ^ 31 ≤ length + 1023)
    (short : length < 2 ^ 31 - 512) :
    ∃ content entries, Encodable entries ∧ Archive content entries ∧
      ∃ stop after, tarfsInit content (fun _ => 7) 100 unmounted = .error stop after := by
  have archive : Archive (zeroFile [0x61] length) [⟨[0x61], List.replicate length 0⟩] :=
    zero_file_archive (by decide) (by simp) (by omega)
  have enough : EnoughFuel 100 [⟨[0x61], List.replicate length 0⟩] :=
    zero_file_fuel (by decide) (by decide)
  have fails : Ends (tarfsInit (zeroFile [0x61] length) (fun _ => 7) 100)
      (fun _ _ => False) (fun _ _ => True) unmounted := by
    apply ends_mono (ends_tarfsInit archive enough)
    · intro _ after mounted
      have roomy := mounted.2 _ List.mem_cons_self
      rw [List.length_replicate, Roomy] at roomy
      omega
    · exact fun _ _ _ => trivial
  obtain ⟨stop, after, stopped, -⟩ := fails.exists_error
  exact ⟨_, _, zero_file_encodable short, archive, stop, after, stopped⟩

/-- A file of 2147482648 bytes, 488 short of the limit, makes `tarfs_init` panic. -/
theorem tar_step_overflows :
    ∃ content entries, Encodable entries ∧ Archive content entries ∧
      ∃ stop after, tarfsInit content (fun _ => 7) 100 unmounted = .error stop after :=
  have long : 2 ^ 31 ≤ 2147482648 + 1023 := by decide
  long_file_panics long (by decide)

/-! ## Listed paths -/

def indexedEntry (path : List UInt8) (entries : List Entry) : Option Entry :=
  (entries.filter hasData).find? fun entry => indexedName entry.name = path

theorem indexed_entry_of_file {path : List UInt8} {files : List TarfsFile} {listed : List Entry}
    (same : listing files = listed.map fun entry => (indexedName entry.name, entry.data.length))
    {file : TarfsFile} (found : fileAt path files = some file) :
    ∃ entry, (listed.find? fun entry => indexedName entry.name = path) = some entry ∧
      entry.data.length = file.len := by
  induction files generalizing listed with
  | nil => cases found
  | cons first rest induction =>
    cases listed with
    | nil => cases same
    | cons entry others =>
      obtain ⟨head, tail⟩ := List.cons.inj same
      obtain ⟨name, length⟩ := Prod.mk.inj head
      rw [file_at_cons, name] at found
      rw [List.find?_cons]
      by_cases here : indexedName entry.name = path
      · rw [if_pos here] at found
        obtain rfl := Option.some.inj found
        rw [decide_eq_true here]
        exact ⟨entry, rfl, length.symm⟩
      · rw [if_neg here] at found
        rw [decide_eq_false here]
        exact induction tail found

theorem indexed_name_tail_non_nul {name : List UInt8} (nonNul : ∀ byte ∈ name, byte ≠ 0) :
    ∀ byte ∈ (indexedName name).tail, byte ≠ 0 := by
  cases name with
  | nil => exact fun _ member => absurd member List.not_mem_nil
  | cons first rest =>
    intro byte member
    rw [indexedName] at member
    split at member
    · exact nonNul byte (List.mem_cons_of_mem _ (List.mem_of_mem_tail member))
    · exact nonNul byte member

theorem served_whole_iff {wanted data : List UInt8} :
    served data 0 wanted.length = ((wanted.length : Int), wanted) ↔ wanted <+: data := by
  unfold served
  rw [Nat.sub_zero, List.drop_zero, Prod.mk.injEq, List.prefix_iff_eq_take]
  constructor
  · intro whole
    have length : min data.length wanted.length = wanted.length := by
      have count := whole.1
      omega
    rw [length] at whole
    exact whole.2.symm
  · intro front
    have length : min data.length wanted.length = wanted.length := by
      have count := congrArg List.length front
      rw [List.length_take] at count
      omega
    rw [length]
    exact ⟨rfl, front.symm⟩

theorem tarfs_seek_start {path : List UInt8} {tarfs : Tarfs} {file : TarfsFile}
    (found : fileAt path tarfs.files = some file) :
    ∃ sought, tarfsSeek path 0 tarfs = .ok 0 sought ∧
      fileAt path sought.files = some { file with seekPos := 0 } := by
  have seeking : Ends (tarfsSeek path 0)
      (fun result after => result = 0 ∧ after.files = setPos path 0 tarfs.files)
      (fun _ _ => False) tarfs := by
    apply ends_mono (ends_tarfsSeek path 0 tarfs)
    · exact fun result after sought => ⟨sought.1, sought.2.2.1⟩
    · intro stop after missing
      rw [found] at missing
      cases missing
  obtain ⟨_, sought, seeks, rfl, moved⟩ := seeking.exists_ok
  exact ⟨sought, seeks, by rw [moved, file_at_set_pos 0 found]⟩

/-- A listed path reads back the entry it was indexed for exactly when there is a header
whose name is the path without its first byte, and the entry's data starts the data of the
first such header. -/
theorem listed_path_readable_iff (content : Content) (entries : List Entry)
    (garbage : Nat → Int) (fuel : Nat) (archive : Archive content entries)
    (enough : EnoughFuel fuel entries) (tarfs : Tarfs)
    (mounted : tarfsInit content garbage fuel unmounted = .ok ⟨⟩ tarfs) (path : List UInt8)
    (file : TarfsFile) (listed : fileAt path tarfs.files = some file) (buffer : Nat)
    (valid : buffer ≠ 0) :
    ∃ entry, indexedEntry path entries = some entry ∧ entry.data.length = file.len ∧
      ((∃ sought after, tarfsSeek path 0 tarfs = .ok 0 sought ∧
          tarfsRead content fuel path buffer file.len sought =
            .ok ((file.len : Int), entry.data) after) ↔
        ∃ header, headerFor path entries = some header ∧ entry.data <+: header.data) := by
  obtain ⟨list, roomy⟩ := (ends_tarfsInit archive enough).returns mounted
  obtain ⟨entry, indexed, length⟩ := indexed_entry_of_file list listed
  refine ⟨entry, indexed, length, ?_⟩
  have member := List.mem_of_find?_eq_some indexed
  have named : indexedName entry.name = path := by simpa using List.find?_some indexed
  have tail : ∀ byte ∈ path.tail, byte ≠ 0 := by
    rw [← named]
    exact indexed_name_tail_non_nul
      (chained_name_non_nul archive entry (List.mem_of_mem_filter member))
  obtain ⟨sought, seeks, placed⟩ := tarfs_seek_start listed
  have reading := ends_tarfsRead archive enough roomy tail valid file.len placed
  obtain ⟨result, after, reads, back⟩ := reading.exists_ok
  have outcome : (∃ sought after, tarfsSeek path 0 tarfs = .ok 0 sought ∧
      tarfsRead content fuel path buffer file.len sought = .ok ((file.len : Int), entry.data) after) ↔
      result = ((file.len : Int), entry.data) := by
    constructor
    · intro whole
      obtain ⟨other, final, otherSeeks, otherReads⟩ := whole
      rw [seeks] at otherSeeks
      cases otherSeeks
      rw [reads] at otherReads
      cases otherReads
      rfl
    · intro same
      rw [same] at reads
      exact ⟨sought, after, seeks, reads⟩
  rw [outcome]
  cases header : headerFor path entries with
  | none =>
    rw [header] at back
    rw [back.1]
    constructor
    · intro same
      have count := congrArg Prod.fst same
      dsimp only at count
      omega
    · intro impossible
      obtain ⟨_, found, -⟩ := impossible
      cases found
  | some first =>
    rw [header] at back
    obtain ⟨other, found, rfl, -⟩ := back
    obtain rfl := Option.some.inj (found.symm.trans placed)
    have start : toSize ({ file with seekPos := 0 } : TarfsFile).seekPos = 0 := rfl
    rw [start, ← length, served_whole_iff]
    constructor
    · intro front
      exact ⟨first, rfl, front⟩
    · intro front
      obtain ⟨other, same, front⟩ := front
      rw [Option.some.inj same]
      exact front

theorem zero_file_mounted (name : List UInt8) (short : name.length < 0x7c)
    (nonNul : ∀ byte ∈ name, byte ≠ 0) :
    ∃ tarfs file, tarfsInit (zeroFile name 3) (fun _ => 7) 0x7c unmounted = .ok ⟨⟩ tarfs ∧
      fileAt (indexedName name) tarfs.files = some file ∧ file.len = 3 := by
  have archive : Archive (zeroFile name 3) [⟨name, List.replicate 3 0⟩] :=
    zero_file_archive short nonNul (by decide)
  obtain ⟨tarfs, mounted, list⟩ := tarfs_init_total (fun _ => 7) archive
    (zero_file_fuel short (by decide)) (zero_file_roomy (by decide))
  have one : listing tarfs.files = [(indexedName name, 3)] := list
  obtain ⟨file, found⟩ := file_at_eq_some_iff_listed.mpr
    ⟨3, by rw [one]; exact List.mem_singleton_self _⟩
  obtain ⟨entry, indexed, length⟩ := indexed_entry_of_file list found
  have member := List.mem_of_mem_filter (List.mem_of_find?_eq_some indexed)
  rw [List.mem_singleton.mp member] at length
  exact ⟨tarfs, file, mounted, found, length.symm⟩

theorem small_path_readable :
    ∃ tarfs file sought after, tarfsInit (zeroFile [0x61] 3) (fun _ => 7) 0x7c unmounted =
        .ok ⟨⟩ tarfs ∧ fileAt [0x2F, 0x61] tarfs.files = some file ∧
      tarfsSeek [0x2F, 0x61] 0 tarfs = .ok 0 sought ∧
      tarfsRead (zeroFile [0x61] 3) 0x7c [0x2F, 0x61] 0x5000 file.len sought =
        .ok ((file.len : Int), [0, 0, 0]) after := by
  obtain ⟨tarfs, file, mounted, found, length⟩ := zero_file_mounted [0x61] (by decide) (by simp)
  obtain ⟨entry, indexed, -, readable⟩ := listed_path_readable_iff (zeroFile [0x61] 3)
    [⟨[0x61], List.replicate 3 0⟩] (fun _ => 7) 0x7c
    (zero_file_archive (by decide) (by simp) (by decide)) (zero_file_fuel (by decide) (by decide)) tarfs
    mounted [0x2F, 0x61] file found 0x5000 (by decide)
  obtain rfl : ⟨[0x61], List.replicate 3 0⟩ = entry := Option.some.inj indexed
  obtain ⟨sought, after, seeks, reads⟩ := readable.mpr ⟨_, rfl, List.prefix_refl _⟩
  exact ⟨tarfs, file, sought, after, mounted, found, seeks, reads⟩

/-- The file `./a` is listed as `/a`, but a read of `/a` looks for a header named `a`. -/
theorem dotted_path_unreadable :
    ∃ tarfs file sought after, tarfsInit (zeroFile [0x2E, 0x2F, 0x61] 3) (fun _ => 7) 0x7c
        unmounted = .ok ⟨⟩ tarfs ∧ fileAt [0x2F, 0x61] tarfs.files = some file ∧ file.len = 3 ∧
      tarfsSeek [0x2F, 0x61] 0 tarfs = .ok 0 sought ∧
      tarfsRead (zeroFile [0x2E, 0x2F, 0x61] 3) 0x7c [0x2F, 0x61] 0x5000 3 sought =
        .ok (-1, []) after := by
  obtain ⟨tarfs, file, mounted, found, length⟩ :=
    zero_file_mounted [0x2E, 0x2F, 0x61] (by decide) (by simp)
  obtain ⟨sought, seeks, placed⟩ := tarfs_seek_start found
  have archive : Archive (zeroFile [0x2E, 0x2F, 0x61] 3)
      [⟨[0x2E, 0x2F, 0x61], List.replicate 3 0⟩] :=
    zero_file_archive (by decide) (by simp) (by decide)
  have enough : EnoughFuel 0x7c [⟨[0x2E, 0x2F, 0x61], List.replicate 3 0⟩] :=
    zero_file_fuel (by decide) (by decide)
  have nonNul : ∀ byte ∈ ([0x2F, 0x61] : List UInt8).tail, byte ≠ 0 := by simp
  have reading := ends_tarfsRead archive enough (zero_file_roomy (by decide)) nonNul
    (show 0x5000 ≠ 0 by decide) 3 placed
  obtain ⟨result, after, reads, back⟩ := reading.exists_ok
  have missing : headerFor [0x2F, 0x61] [⟨[0x2E, 0x2F, 0x61], List.replicate 3 0⟩] = none := rfl
  rw [missing] at back
  rw [back.1] at reads
  exact ⟨tarfs, file, sought, after, mounted, found, length, seeks, reads⟩

end RiriaKernel.TarEncodings
