import RiriaKernel.TarArchives

/-!
# Reading from an archive

`tarfs_read` and `tarfs_seek` on a well-formed archive. A read goes by names twice: the
header is the first whose name is the path without its first byte, the position is that of
the first file the index lists at the path. What is served is a piece of that header's data.
-/

namespace RiriaKernel.TarReads

open HaltingPrograms KernelState TarFiles TarArchives

/-! ## Positions -/

def fileAt (path : List UInt8) (files : List TarfsFile) : Option TarfsFile :=
  files.find? fun file => file.loc = path

def setPos (path : List UInt8) (seekPos : Int) : List TarfsFile → List TarfsFile
  | [] => []
  | file :: rest =>
      if file.loc = path then { file with seekPos } :: rest else file :: setPos path seekPos rest

theorem file_at_cons (path : List UInt8) (file : TarfsFile) (rest : List TarfsFile) :
    fileAt path (file :: rest) = if file.loc = path then some file else fileAt path rest := by
  unfold fileAt
  rw [List.find?_cons]
  by_cases same : file.loc = path <;> simp [same]

theorem file_at_set_pos {path : List UInt8} {files : List TarfsFile} {file : TarfsFile}
    (seekPos : Int) (found : fileAt path files = some file) :
    fileAt path (setPos path seekPos files) = some { file with seekPos } := by
  induction files with
  | nil => cases found
  | cons first rest induction =>
    rw [file_at_cons] at found
    rw [setPos]
    by_cases same : first.loc = path
    · rw [if_pos same] at found ⊢
      obtain rfl := Option.some.inj found
      rw [file_at_cons, if_pos same]
    · rw [if_neg same] at found ⊢
      rw [file_at_cons, if_neg same, induction found]

theorem file_at_set_pos_other {path other : List UInt8} (different : other ≠ path) (seekPos : Int)
    (files : List TarfsFile) : fileAt other (setPos path seekPos files) = fileAt other files := by
  induction files with
  | nil => rfl
  | cons first rest induction =>
    rw [setPos]
    by_cases same : first.loc = path
    · have elsewhere : first.loc ≠ other := by
        rw [same]
        exact different.symm
      rw [if_pos same, file_at_cons, file_at_cons, if_neg elsewhere, if_neg elsewhere]
    · rw [if_neg same, file_at_cons, file_at_cons, induction]

theorem listing_set_pos (path : List UInt8) (seekPos : Int) (files : List TarfsFile) :
    listing (setPos path seekPos files) = listing files := by
  induction files with
  | nil => rfl
  | cons first rest induction =>
    rw [setPos]
    split
    · rfl
    · change _ :: listing _ = _ :: listing _
      rw [induction]

theorem set_pos_self {path : List UInt8} {files : List TarfsFile} {file : TarfsFile}
    (found : fileAt path files = some file) : setPos path file.seekPos files = files := by
  induction files with
  | nil => rfl
  | cons first rest induction =>
    rw [file_at_cons] at found
    rw [setPos]
    by_cases same : first.loc = path
    · rw [if_pos same] at found ⊢
      obtain rfl := Option.some.inj found
      rfl
    · rw [if_neg same] at found ⊢
      rw [induction found]

theorem file_at_eq_some_iff_listed {path : List UInt8} {files : List TarfsFile} :
    (∃ file, fileAt path files = some file) ↔ ∃ len, (path, len) ∈ listing files := by
  unfold fileAt listing
  constructor
  · intro found
    obtain ⟨file, found⟩ := found
    have same : file.loc = path := by simpa using List.find?_some found
    exact ⟨file.len, List.mem_map.mpr ⟨file, List.mem_of_find?_eq_some found, by rw [same]⟩⟩
  · intro listed
    obtain ⟨len, member⟩ := listed
    obtain ⟨file, inside, pair⟩ := List.mem_map.mp member
    apply Option.isSome_iff_exists.mp
    apply List.find?_isSome.mpr
    exact ⟨file, inside, decide_eq_true (congrArg Prod.fst pair)⟩

theorem find_idx_spec (path : List UInt8) (files : List TarfsFile) :
    match files.findIdx? fun file => file.loc = path with
    | none => fileAt path files = none
    | some index => fileAt path files = files[index]? ∧ (fileAt path files).isSome ∧
        ∀ seekPos, (files.modify index fun file => { file with seekPos }) =
          setPos path seekPos files := by
  induction files with
  | nil => rfl
  | cons first rest induction =>
    rw [List.findIdx?_cons, file_at_cons]
    by_cases same : first.loc = path
    · simp [same, setPos]
    · rw [if_neg same, decide_eq_false same]
      cases found : rest.findIdx? fun file => file.loc = path with
      | none =>
        rw [found] at induction
        simpa using induction
      | some index =>
        rw [found] at induction
        simp only [Bool.false_eq_true, if_false, Option.map_some, List.getElem?_cons_succ,
          List.modify_succ_cons, setPos, if_neg same]
        exact ⟨induction.1, induction.2.1, fun seekPos => by rw [induction.2.2]⟩

theorem ends_tarfsFindFile (path : List UInt8) (before : Tarfs) :
    Ends (tarfsFindFile path)
      (fun index after => after = before ∧ ∃ file, fileAt path before.files = some file ∧
        before.files[index]? = some file ∧ ∀ seekPos,
          (before.files.modify index fun file => { file with seekPos }) =
            setPos path seekPos before.files)
      (fun stop after => fileAt path before.files = none ∧ (∃ message, stop = .panic message) ∧
        after = before) before := by
  have search := find_idx_spec path before.files
  simp only [tarfsFindFile, ends_bind, ends_get]
  cases found : before.files.findIdx? fun file => file.loc = path with
  | none =>
    rw [found] at search
    rw [ends_throw]
    exact ⟨search, ⟨_, rfl⟩, rfl⟩
  | some index =>
    rw [found] at search
    obtain ⟨place, some, modified⟩ := search
    obtain ⟨file, found⟩ := Option.isSome_iff_exists.mp some
    rw [ends_pure]
    exact ⟨rfl, file, found, place.symm.trans found, modified⟩

/-! ## Reads and seeks -/

def served (data : List UInt8) (pos sz : Nat) : Int × List UInt8 :=
  ((min (data.length - pos) sz : Nat), (data.drop pos).take (min (data.length - pos) sz))

def advanced (length sz : Nat) (seekPos : Int) : Int :=
  if min (length - toSize seekPos) sz = 0 then seekPos
  else intOf (toSize seekPos + min (length - toSize seekPos) sz)

theorem served_none {data : List UInt8} {pos sz : Nat} (none : min (data.length - pos) sz = 0) :
    served data pos sz = (0, []) := by
  rw [served, none]
  rfl

theorem ssize_of_small {value : Nat} (small : value < 2 ^ 63) : ssizeOf value = value := by
  unfold ssizeOf
  rw [Int.bmod_def]
  omega

section Reading

variable {content : Content} {inside : Int → Prop} {last : Int → Prop}

theorem ends_setSeekPos (index : Nat) (seekPos : Int) {returned : PUnit → Tarfs → Prop}
    {stopped : Stop → Tarfs → Prop} {before : Tarfs} :
    Ends (setSeekPos index seekPos) returned stopped before =
      returned ⟨⟩ { before with
        files := before.files.modify index fun file => { file with seekPos } } := by
  rw [setSeekPos, ends_modify]

theorem ends_readFile {ptr : Int} {entry : Entry} (stored : Stored content ptr entry)
    (small : entry.data.length < 2 ^ 31)
    (within : ∀ i : Nat, i < span entry.data.length → inside (ptr + i)) (path : List UInt8)
    (buffer sz : Nat) (before : Tarfs) :
    Ends (readFile content path buffer sz ptr entry.data.length)
      (fun result after => ∃ file, fileAt path before.files = some file ∧
        result = served entry.data (toSize file.seekPos) sz ∧
        after.files = setPos path (advanced entry.data.length sz file.seekPos) before.files ∧
        Looked inside before after)
      (fun stop after => (fileAt path before.files = none ∨ buffer = 0) ∧
        Halted inside before stop after) before := by
  have still := (Touched.refl inside before).reads
  simp only [readFile, ends_bind]
  apply ends_mono (ends_tarfsFindFile path before)
  · intro index after search
    obtain ⟨rfl, file, found, place, modified⟩ := search
    rw [ends_bind, ends_get, place, Option.map_some, Option.getD_some,
      toSize_natCast (by omega), ends_ite]
    -- nothing is served past the end, at the end, or to a request for nothing
    have nothing : min (entry.data.length - toSize file.seekPos) sz = 0 →
        ((0, []) : Int × List UInt8) = served entry.data (toSize file.seekPos) sz ∧
          after.files = setPos path (advanced entry.data.length sz file.seekPos) after.files := by
      intro none
      rw [advanced, if_pos none, set_pos_self found]
      exact ⟨(served_none none).symm, rfl⟩
    by_cases beyond : toSize file.seekPos > entry.data.length
    · rw [if_pos beyond, ends_pure]
      have none := nothing (by omega)
      exact ⟨file, found, none.1, none.2, still⟩
    · rw [if_neg beyond, ends_ite]
      by_cases empty : min (entry.data.length - toSize file.seekPos) sz = 0
      · rw [if_pos empty, ends_pure]
        exact ⟨file, found, (nothing empty).1, (nothing empty).2, still⟩
      · rw [if_neg empty, ends_ite]
        by_cases null : buffer = 0
        · rw [if_pos null, ends_throw]
          exact ⟨Or.inr null, ⟨_, rfl⟩, still⟩
        · rw [if_neg null, ends_bind]
          have covers := header_in_span entry.data.length
          have dataInside : ∀ i : Nat, i < min (entry.data.length - toSize file.seekPos) sz →
              inside (ptr + 512 + toSize file.seekPos + i) := by
            intro i bound
            have fits : 512 + toSize file.seekPos + (entry.data.length - toSize file.seekPos) ≤
                span entry.data.length := by omega
            have place := within_part within (512 + toSize file.seekPos) fits i (by omega)
            rwa [show ptr + ((512 + toSize file.seekPos : Nat) : Int) =
              ptr + 512 + toSize file.seekPos by omega] at place
          apply ends_mono (ends_copyBytes _ _ after dataInside)
          · intro data later copied
            obtain ⟨rfl, touched⟩ := copied
            rw [ends_bind, ends_setSeekPos, ends_pure]
            refine ⟨file, found, ?_, ?_, touched.reads⟩
            · rw [ssize_of_small (by omega), bytes_at_of_holds entry.data (ptr + 512) stored.data
                _ _ (by omega)]
              rfl
            · rw [advanced, if_neg empty, touched.files]
              exact modified _
          · exact fun _ _ => False.elim
  · intro stop after search
    obtain ⟨missing, panics, same⟩ := search
    rw [same]
    exact ⟨Or.inl missing, panics, still⟩

def headerFor (path : List UInt8) (entries : List Entry) : Option Entry :=
  entries.find? fun entry => entry.name = path.tail

theorem header_for_cons (path : List UInt8) (entry : Entry) (rest : List Entry) :
    headerFor path (entry :: rest) =
      if entry.name = path.tail then some entry else headerFor path rest := by
  unfold headerFor
  rw [List.find?_cons]
  by_cases same : entry.name = path.tail <;> simp [same]

/-- What a read returns and leaves, by the header it stops at. -/
def ReadBack (path : List UInt8) (sz : Nat) (before : Tarfs) (result : Int × List UInt8)
    (after : Tarfs) : Option Entry → Prop
  | none => result = (-1, []) ∧ after.files = before.files
  | some entry => ∃ file, fileAt path before.files = some file ∧
      result = served entry.data (toSize file.seekPos) sz ∧
      after.files = setPos path (advanced entry.data.length sz file.seekPos) before.files

theorem ReadBack.of_files {path : List UInt8} {sz : Nat} {before middle after : Tarfs}
    {result : Int × List UInt8} {header : Option Entry} (same : middle.files = before.files)
    (back : ReadBack path sz middle result after header) :
    ReadBack path sz before result after header := by
  cases header with
  | none => exact ⟨back.1, back.2.trans same⟩
  | some entry =>
    unfold ReadBack at back ⊢
    rwa [same] at back

theorem ends_readHeaders (noMagic : ∀ ptr, last ptr → ¬HoldsAt content (ptr + 257) ustar)
    (path : List UInt8) (nonNul : ∀ byte ∈ path.tail, byte ≠ 0) (buffer sz : Nat)
    (entries : List Entry) (fuel : Nat) (ptr : Int) (before : Tarfs)
    (chained : Chained content last entries ptr) (within : Within inside entries ptr)
    (enough : entries.length < fuel) :
    Ends (readHeaders content path buffer sz fuel ptr)
      (fun result after => ReadBack path sz before result after (headerFor path entries) ∧
        Looked inside before after)
      (fun stop after => ((∃ entry ∈ entries, ¬Roomy entry.data.length) ∨
        fileAt path before.files = none ∨ buffer = 0) ∧ Halted inside before stop after) before := by
  induction entries generalizing fuel ptr before with
  | nil =>
    obtain ⟨steps, rfl⟩ := Nat.exists_eq_succ_of_ne_zero (Nat.ne_of_gt enough)
    rw [readHeaders]
    apply ends_last (noMagic ptr chained) within
    intro after touched
    rw [ends_pure]
    exact ⟨⟨rfl, touched.files⟩, touched.reads⟩
  | cons entry rest induction =>
    obtain ⟨steps, rfl⟩ := Nat.exists_eq_succ_of_ne_zero (Nat.ne_of_gt (Nat.zero_lt_of_lt enough))
    obtain ⟨stored, behind⟩ := chained
    obtain ⟨blocks, nameInside, restInside⟩ := within
    rw [readHeaders]
    apply ends_header stored blocks
    · intro after small touched
      rw [ends_bind]
      apply ends_mono (ends_strcmpEq entry.name path.tail ptr after stored.name stored.nonNul
        nonNul nameInside)
      · intro same later compared
        have reached := touched.trans compared.2
        rw [ends_ite, header_for_cons]
        by_cases named : entry.name = path.tail
        · rw [if_pos (compared.1.mpr named), if_pos named]
          apply ends_mono (ends_readFile stored small blocks path buffer sz later)
          · intro result final served
            obtain ⟨file, found, result, moved, looked⟩ := served
            refine ⟨ReadBack.of_files reached.files ?_, reached.reads.trans looked⟩
            exact ⟨file, found, result, moved⟩
          · intro stop final stopping
            rw [reached.files] at stopping
            exact ⟨Or.inr stopping.1, stopping.2.panics, reached.reads.trans stopping.2.reads⟩
        · rw [if_neg fun equal => named (compared.1.mp equal), if_neg named, ends_bind]
          apply ends_mono (ends_nextHeader ptr entry.data.length later)
          · intro next final stepped
            obtain ⟨rfl, -, same⟩ := stepped
            rw [same]
            apply ends_mono (induction steps _ later behind restInside
              (by simp only [List.length_cons] at enough; omega))
            · intro result final walked
              exact ⟨walked.1.of_files reached.files, reached.reads.trans walked.2⟩
            · intro stop final stopping
              rw [reached.files] at stopping
              refine ⟨?_, stopping.2.panics, reached.reads.trans stopping.2.reads⟩
              rcases stopping.1 with ⟨other, member, wide⟩ | missing
              · exact Or.inl ⟨other, List.mem_cons_of_mem _ member, wide⟩
              · exact Or.inr missing
          · intro stop final stepped
            obtain ⟨wide, panics, same⟩ := stepped
            rw [same]
            exact ⟨Or.inl ⟨entry, List.mem_cons_self, wide⟩, panics, reached.reads⟩
      · exact fun _ _ => False.elim
    · intro stop after large halted
      exact ⟨Or.inl ⟨entry, List.mem_cons_self, by unfold Roomy; omega⟩, halted⟩

theorem ends_tarfsSeek (path : List UInt8) (offset : Nat) (before : Tarfs) :
    Ends (tarfsSeek path offset)
      (fun result after => result = intOf offset ∧ (∃ file, fileAt path before.files = some file) ∧
        after.files = setPos path (intOf offset) before.files ∧ after.reads = before.reads)
      (fun _ _ => fileAt path before.files = none) before := by
  simp only [tarfsSeek, ends_bind]
  apply ends_mono (ends_tarfsFindFile path before)
  · intro index after search
    obtain ⟨rfl, file, found, -, modified⟩ := search
    rw [ends_bind, ends_setSeekPos, ends_pure]
    exact ⟨rfl, ⟨file, found⟩, modified _, rfl⟩
  · intro stop after search
    exact search.1

end Reading

end RiriaKernel.TarReads
