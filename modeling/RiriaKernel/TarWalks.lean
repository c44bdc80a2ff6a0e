import RiriaKernel.TarArchives

/-!
# Where the walks over the archive end

Neither walk knows the size of the module. What they look at is a chain of headers, each at
the place that the size field of the one before it gives. Both end inside the module exactly
when this chain is finite and all it needs lies there: the magic, the size field and the name
of each header as far as they are looked at, and the data behind each name that a read can
find. A panic at a size that is no C int is an end as well. A size field with bytes below `0`
decodes to a negative number, and one of them to a step of zero.
-/

namespace RiriaKernel.TarWalks

open HaltingPrograms KernelState TarFiles TarArchives

def InModule (size : Nat) (offset : Int) : Prop := 0 ≤ offset ∧ offset < size

/-- The walk has ended, one way or the other, and looked at the module only. -/
def EndsInside {Value : Type} (size : Nat) (walk : Tar Value) (files : List TarfsFile) : Prop :=
  Ends walk (fun _ after => ∀ offset ∈ after.reads, InModule size offset)
    (fun stop after => stop ≠ .unbounded ∧ ∀ offset ∈ after.reads, InModule size offset)
    ⟨files, []⟩

/-- With enough steps, both walks end inside the module, whatever is asked of them. -/
def WalksEndInside (content : Content) (size : Nat) : Prop :=
  ∃ bound, ∀ fuel, bound ≤ fuel →
    (∀ garbage files, EndsInside size (tarfsInit content garbage fuel) files) ∧
      ∀ path buffer sz files, (∀ byte ∈ path, byte ≠ 0) →
        EndsInside size (tarfsRead content fuel path buffer sz) files

/-! ## What a walk looks at -/

/-- A comparison with `bytes` looks as far as the first difference. -/
def ComparesInside (content : Content) (size : Nat) : (ptr : Int) → (bytes : List UInt8) → Prop
  | _, [] => True
  | ptr, byte :: rest =>
      InModule size ptr ∧ (content ptr = byte → ComparesInside content size (ptr + 1) rest)

/-- What `oct2bin` returns, unless it overflows. -/
def decoded (content : Content) : (str : Int) → (digits : Nat) → (n : Int) → Option Int
  | _, 0, n => some n
  | str, digits + 1, n =>
      if FitsInt (n * 8) ∧ FitsInt (n * 8 + ((content str).toNat - 48)) then
        decoded content (str + 1) digits (n * 8 + ((content str).toNat - 48))
      else none

/-- `oct2bin` looks as far as the first overflow. -/
def DecodesInside (content : Content) (size : Nat) : (str : Int) → (digits : Nat) → (n : Int) → Prop
  | _, 0, _ => True
  | str, digits + 1, n => FitsInt (n * 8) → InModule size str ∧
      (FitsInt (n * 8 + ((content str).toNat - 48)) →
        DecodesInside content size (str + 1) digits (n * 8 + ((content str).toNat - 48)))

/-- The header behind one with this size field, unless the step overflows. -/
def followed (ptr fileSize : Int) : Option Int :=
  if FitsInt (fileSize + 511) ∧ FitsInt (((fileSize + 511).tdiv 512 + 1) * 512) then
    some (ptr + ((fileSize + 511).tdiv 512 + 1) * 512)
  else none

structure Named (content : Content) (size : Nat) (ptr : Int) (name : List UInt8) : Prop where
  stored : HoldsAt content ptr (name ++ [0])
  nonNul : ∀ byte ∈ name, byte ≠ 0
  inside : ∀ i : Nat, i < name.length + 1 → InModule size (ptr + i)

/-- Fewer than `headers` headers from `ptr` on, with their names in the module, and the data of
those whose name is not one of `seen`; the last step ends at a block without the magic, or
overflows. -/
def ChainFits (content : Content) (size : Nat) :
    (headers : Nat) → (seen : List (List UInt8)) → (ptr : Int) → Prop
  | 0, _, _ => False
  | headers + 1, seen, ptr =>
      ComparesInside content size (ptr + 257) ustar ∧ (HoldsAt content (ptr + 257) ustar →
        DecodesInside content size (ptr + 0x7c) 11 0 ∧
          ∀ fileSize, decoded content (ptr + 0x7c) 11 0 = some fileSize →
            ∃ name, Named content size ptr name ∧
              (name ∉ seen → ∀ i : Nat, i < toSize fileSize → InModule size (ptr + 512 + i)) ∧
              ∀ next, followed ptr fileSize = some next →
                ChainFits content size headers (name :: seen) next)

section Looking

variable {content : Content} {size : Nat} {files : List TarfsFile} {path : List UInt8}
  {buffer sz : Nat} {ptr fileSize : Int} {reads : List Int}

def Inside (size : Nat) (reads : List Int) : Prop := ∀ offset ∈ reads, InModule size offset

theorem inside_cons {offset : Int} :
    Inside size (offset :: reads) ↔ Inside size reads ∧ InModule size offset := by
  rw [Inside, List.forall_mem_cons, and_comm, Inside]

section Runs

variable (content) (size) (files)

theorem memcmp_run (bytes : List UInt8) (ptr : Int) (reads : List Int) : ∃ reads',
    memcmpEq content ptr bytes ⟨files, reads⟩ =
        .ok (decide (HoldsAt content ptr bytes)) ⟨files, reads'⟩ ∧
      (Inside size reads' ↔ Inside size reads ∧ ComparesInside content size ptr bytes) := by
  induction bytes generalizing ptr reads with
  | nil => exact ⟨reads, rfl, (and_iff_left trivial).symm⟩
  | cons byte rest induction =>
    have run : memcmpEq content ptr (byte :: rest) ⟨files, reads⟩ =
        (if content ptr = byte then memcmpEq content (ptr + 1) rest else pure false)
          ⟨files, ptr :: reads⟩ := rfl
    simp only [run, HoldsAt, ComparesInside]
    by_cases same : content ptr = byte
    · obtain ⟨reads', compared, inside⟩ := induction (ptr + 1) (ptr :: reads)
      refine ⟨reads', ?_, ?_⟩
      · rw [if_pos same, compared]
        simp only [same, true_and]
      · rw [inside, inside_cons, and_assoc]
        simp only [same, true_implies]
    · refine ⟨ptr :: reads, ?_, ?_⟩
      · rw [if_neg same]
        simp only [same, false_and, decide_false]
        rfl
      · rw [inside_cons]
        simp only [same, false_implies, and_true]

theorem strcmp_eq_memcmp (string : List UInt8) (ptr : Int) :
    strcmpEq content ptr string = memcmpEq content ptr (string ++ [0]) := by
  induction string generalizing ptr with
  | nil =>
    funext tarfs
    show (pure (decide (content ptr = 0)) : Tar Bool) _ =
      (if content ptr = 0 then pure true else pure false : Tar Bool) _
    by_cases same : content ptr = 0
    · rw [if_pos same, decide_eq_true same]
    · rw [if_neg same, decide_eq_false same]
  | cons byte rest induction => simp only [strcmpEq, List.cons_append, memcmpEq, induction]

theorem oct2bin_run (digits : Nat) (str n : Int) (reads : List Int) : ∃ reads',
    (Inside size reads' ↔ Inside size reads ∧ DecodesInside content size str digits n) ∧
      ((∃ value, decoded content str digits n = some value ∧
          oct2bin content str digits n ⟨files, reads⟩ = .ok value ⟨files, reads'⟩) ∨
        decoded content str digits n = none ∧ ∃ message,
          oct2bin content str digits n ⟨files, reads⟩ = .error (.panic message) ⟨files, reads'⟩) := by
  induction digits generalizing str n reads with
  | zero => exact ⟨reads, (and_iff_left trivial).symm, Or.inl ⟨n, rfl, rfl⟩⟩
  | succ digits induction =>
    let sum := n * 8 + (((content str).toNat : Int) - 48)
    simp only [decoded, DecodesInside]
    by_cases shifts : FitsInt (n * 8)
    · have run : oct2bin content str (digits + 1) n ⟨files, reads⟩ =
          (checkedInt "addition overflow detected" sum >>= oct2bin content (str + 1) digits)
            ⟨files, str :: reads⟩ := by
        rw [oct2bin, checkedInt, if_pos shifts]
        rfl
      rw [run, checkedInt]
      by_cases adds : FitsInt sum
      · obtain ⟨reads', inside, rest⟩ := induction (str + 1) sum (str :: reads)
        refine ⟨reads', ?_, ?_⟩
        · rw [inside, inside_cons, and_assoc]
          simp only [shifts, adds, sum, true_implies]
        · rw [if_pos adds, if_pos ⟨shifts, adds⟩]
          exact rest
      · refine ⟨str :: reads, ?_,
          Or.inr ⟨if_neg fun both => adds both.2, "addition overflow detected", ?_⟩⟩
        · rw [inside_cons]
          simp only [shifts, adds, sum, true_implies, false_implies, and_true]
        · rw [if_neg adds]
          rfl
    · refine ⟨reads, ?_, Or.inr ⟨if_neg fun both => shifts both.1,
        "multiplication overflow detected", ?_⟩⟩
      · simp only [shifts, false_implies, and_true]
      · rw [oct2bin, checkedInt, if_neg shifts]
        rfl

theorem next_header_run (ptr fileSize : Int) (tarfs : Tarfs) :
    (∃ next, followed ptr fileSize = some next ∧ nextHeader ptr fileSize tarfs = .ok next tarfs) ∨
      followed ptr fileSize = none ∧
        ∃ message, nextHeader ptr fileSize tarfs = .error (.panic message) tarfs := by
  unfold nextHeader followed
  by_cases raised : FitsInt (fileSize + 511)
  · have added : FitsInt ((fileSize + 511).tdiv 512 + 1) := by
      unfold FitsInt at raised ⊢
      rw [Int.tdiv_eq_ediv, show Int.sign 512 = 1 from rfl]
      split <;> omega
    rw [checkedInt, if_pos raised]
    by_cases steps : FitsInt (((fileSize + 511).tdiv 512 + 1) * 512)
    · refine Or.inl ⟨_, if_pos ⟨raised, steps⟩, ?_⟩
      simp only [pure_bind, checkedInt, if_pos added, if_pos steps]
      rfl
    · refine Or.inr ⟨if_neg fun both => steps both.2, "multiplication overflow detected", ?_⟩
      simp only [pure_bind, checkedInt, if_pos added, if_neg steps]
      rfl
  · refine Or.inr ⟨if_neg fun both => raised both.1, "addition overflow detected", ?_⟩
    rw [checkedInt, if_neg raised]
    rfl

theorem copy_run (count : Nat) (ptr : Int) (reads : List Int) : ∃ data reads',
    copyBytes content ptr count ⟨files, reads⟩ = .ok data ⟨files, reads'⟩ ∧
      (Inside size reads' ↔ Inside size reads ∧ ∀ i : Nat, i < count → InModule size (ptr + i)) := by
  induction count generalizing ptr reads with
  | zero => exact ⟨[], reads, rfl, by simp⟩
  | succ count induction =>
    obtain ⟨data, reads', run, inside⟩ := induction (ptr + 1) (ptr :: reads)
    refine ⟨content ptr :: data, reads', ?_, ?_⟩
    · have first : copyBytes content ptr (count + 1) ⟨files, reads⟩ =
          (copyBytes content (ptr + 1) count >>= fun rest => pure (content ptr :: rest))
            ⟨files, ptr :: reads⟩ := rfl
      rw [first]
      simp only [bind, EStateM.bind, run]
      rfl
    · rw [inside, inside_cons, and_assoc]
      refine and_congr_right fun _ => ⟨fun both i bound => ?_, fun all => ?_⟩
      · cases i with
        | zero => simpa using both.1
        | succ i =>
          rw [show ptr + ((i + 1 : Nat) : Int) = ptr + 1 + i by omega]
          exact both.2 i (by omega)
      · exact ⟨within_head all, within_tail all⟩

end Runs

/-- `readFile` looks at the part of the data behind the position. -/
def DataFits (size : Nat) (files : List TarfsFile) (path : List UInt8) (buffer sz : Nat)
    (ptr fileSize : Int) : Prop :=
  ∀ index, (files.findIdx? fun file => file.loc = path) = some index → buffer ≠ 0 →
    ∀ i : Nat, i < min (toSize fileSize - toSize ((files[index]?.map TarfsFile.seekPos).getD 0)) sz →
      InModule size (ptr + 512 + toSize ((files[index]?.map TarfsFile.seekPos).getD 0) + i)

theorem read_file_iff :
    Ends (readFile content path buffer sz ptr fileSize) (fun _ after => Inside size after.reads)
        (fun stop after => stop ≠ .unbounded ∧ Inside size after.reads) ⟨files, reads⟩ ↔
      Inside size reads ∧ DataFits size files path buffer sz ptr fileSize := by
  unfold readFile tarfsFindFile DataFits
  simp only [ends_bind, ends_get]
  cases found : files.findIdx? fun file => file.loc = path with
  | none => simp [ends_throw]
  | some index =>
    simp only [ends_pure, ends_bind, ends_get, Option.some_inj, forall_eq']
    generalize toSize ((files[index]?.map TarfsFile.seekPos).getD 0) = seekPos
    generalize toSize fileSize = total
    rw [ends_ite, ends_ite, ends_ite, ends_pure, ends_throw]
    by_cases behind : seekPos > total
    · have none : ∀ i : Nat, ¬i < min (total - seekPos) sz := by omega
      simp only [behind, if_true, none, false_implies, implies_true, and_true]
    by_cases nothing : min (total - seekPos) sz = 0
    · simp only [behind, nothing, if_true, if_false, Nat.not_lt_zero, false_implies, implies_true,
        and_true]
    by_cases null : buffer = 0
    · simp only [behind, nothing, null, if_true, if_false, ne_eq, reduceCtorEq, not_false_eq_true,
        true_and, not_true_eq_false, false_implies, and_true]
    · obtain ⟨data, reads', run, inside⟩ :=
        copy_run content size files (min (total - seekPos) sz) (ptr + 512 + seekPos) reads
      simp only [behind, nothing, null, if_false, ends_bind, ends_of_ok run, setSeekPos, ends_modify,
        ends_pure, inside, ne_eq, not_false_eq_true, true_implies]

/-- What `tarfs_read` looks at from `ptr` on. -/
def ReadFits (content : Content) (size : Nat) (files : List TarfsFile) (path : List UInt8)
    (buffer sz : Nat) : (fuel : Nat) → (ptr : Int) → Prop
  | 0, _ => False
  | fuel + 1, ptr =>
      ComparesInside content size (ptr + 257) ustar ∧ (HoldsAt content (ptr + 257) ustar →
        DecodesInside content size (ptr + 0x7c) 11 0 ∧
          ∀ fileSize, decoded content (ptr + 0x7c) 11 0 = some fileSize →
            ComparesInside content size ptr (path.tail ++ [0]) ∧
              (HoldsAt content ptr (path.tail ++ [0]) →
                DataFits size files path buffer sz ptr fileSize) ∧
              (¬HoldsAt content ptr (path.tail ++ [0]) → ∀ next, followed ptr fileSize = some next →
                ReadFits content size files path buffer sz fuel next))

theorem read_headers_iff (fuel : Nat) (ptr : Int) (reads : List Int) :
    Ends (readHeaders content path buffer sz fuel ptr) (fun _ after => Inside size after.reads)
        (fun stop after => stop ≠ .unbounded ∧ Inside size after.reads) ⟨files, reads⟩ ↔
      Inside size reads ∧ ReadFits content size files path buffer sz fuel ptr := by
  induction fuel generalizing ptr reads with
  | zero => simp [readHeaders, ends_throw, ReadFits]
  | succ fuel induction =>
    obtain ⟨compared, compares, looked⟩ := memcmp_run content size files ustar (ptr + 257) reads
    rw [readHeaders, ends_bind, ends_of_ok compares, ReadFits, ← and_assoc, ← looked, ends_ite]
    by_cases magic : HoldsAt content (ptr + 257) ustar
    · obtain ⟨sized, decodes, runs⟩ := oct2bin_run content size files 11 (ptr + 0x7c) 0 compared
      simp only [magic, decide_true, if_true, true_implies, ends_bind]
      rw [← and_assoc, ← decodes]
      rcases runs with ⟨fileSize, value, run⟩ | ⟨none, message, run⟩
      · obtain ⟨named, names, matched⟩ := memcmp_run content size files (path.tail ++ [0]) ptr sized
        rw [ends_of_ok run, ends_bind, strcmp_eq_memcmp, ends_of_ok names, ends_ite]
        simp only [value, Option.some_inj, forall_eq']
        rw [← and_assoc, ← matched]
        by_cases same : HoldsAt content ptr (path.tail ++ [0])
        · simp only [same, decide_true, if_true, true_implies, not_true_eq_false, false_implies,
            and_true, read_file_iff]
        · simp only [same, decide_false, Bool.false_eq_true, if_false, false_implies, true_and,
            not_false_eq_true, true_implies, ends_bind]
          rcases next_header_run ptr fileSize ⟨files, named⟩ with ⟨next, step, run⟩ | ⟨none, message, run⟩
          · simp only [ends_of_ok run, step, Option.some_inj, forall_eq', induction]
          · simp [ends_of_error run, none]
      · simp [ends_of_error run, none]
    · simp only [magic, decide_false, Bool.false_eq_true, if_false, false_implies, and_true, ends_pure]

/-! ## Names -/

theorem Named.short {name : List UInt8} (named : Named content size ptr name) :
    name.length < size := by
  have first := (within_head named.inside).1
  have last := (named.inside name.length (Nat.lt_succ_self _)).2
  omega

theorem Named.tail {byte : UInt8} {rest : List UInt8} (named : Named content size ptr (byte :: rest)) :
    Named content size (ptr + 1) rest :=
  ⟨named.stored.2, fun other member => named.nonNul other (List.mem_cons_of_mem _ member),
    within_tail named.inside⟩

theorem Named.compares {name string : List UInt8} (named : Named content size ptr name)
    (nonNul : ∀ byte ∈ string, byte ≠ 0) :
    ComparesInside content size ptr (string ++ [0]) ∧
      (HoldsAt content ptr (string ++ [0]) → string = name) := by
  induction string generalizing name ptr with
  | nil =>
    refine ⟨⟨within_head named.inside, fun _ => trivial⟩, fun stored => ?_⟩
    cases name with
    | nil => rfl
    | cons first rest =>
      exact absurd (named.stored.1.symm.trans stored.1) (named.nonNul first List.mem_cons_self)
  | cons byte rest induction =>
    cases name with
    | nil =>
      -- the string goes on where the name ends
      have differs : content ptr ≠ byte := fun same =>
        nonNul byte List.mem_cons_self (same.symm.trans named.stored.1)
      exact ⟨⟨within_head named.inside, fun same => absurd same differs⟩,
        fun stored => absurd stored.1 differs⟩
    | cons first others =>
      obtain ⟨looks, same⟩ := induction named.tail
        fun other member => nonNul other (List.mem_cons_of_mem _ member)
      refine ⟨⟨within_head named.inside, fun _ => looks⟩, fun stored => ?_⟩
      rw [same stored.2, ← named.stored.1, stored.1]

theorem looks_inside {front rest : List UInt8} {byte : UInt8}
    (looks : ComparesInside content size ptr (front ++ byte :: rest)) (stored : HoldsAt content ptr front)
    (i : Nat) (bound : i < front.length + 1) : InModule size (ptr + i) := by
  induction front generalizing ptr i with
  | nil =>
    obtain rfl : i = 0 := by simpa using bound
    simpa using looks.1
  | cons first others induction =>
    cases i with
    | zero => simpa using looks.1
    | succ i =>
      rw [show ptr + ((i + 1 : Nat) : Int) = ptr + 1 + i by omega]
      exact induction (looks.2 stored.1) stored.2 i (by simpa using bound)

/-- The bytes from `ptr` on hold a string, or a long run without a terminator. -/
theorem string_or_long (content : Content) (count : Nat) (ptr : Int) :
    ∃ front, HoldsAt content ptr front ∧ (∀ byte ∈ front, byte ≠ 0) ∧
      (HoldsAt content ptr (front ++ [0]) ∨ front.length = count) := by
  induction count generalizing ptr with
  | zero => exact ⟨[], trivial, List.forall_mem_nil _, Or.inr rfl⟩
  | succ count induction =>
    by_cases ended : content ptr = 0
    · exact ⟨[], trivial, List.forall_mem_nil _, Or.inl ⟨ended, trivial⟩⟩
    · obtain ⟨front, stored, nonNul, either⟩ := induction (ptr + 1)
      refine ⟨content ptr :: front, ⟨rfl, stored⟩, List.forall_mem_cons.mpr ⟨ended, nonNul⟩, ?_⟩
      exact either.imp (fun string => ⟨rfl, string⟩) fun long => congrArg (· + 1) long

theorem named_of_looks (looks : ∀ string, (∀ byte ∈ string, byte ≠ 0) → size ≤ string.length →
    ComparesInside content size ptr (string ++ [0])) : ∃ name, Named content size ptr name := by
  obtain ⟨front, stored, nonNul, string | long⟩ := string_or_long content (size + 1) ptr
  · refine ⟨front, string, nonNul, fun i bound => ?_⟩
    have longer := looks (front ++ List.replicate (size + 1) 1) ?_ ?_
    · rw [List.replicate_succ, List.append_assoc, List.cons_append] at longer
      exact looks_inside longer stored i bound
    · intro byte member
      rcases List.mem_append.mp member with own | filler
      · exact nonNul byte own
      · rw [List.eq_of_mem_replicate filler]
        decide
    · rw [List.length_append, List.length_replicate]
      omega
  · have inside := looks_inside (looks front nonNul (by omega)) stored
    have first := (inside 0 (by omega)).1
    have last := (inside size (by omega)).2
    omega

/-! ## Chains -/

theorem ChainFits.read_fits {headers fuel : Nat} {seen : List (List UInt8)}
    (chain : ChainFits content size headers seen ptr) (unseen : path.tail ∉ seen)
    (nonNul : ∀ byte ∈ path.tail, byte ≠ 0) (enough : headers ≤ fuel) :
    ReadFits content size files path buffer sz fuel ptr := by
  induction headers generalizing seen ptr fuel with
  | zero => exact chain.elim
  | succ headers induction =>
    obtain ⟨steps, rfl⟩ := Nat.exists_eq_add_of_le' (Nat.lt_of_lt_of_le (Nat.succ_pos _) enough)
    refine ⟨chain.1, fun magic => ?_⟩
    obtain ⟨decodes, entry⟩ := chain.2 magic
    refine ⟨decodes, fun fileSize value => ?_⟩
    obtain ⟨name, named, data, later⟩ := entry fileSize value
    obtain ⟨looks, same⟩ := named.compares nonNul
    refine ⟨looks, fun matched index _ _ i bound => ?_, fun differs next step => ?_⟩
    · have inside := data (same matched ▸ unseen)
        (toSize ((files[index]?.map TarfsFile.seekPos).getD 0) + i) (by omega)
      rwa [Int.natCast_add, ← Int.add_assoc] at inside
    · apply induction (later next step) _ (by omega)
      rintro (_ | ⟨_, earlier⟩)
      · exact differs named.stored
      · exact unseen earlier

theorem ChainFits.index_ends {headers fuel names : Nat} {seen : List (List UInt8)}
    {garbage : Nat → Int} (chain : ChainFits content size headers seen ptr) (enough : headers ≤ fuel)
    (long : size ≤ names) (inside : Inside size reads) :
    Ends (indexHeaders content garbage names fuel ptr) (fun _ after => Inside size after.reads)
      (fun stop after => stop ≠ .unbounded ∧ Inside size after.reads) ⟨files, reads⟩ := by
  induction headers generalizing seen ptr fuel reads files with
  | zero => exact chain.elim
  | succ headers induction =>
    obtain ⟨steps, rfl⟩ := Nat.exists_eq_add_of_le' (Nat.lt_of_lt_of_le (Nat.succ_pos _) enough)
    obtain ⟨compared, compares, looked⟩ := memcmp_run content size files ustar (ptr + 257) reads
    have insideCompared := looked.mpr ⟨inside, chain.1⟩
    rw [indexHeaders, ends_bind, ends_of_ok compares, ends_ite]
    by_cases magic : HoldsAt content (ptr + 257) ustar
    · obtain ⟨decodes, entry⟩ := chain.2 magic
      obtain ⟨sized, digits, runs⟩ := oct2bin_run content size files 11 (ptr + 0x7c) 0 compared
      have insideSized := digits.mpr ⟨insideCompared, decodes⟩
      rw [if_pos (decide_eq_true magic), ends_bind]
      rcases runs with ⟨fileSize, value, run⟩ | ⟨none, message, run⟩
      · obtain ⟨name, named, -, later⟩ := entry fileSize value
        have continues : ∀ tarfs : Tarfs, Inside size tarfs.reads →
            Ends (nextHeader ptr fileSize >>= indexHeaders content garbage names steps)
              (fun _ after => Inside size after.reads)
              (fun stop after => stop ≠ .unbounded ∧ Inside size after.reads) tarfs := by
          intro tarfs insideTarfs
          rw [ends_bind]
          rcases next_header_run ptr fileSize tarfs with ⟨next, step, run⟩ | ⟨none, message, run⟩
          · rw [ends_of_ok run]
            exact induction (later next step) (by omega) insideTarfs
          · rw [ends_of_error run]
            exact ⟨Stop.noConfusion, insideTarfs⟩
        rw [ends_of_ok run]
        dsimp only
        rw [ends_ite, ends_bind]
        split
        · apply ends_mono (ends_tarfsAddFile garbage (toSize fileSize) ⟨files, sized⟩
            (Nat.lt_of_lt_of_le named.short long) named.stored named.nonNul named.inside) _
            fun _ _ => False.elim
          intro _ after added
          apply continues
          exact fun offset member => (added.2 offset member).elim (insideSized offset) id
        · exact continues _ insideSized
      · rw [ends_of_error run]
        exact ⟨Stop.noConfusion, insideSized⟩
    · rw [if_neg (by simpa using magic), ends_pure]
      exact insideCompared

/-- The induction is on the headers left. A path that is longer than any name passes every
header; one that is the name of this header shows its data. -/
theorem chain_of_reads {fuel : Nat} {seen : List (List UInt8)}
    (fits : ∀ files path buffer sz, (∀ byte ∈ path, byte ≠ 0) → path.tail ∉ seen →
      ReadFits content size files path buffer sz fuel ptr)
    (short : ∀ name ∈ seen, name.length < size) : ChainFits content size fuel seen ptr := by
  have longer : ∀ string : List UInt8, size ≤ string.length → string ∉ seen :=
    fun string long member => Nat.not_lt.mpr long (short string member)
  induction fuel generalizing seen ptr with
  | zero => exact fits [] (List.replicate (size + 1) 1) 0 0 (by simp) (longer _ (by simp))
  | succ fuel induction =>
    obtain ⟨compares, header⟩ :=
      fits [] (List.replicate (size + 1) 1) 0 0 (by simp) (longer _ (by simp))
    refine ⟨compares, fun magic => ⟨(header magic).1, fun fileSize value => ?_⟩⟩
    have steps := fun files path buffer sz nonNul unseen =>
      ((fits files path buffer sz nonNul unseen).2 magic).2 fileSize value
    obtain ⟨name, named⟩ := named_of_looks fun string nonNul long => (steps [] (0x2F :: string) 0 0
      (List.forall_mem_cons.mpr ⟨by decide, nonNul⟩) (longer string long)).1
    refine ⟨name, named, fun unseen i bound => ?_, fun next step => ?_⟩
    · have data := (steps [⟨0x2F :: name, 0, 0⟩] (0x2F :: name) 1 (toSize fileSize)
        (List.forall_mem_cons.mpr ⟨by decide, named.nonNul⟩) unseen).2.1 named.stored 0 (by simp)
        one_ne_zero i
      have start :
          toSize (([⟨0x2F :: name, 0, 0⟩] : List TarfsFile)[0]?.map TarfsFile.seekPos |>.getD 0) = 0 :=
        rfl
      rw [start, Nat.sub_zero, Nat.min_self, Int.natCast_zero, Int.add_zero] at data
      exact data bound
    · have shorter : ∀ other ∈ name :: seen, other.length < size :=
        List.forall_mem_cons.mpr ⟨named.short, short⟩
      refine induction (fun files path buffer sz nonNul unseen => ?_) shorter
        fun string long member => Nat.not_lt.mpr long (shorter string member)
      rw [List.mem_cons, not_or] at unseen
      refine (steps files path buffer sz nonNul unseen.2).2.2 (fun stored => unseen.1 ?_) next step
      exact (named.compares fun byte member => nonNul byte (List.mem_of_mem_tail member)).2 stored

end Looking

/-- One look is enough to see that 258 zeros are no archive. -/
example : ChainFits (fun _ => 0) 258 1 [] 0 :=
  ⟨⟨⟨by decide, by decide⟩, fun same => absurd same (by decide)⟩,
    fun magic => absurd magic.1 (by decide)⟩

def stuckHeader : Content := fun offset =>
  if 257 ≤ offset ∧ offset < 262 then ustar.getD (offset - 257).toNat 0
  else if 0x7c ≤ offset ∧ offset < 0x7c + 8 then 48
  else if offset = 0x7c + 8 then 33
  else if offset = 0x7c + 9 ∨ offset = 0x7c + 10 then 41
  else 0

/-- The step over that header is zero, so the walk never leaves it. -/
theorem stuck_header_repeats (garbage : Nat → Int) (names fuel : Nat) (before : Tarfs) :
    Ends (indexHeaders stuckHeader garbage names fuel 0) (fun _ _ => False)
      (fun stop _ => stop = .unbounded) before := by
  induction fuel generalizing before with
  | zero =>
    rw [indexHeaders, ends_throw]
  | succ fuel induction =>
    have magic : ∀ tarfs, ∃ after, memcmpEq stuckHeader (0 + 257) ustar tarfs = .ok true after :=
      fun tarfs => ⟨_, rfl⟩
    have size : ∀ tarfs, ∃ after, oct2bin stuckHeader (0 + 0x7c) 11 0 tarfs = .ok (-1023) after :=
      fun tarfs => ⟨_, rfl⟩
    have step : ∀ tarfs, nextHeader 0 (-1023) tarfs = .ok 0 tarfs := fun tarfs => rfl
    obtain ⟨compared, isHeader⟩ := magic before
    obtain ⟨decoded, decodes⟩ := size compared
    rw [indexHeaders, ends_bind, ends_of_ok isHeader, if_pos rfl, ends_bind, ends_of_ok decodes]
    dsimp only
    rw [if_neg (by decide), ends_bind, ends_of_ok (step decoded)]
    exact induction decoded

end RiriaKernel.TarWalks
