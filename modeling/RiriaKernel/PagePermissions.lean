import RiriaKernel.PagemapRoundTrips

/-!
# Permissions of a mapping

The processor allows user access and writing if all four entries on the way to a page do, and
forbids execution if one of them does. `vmm_get_next_level` gives a new table the user flag of the
page it is made for and never changes it, so a user page below a table that was made for a
supervisor page stays out of reach. Writing and execution are always as asked for, and no other
page's permissions change.
-/

namespace RiriaKernel.PagePermissions

open ByteMemory HaltingPrograms KernelState PhysicalAllocator RadixForests PageTables
open PageTableForests PageTableOperations PageTableWords Pagemaps KernelHeapTables
open PagemapRoundTrips

abbrev wayWord (phys : Memory) (root page level : Nat) : Nat :=
  wordAt phys root level (page / 512 ^ (3 - level))

def UserAccessible (phys : Memory) (root page : Nat) : Prop :=
  ∀ level < 4, wayWord phys root page level &&& pteUser ≠ 0

def Writable (phys : Memory) (root page : Nat) : Prop :=
  ∀ level < 4, wayWord phys root page level &&& pteWritable ≠ 0

def NoExecute (phys : Memory) (root page : Nat) : Prop :=
  ∃ level < 4, wayWord phys root page level &&& pteNx ≠ 0

structure Granted (phys : Memory) (root page flags : Nat) : Prop where
  user : UserAccessible phys root page ↔ flags &&& pteUser ≠ 0
  write : Writable phys root page ↔ flags &&& pteWritable ≠ 0
  execute : NoExecute phys root page ↔ flags &&& pteNx ≠ 0

structure SamePermissions (root page : Nat) (before after : Memory) : Prop where
  user : UserAccessible after root page ↔ UserAccessible before root page
  write : Writable after root page ↔ Writable before root page
  execute : NoExecute after root page ↔ NoExecute before root page

/-- A user page needs the user flag in the tables that are there already, and the address of a
frame must not reach the bit that forbids execution. -/
structure Grantable (phys : Memory) (root page frame flags : Nat) : Prop where
  user : flags &&& pteUser ≠ 0 → ∀ level < 3,
    tableAt phys root (level + 1) (page / 512 ^ (3 - level)) ≠ none →
      wayWord phys root page level &&& pteUser ≠ 0
  execute : frame &&& pteNx ≠ 0 → flags &&& pteNx ≠ 0

/-- Entries that lead to a table allow writing and execution. -/
def Linked (phys : Memory) (root : Nat) : Prop :=
  ∀ level key, level < 3 → key < 512 ^ (level + 1) → decode (wordAt phys root level key) ≠ none →
    wordAt phys root level key &&& pteWritable ≠ 0 ∧ wordAt phys root level key &&& pteNx = 0

/-- Sequences of `vmm_map_page` calls on a pagemap, with any addresses, frames and flags. The
pagemap starts with an empty PML4, as in `vmm_install`, or as a copy of the kernel's, and in
between anything may happen that leaves its entries alone. -/
inductive MapRun : Nat → Machine → Set Nat → Prop where
  | install {root : Nat} {machine : Machine} {held : Set Nat} (ready : Ready root {root} held machine)
      (blank : BlankTable machine.phys root) : MapRun root machine held
  | create {root : Nat} {machine after : Machine} {held : Set Nat}
      (prior : MapRun machine.kernelPagemap machine held)
      (run : vmmNewPagemap machine = .ok root after) : MapRun root after held
  | map {root : Nat} {machine after : Machine} {held : Set Nat} {virt frame flags : Nat} {mapped : Bool}
      (prior : MapRun root machine held) (frameSmall : frame < 2 ^ 64) (flagsSmall : flags < 2 ^ 64)
      (run : vmmMapPage root virt frame flags machine = .ok mapped after) : MapRun root after held
  | elsewhere {root : Nat} {machine after : Machine} {held held' : Set Nat}
      (prior : MapRun root machine held) (ready : Ready root {root} held' after)
      (kept : ∀ level key, level < 4 → key < 512 ^ (level + 1) →
        wordAt after.phys root level key = wordAt machine.phys root level key) :
      MapRun root after held'

/-! ## Flags of a word -/

theorem and_two_pow_ne_zero (word bit : Nat) : word &&& 2 ^ bit ≠ 0 ↔ word.testBit bit = true := by
  rw [Nat.and_two_pow]
  cases word.testBit bit <;> simp

theorem page_floor_testBit (value bit : Nat) :
    (pageFloor value).testBit bit = (decide (12 ≤ bit) && value.testBit bit) := by
  have shifted : pageFloor value = value >>> 12 <<< 12 := by
    rw [Nat.shiftLeft_eq, Nat.shiftRight_eq_div_pow]
    unfold pageFloor pageSize
    omega
  rw [shifted, Nat.testBit_shiftLeft, Nat.testBit_shiftRight]
  by_cases high : 12 ≤ bit
  · simp [high]
  · simp [high]

theorem leaf_flag (frame flags bit : Nat) (positive : bit ≠ 0) :
    (pageFloor frame ||| flags ||| ptePresent) &&& 2 ^ bit ≠ 0 ↔
      (12 ≤ bit ∧ frame &&& 2 ^ bit ≠ 0) ∨ flags &&& 2 ^ bit ≠ 0 := by
  have other : ptePresent.testBit bit = false := by
    change (2 ^ 0).testBit bit = false
    rw [Nat.testBit_two_pow]
    exact decide_eq_false fun same => positive same.symm
  rw [and_two_pow_ne_zero, and_two_pow_ne_zero, and_two_pow_ne_zero, Nat.testBit_or, Nat.testBit_or,
    page_floor_testBit, other]
  simp

theorem leaf_user (frame flags : Nat) :
    (pageFloor frame ||| flags ||| ptePresent) &&& pteUser ≠ 0 ↔ flags &&& pteUser ≠ 0 := by
  have flag := leaf_flag frame flags 2 (by decide)
  rw [show pteUser = 2 ^ 2 by decide, flag]
  exact or_iff_right fun high => absurd high.1 (by decide)

theorem leaf_writable (frame flags : Nat) :
    (pageFloor frame ||| flags ||| ptePresent) &&& pteWritable ≠ 0 ↔ flags &&& pteWritable ≠ 0 := by
  have flag := leaf_flag frame flags 1 (by decide)
  rw [show pteWritable = 2 ^ 1 by decide, flag]
  exact or_iff_right fun high => absurd high.1 (by decide)

theorem leaf_no_execute (frame flags : Nat) :
    (pageFloor frame ||| flags ||| ptePresent) &&& pteNx ≠ 0 ↔
      frame &&& pteNx ≠ 0 ∨ flags &&& pteNx ≠ 0 := by
  have flag := leaf_flag frame flags 63 (by decide)
  rw [show pteNx = 2 ^ 63 by decide, flag]
  exact or_congr_left (and_iff_right (by decide))

theorem link_flags {frame flags : Nat} (linked : decode (frame ||| allocFlags flags) = some frame) :
    ((frame ||| allocFlags flags) &&& pteUser ≠ 0 ↔ flags &&& pteUser ≠ 0) ∧
      (frame ||| allocFlags flags) &&& pteWritable ≠ 0 ∧
      (frame ||| allocFlags flags) &&& pteNx = 0 := by
  have aligned := decode_aligned linked
  have small := decode_small linked
  rw [flag_of_or aligned small (show pteAddrMask &&& pteUser = 0 by decide),
    flag_of_or aligned small (show pteAddrMask &&& pteWritable = 0 by decide),
    flag_of_or aligned small (show pteAddrMask &&& pteNx = 0 by decide)]
  unfold allocFlags
  split
  · next user => exact ⟨⟨fun _ => user, fun _ => by decide⟩, by decide, by decide⟩
  · next supervisor =>
      exact ⟨⟨fun set => absurd set (by decide), fun set => absurd set supervisor⟩, by decide, by decide⟩

/-! ## Runs -/

section Runs

variable {held : Set Nat} {machine after : Machine} {root page frame flags word added virt : Nat}

theorem tables_restrict {roots fewer : Set Nat} {pmm : Pmm} {phys : Memory}
    (tables : Tables roots held pmm phys) (subset : fewer ⊆ roots) : Tables fewer held pmm phys := by
  have isTable : ∀ table, IsTable fewer phys table → IsTable roots phys table := by
    rintro table ⟨root, depth, key, isRoot, rest⟩
    exact ⟨root, depth, key, subset isRoot, rest⟩
  exact
    { separated := fun left right depth depth' key key' table leftRoot rightRoot =>
        tables.separated left right depth depth' key key' table (subset leftRoot) (subset rightRoot)
      coherent := fun left right depth key leftRoot rightRoot =>
        tables.coherent left right depth key (subset leftRoot) (subset rightRoot)
      frames := fun table found => tables.frames table (isTable table found)
      heldFrames := tables.heldFrames
      apart := fun address owned found => tables.apart address owned (isTable address found)
      lowPage := tables.lowPage
      physical := tables.physical }

theorem shared_of_upper {level key : Nat} (upper : ¬LowerPlace level key) : SharedAt (level + 1) key := by
  induction level generalizing key with
  | zero =>
    rw [LowerPlace, pow_zero, Nat.mul_one] at upper
    exact Nat.le_of_not_lt upper
  | succ level induction =>
    apply induction
    intro above
    apply upper
    have digits := lower_place_child above (Nat.mod_lt key (show 0 < 512 by decide))
    rwa [Nat.div_add_mod'] at digits

theorem renewed_word_cases {roots : Set Nat} (renewed : Renewed machine page after)
    (tables : Tables roots held machine.pmm machine.phys)
    (isKernel : machine.kernelPagemap ∈ roots) {level key : Nat} (inner : level < 4)
    (bounded : key < 512 ^ (level + 1)) :
    wordAt after.phys (page * pageSize) level key = 0 ∨
      wordAt after.phys (page * pageSize) level key =
        wordAt machine.phys machine.kernelPagemap level key := by
  by_cases lower : LowerPlace level key
  · exact Or.inl (renewed_word renewed tables isKernel inner lower)
  · have taken := tables.take renewed.member
    have kept := tables.take_kept renewed.member
    have same : wordAt after.phys machine.kernelPagemap level key =
        wordAt machine.phys machine.kernelPagemap level key := by
      rw [renewed.phys, word_kept taken (adopt_kept taken) isKernel inner bounded,
        word_kept tables kept isKernel inner bounded]
    refine Or.inr (Eq.trans ?_ same)
    cases level with
    | zero =>
      have frame := taken.heldFrames _ (Set.mem_insert _ _)
      have kernelTable : IsTable roots machine.phys machine.kernelPagemap := isTable_of_root isKernel
      have kernelFrame := tables.frames _ kernelTable
      have different : machine.kernelPagemap ≠ page * pageSize := by
        intro equal
        rw [equal] at kernelTable
        exact tables.free_not_table renewed.member kernelTable
      have digit : key < 512 := by rwa [Nat.zero_add, pow_one] at bounded
      have upper : 256 ≤ key := by
        rw [LowerPlace, pow_zero, Nat.mul_one] at lower
        exact Nat.le_of_not_lt lower
      have adopting : TablesKept roots (takePage machine page).phys
          (adopted (takePage machine page).phys (page * pageSize) machine.kernelPagemap) :=
        adopt_kept taken
      have keptEntry := taken.entry_kept adopting (isTable_of_root isKernel) digit
      rw [wordAt, wordAt, tableAt, walk_zero, tableAt, walk_zero, tableWord, tableWord,
        Nat.mod_eq_of_lt digit, renewed.phys,
        adopted_upper frame.aligned kernelFrame.aligned different upper digit]
      exact keptEntry.symm
    | succ level =>
      have created := renewed.created tables isKernel
      have above : key / 512 < 512 ^ (level + 1) := prefix_lt bounded
      have place : tableAt after.phys (page * pageSize) (level + 1) (key / 512) =
          tableAt after.phys machine.kernelPagemap (level + 1) (key / 512) :=
        created.tables.coherent _ _ (level + 1) (key / 512) (Set.mem_insert _ _)
          (Set.mem_insert_of_mem _ isKernel) (Nat.le_of_lt inner) above
          (@shared_of_upper (level + 1) key lower)
      rw [wordAt, wordAt, place]

theorem way_kept {roots : Set Nat} (entered : Entered roots root page flags word added machine after)
    (isRoot : root ∈ roots) {other : Nat} (bounded : other < 512 ^ 4) (different : other ≠ page)
    (mapped : decode (leafWord machine.phys root other) ≠ none) {level : Nat} (inner : level < 4) :
    wayWord after.phys root other level = wayWord machine.phys root other level := by
  rw [wayWord, entered.word_at isRoot inner (page_key_lt bounded inner), if_neg]
  rintro ⟨same, far⟩
  by_cases last : level = 3
  · rw [last, Nat.sub_self, pow_zero, Nat.div_one, Nat.div_one] at same
    exact different same
  · have absent := (entered.missing level (by omega)).mpr far
    rw [← same, table_at_word] at absent
    exact way_present mapped inner absent

theorem same_permissions_of_words {before after : Memory} {other : Nat}
    (same : ∀ level < 4, wayWord after root other level = wayWord before root other level) :
    SamePermissions root other before after := by
  refine ⟨forall₂_congr fun level inner => ?_, forall₂_congr fun level inner => ?_,
    exists_congr fun level => and_congr_right fun inner => ?_⟩
  · rw [same level inner]
  · rw [same level inner]
  · rw [same level inner]

/-- What the entries on the way to a mapped page allow, level by level. -/
structure WayFlags (before after : Memory) (root page frame flags : Nat) : Prop where
  fresh : ∀ level < 3, tableAt before root (level + 1) (page / 512 ^ (3 - level)) = none →
    (wayWord after root page level &&& pteUser ≠ 0 ↔ flags &&& pteUser ≠ 0)
  old : ∀ level < 3, tableAt before root (level + 1) (page / 512 ^ (3 - level)) ≠ none →
    wayWord after root page level = wayWord before root page level
  links : ∀ level < 3, wayWord after root page level &&& pteWritable ≠ 0 ∧
    wayWord after root page level &&& pteNx = 0
  leaf : wayWord after root page 3 = pageFloor frame ||| flags ||| ptePresent

theorem way_flags {roots : Set Nat} (linked : Linked machine.phys root)
    (entered : Entered roots root page flags (pageFloor frame ||| flags ||| ptePresent) added machine after)
    (isRoot : root ∈ roots) (bounded : page < 512 ^ 4) :
    WayFlags machine.phys after.phys root page frame flags := by
  have here : ∀ level, level < 4 → wayWord after.phys root page level =
      if 3 ≤ level + added then
        if level = 3 then pageFloor frame ||| flags ||| ptePresent
        else pathTable after.phys root page (level + 1) ||| allocFlags flags
      else wayWord machine.phys root page level := by
    intro level inner
    rw [wayWord, entered.word_at isRoot inner (page_key_lt bounded inner)]
    simp only [true_and]
  have link : ∀ level, level < 3 → 3 ≤ level + added →
      (wayWord after.phys root page level &&& pteUser ≠ 0 ↔ flags &&& pteUser ≠ 0) ∧
        wayWord after.phys root page level &&& pteWritable ≠ 0 ∧
        wayWord after.phys root page level &&& pteNx = 0 := by
    intro level inner far
    rw [here level (by omega), if_pos far, if_neg (by omega)]
    exact link_flags (entered.linked level inner far)
  have before : ∀ level, level < 3 → ¬3 ≤ level + added →
      wayWord after.phys root page level = wayWord machine.phys root page level := by
    intro level inner near
    rw [here level (by omega), if_neg near]
  refine ⟨?_, ?_, ?_, ?_⟩
  · intro level inner absent
    exact (link level inner ((entered.missing level inner).mp absent)).1
  · intro level inner present
    exact before level inner fun far => present ((entered.missing level inner).mpr far)
  · intro level inner
    by_cases far : 3 ≤ level + added
    · exact (link level inner far).2
    · rw [before level inner far]
      apply linked level _ inner (page_key_lt bounded (by omega))
      rw [← table_at_word]
      exact mt (entered.missing level inner).mp far
  · rw [here 3 (by decide), if_pos (by omega), if_pos rfl]

/-- The permissions are as asked for exactly if they can be granted. -/
theorem WayFlags.granted_iff {before after : Memory}
    (way : WayFlags before after root page frame flags) :
    Granted after root page flags ↔ Grantable before root page frame flags := by
  have write : Writable after root page ↔ flags &&& pteWritable ≠ 0 := by
    rw [← leaf_writable frame flags, ← way.leaf]
    constructor
    · exact fun all => all 3 (by decide)
    · intro leaf level inner
      by_cases last : level = 3
      · rwa [last]
      · exact (way.links level (by omega)).1
  have execute : NoExecute after root page ↔ frame &&& pteNx ≠ 0 ∨ flags &&& pteNx ≠ 0 := by
    rw [← leaf_no_execute, ← way.leaf]
    constructor
    · rintro ⟨level, inner, set⟩
      by_cases last : level = 3
      · rwa [last] at set
      · exact absurd (way.links level (by omega)).2 set
    · exact fun leaf => ⟨3, by decide, leaf⟩
  have leafUser : wayWord after root page 3 &&& pteUser ≠ 0 ↔ flags &&& pteUser ≠ 0 := by
    rw [way.leaf, leaf_user]
  constructor
  · intro granted
    refine ⟨?_, ?_⟩
    · intro asked level inner present
      rw [← way.old level inner present]
      exact granted.user.mpr asked level (by omega)
    · exact fun high => granted.execute.mp (execute.mpr (Or.inl high))
  · intro grantable
    refine ⟨⟨fun all => leafUser.mp (all 3 (by decide)), ?_⟩, write, ?_⟩
    · intro asked level inner
      by_cases last : level = 3
      · rw [last]
        exact leafUser.mpr asked
      · by_cases absent : tableAt before root (level + 1) (page / 512 ^ (3 - level)) = none
        · exact (way.fresh level (by omega) absent).mpr asked
        · rw [way.old level (by omega) absent]
          exact grantable.user asked level (by omega) absent
    · rw [execute]
      exact ⟨fun set => set.elim grantable.execute id, Or.inr⟩

end Runs

/-! ## Tables for user pages -/

/-- The tables of the lower half are made for user pages that can be written. -/
def UserTables (phys : Memory) (root : Nat) : Prop :=
  ∀ level key, level < 3 → LowerPlace level key → decode (wordAt phys root level key) ≠ none →
    wordAt phys root level key &&& pteUser ≠ 0 ∧ wordAt phys root level key &&& pteWritable ≠ 0

section UserTables

variable {roots held : Set Nat} {pmm : Pmm} {before after : Memory} {root page flags : Nat}

theorem UserTables.kept (user : UserTables before root) (tables : Tables roots held pmm before)
    (kept : TablesKept roots before after) (isRoot : root ∈ roots) : UserTables after root := by
  intro level key inner lower present
  rw [word_kept tables kept isRoot (by omega) (lower_place_lt lower)] at present ⊢
  exact user level key inner lower present

theorem UserTables.map (user : UserTables before root)
    (links : LinksAdded roots page flags before after) (isRoot : root ∈ roots)
    (flagged : UpperHalf page ∨ flags &&& pteUser ≠ 0) : UserTables after root := by
  intro level key inner lower present
  rcases links root isRoot level key inner (lower_place_lt lower) with
    same | ⟨rfl, frame, linked, word⟩
  · rw [same] at present ⊢
    exact user level key inner lower present
  · have flag := link_flags linked
    rw [word]
    refine ⟨flag.1.mpr (flagged.resolve_left ?_), flag.2.1⟩
    -- the way to a page of the upper half has no place in the lower half
    intro upper
    have split : 512 ^ 3 = 512 ^ level * 512 ^ (3 - level) := by
      rw [← pow_add, Nat.add_sub_cancel' (Nat.le_of_lt inner)]
    rw [UpperHalf, split, ← Nat.mul_assoc] at upper
    exact Nat.not_lt.mpr ((Nat.le_div_iff_mul_le (by positivity)).mpr upper) lower

end UserTables

theorem renewed_user_tables {roots held : Set Nat} {machine after : Machine} {page root : Nat}
    (renewed : Renewed machine page after) (tables : Tables roots held machine.pmm machine.phys)
    (user : UserTables machine.phys root) (isRoot : root ∈ roots) : UserTables after.phys root := by
  have taken := tables.take renewed.member
  rw [renewed.phys]
  exact (user.kept tables (tables.take_kept renewed.member) isRoot).kept taken (adopt_kept taken)
    isRoot

theorem renewed_new_user_tables {roots held : Set Nat} {machine after : Machine} {page : Nat}
    (renewed : Renewed machine page after) (tables : Tables roots held machine.pmm machine.phys)
    (isKernel : machine.kernelPagemap ∈ roots) : UserTables after.phys (page * pageSize) := by
  intro level key inner lower present
  rw [renewed_word renewed tables isKernel (by omega) lower, decode_zero] at present
  exact absurd rfl present

/-! ## The result -/

section Results

variable {held : Set Nat} {machine after : Machine} {root virt frame flags : Nat} {mapped : Bool}

theorem single_ready {phys : Memory} {page : Nat} : TopReady {root} root page phys := fun _ =>
  Or.inl fun _ isRoot => isRoot

theorem Linked.map {roots : Set Nat} {page added : Nat} (linked : Linked machine.phys root)
    (entered : Entered roots root page flags (pageFloor frame ||| flags ||| ptePresent) added machine after)
    (isRoot : root ∈ roots) (bounded : page < 512 ^ 4) : Linked after.phys root := by
  have way := way_flags linked entered isRoot bounded
  intro level key inner small present
  by_cases here : key = page / 512 ^ (3 - level)
  · rw [here]
    exact way.links level inner
  · rw [entered.word_at isRoot (by omega) small, if_neg fun hit => here hit.1] at present ⊢
    exact linked level key inner small present

theorem blank_word {phys : Memory} (blank : BlankTable phys root) (level key : Nat) :
    wordAt phys root level key = 0 := by
  cases level with
  | zero =>
    rw [wordAt, tableAt, walk_zero]
    exact blank _ (Nat.mod_lt _ (by decide))
  | succ level =>
    apply word_of_missing
    have missing : (pageShape {root}).at_ (child phys) root (level + 1) (key / 512) = none :=
      walk_blank (fun digit small => blank_childless blank small) level _
    exact missing

theorem run_linked (run : MapRun root machine held) :
    Ready root {root} held machine ∧ Linked machine.phys root := by
  induction run with
  | install ready blank =>
    refine ⟨ready, ?_⟩
    intro level key _ _ present
    rw [blank_word blank, decode_zero] at present
    exact absurd rfl present
  | create _ run induction =>
    obtain ⟨ready, linked⟩ := induction
    obtain ⟨page, rfl, renewed⟩ := (ends_vmmNewPagemap_renewed ready.tables.lowPage ready.unlockedPmm
      ready.unlockedVmm).returns run
    have created := renewed.created ready.tables ready.isRoot
    refine ⟨⟨tables_restrict created.tables ?_, rfl, ?_, ?_, ?_⟩, ?_⟩
    · exact Set.singleton_subset_iff.mpr (Set.mem_insert _ _)
    · rw [renewed.pmm]
      exact taken_counted _ page
    · rw [created.locked .pmm (by decide)]
      exact ready.unlockedPmm
    · rw [created.locked .vmm (by decide)]
      exact ready.unlockedVmm
    · intro level key inner small present
      rcases renewed_word_cases renewed ready.tables ready.isRoot (by omega) small with zero | copied
      · rw [zero, decode_zero] at present
        exact absurd rfl present
      · rw [copied] at present ⊢
        exact linked level key inner small present
  | map _ frameSmall flagsSmall run induction =>
    obtain ⟨ready, linked⟩ := induction
    obtain ⟨readyAfter, added, entered⟩ := ready.map single_ready frameSmall flagsSmall run
    exact ⟨readyAfter, linked.map entered readyAfter.isRoot (page_of_lt _)⟩
  | elsewhere _ ready kept induction =>
    refine ⟨ready, ?_⟩
    intro level key inner small present
    rw [kept level key (by omega) small] at present ⊢
    exact induction.2 level key inner small present

/-- After any sequence of calls, the next one gives its page the permissions it asks for exactly if
the tables on the way are user tables or no user access is asked for, and the frame's address does
not forbid execution. It changes the permissions of no other mapped page. -/
theorem permissions_granted_iff (run : MapRun root machine held) (frameSmall : frame < 2 ^ 64)
    (flagsSmall : flags < 2 ^ 64)
    (mapping : vmmMapPage root virt frame flags machine = .ok mapped after) :
    (Granted after.phys root (pageOf virt) flags ↔
        Grantable machine.phys root (pageOf virt) frame flags) ∧
      ∀ page < 512 ^ 4, page ≠ pageOf virt → decode (leafWord machine.phys root page) ≠ none →
        SamePermissions root page machine.phys after.phys := by
  obtain ⟨ready, linked⟩ := run_linked run
  obtain ⟨readyAfter, added, entered⟩ := ready.map single_ready frameSmall flagsSmall mapping
  refine ⟨(way_flags linked entered readyAfter.isRoot (page_of_lt virt)).granted_iff, ?_⟩
  intro page bounded different present
  exact same_permissions_of_words fun level inner =>
    way_kept entered ready.isRoot bounded different present inner

theorem map_returns {roots : Set Nat} (virt : Nat) (ready : Ready root roots held machine)
    (top : TopReady roots root (pageOf virt) machine.phys) (frameSmall : frame < 2 ^ 64)
    (flagsSmall : flags < 2 ^ 64) (enough : 3 ≤ (freeSet machine.pmm).card) :
    ∃ after, vmmMapPage root virt frame flags machine = .ok true after ∧
      (freeSet machine.pmm).card ≤ (freeSet after.pmm).card + 3 := by
  have ends := ends_vmmMapPage ready.tables ready.isRoot ready.unlockedPmm ready.unlockedVmm top
    frameSmall flagsSmall
  have returns := ends_mono ends (fun _ _ => id) fun _ _ stopped =>
    (absurd enough (Nat.not_le.mpr stopped.2.1) : False)
  obtain ⟨_, after, run, rfl, done⟩ := returns.exists_ok
  exact ⟨after, run, done.grown.budget⟩

theorem small_machine_ready : Ready 4096 {4096} ∅ smallMachine :=
  ⟨small_machine_tables, rfl, ⟨by decide, by decide⟩, rfl, rfl⟩

/-- The first page of an empty pagemap gets what it asks for. -/
theorem first_page_granted :
    ∃ after, vmmMapPage 4096 0x400000 0x5000 7 smallMachine = .ok true after ∧
      Granted after.phys 4096 (pageOf 0x400000) 7 := by
  have blank := small_machine_blank 4096
  obtain ⟨after, mapping, -⟩ := map_returns 0x400000 small_machine_ready single_ready
    (show 0x5000 < 2 ^ 64 by decide) (show 7 < 2 ^ 64 by decide)
    (le_trans (by decide) small_machine_free)
  have result := permissions_granted_iff (MapRun.install small_machine_ready blank)
    (show 0x5000 < 2 ^ 64 by decide) (show 7 < 2 ^ 64 by decide) mapping
  refine ⟨after, mapping, result.1.mpr ⟨?_, fun high => absurd high (by decide)⟩⟩
  intro _ level _ present
  rw [table_at_word, blank_word blank, decode_zero] at present
  exact absurd rfl present

/-- A supervisor page and then a user page in the same page table: the second asks for user
access and does not get it. -/
theorem user_page_hidden :
    ∃ first second, vmmMapPage 4096 0x400000 0x5000 3 smallMachine = .ok true first ∧
      vmmMapPage 4096 0x401000 0x6000 7 first = .ok true second ∧ 7 &&& pteUser ≠ 0 ∧
      ¬UserAccessible second.phys 4096 (pageOf 0x401000) := by
  have blank := small_machine_blank 4096
  have many := small_machine_free
  obtain ⟨first, mapping, budget⟩ := map_returns 0x400000 small_machine_ready single_ready
    (show 0x5000 < 2 ^ 64 by decide) (show 3 < 2 ^ 64 by decide) (le_trans (by decide) many)
  have start := run_linked (MapRun.install small_machine_ready blank)
  obtain ⟨ready, added, entered⟩ := start.1.map single_ready (show 0x5000 < 2 ^ 64 by decide)
    (show 3 < 2 ^ 64 by decide) mapping
  have way := way_flags start.2 entered ready.isRoot (page_of_lt _)
  obtain ⟨second, remapping, -⟩ := map_returns 0x401000 ready single_ready
    (show 0x6000 < 2 ^ 64 by decide) (show 7 < 2 ^ 64 by decide) (by omega)
  obtain ⟨readyAfter, more, enteredAfter⟩ := ready.map single_ready (show 0x6000 < 2 ^ 64 by decide)
    (show 7 < 2 ^ 64 by decide) remapping
  have linked := start.2.map entered ready.isRoot (page_of_lt _)
  have wayAfter := way_flags linked enteredAfter readyAfter.isRoot (page_of_lt _)
  refine ⟨first, second, mapping, remapping, by decide, ?_⟩
  intro accessible
  -- both pages are below entry 0 of the PML4, which the first call made
  have missing : tableAt smallMachine.phys 4096 (0 + 1) (pageOf 0x400000 / 512 ^ (3 - 0)) = none := by
    rw [table_at_word, blank_word blank, decode_zero]
  have supervisor := mt (way.fresh 0 (by decide) missing).mp (by decide)
  have present := entered_present entered rfl (page_of_lt _) (mapped_word_present 0x5000 3)
    (show 0 < 4 by decide)
  have kept : wayWord second.phys 4096 (pageOf 0x401000) 0 = wayWord first.phys 4096 (pageOf 0x401000) 0 := by
    apply wayAfter.old 0 (by decide)
    rw [table_at_word]
    exact present
  have user := accessible 0 (by decide)
  rw [kept] at user
  exact supervisor user

end Results

end RiriaKernel.PagePermissions
