import RiriaKernel.UserMemory

/-!
# The frames of processes

The kernel gives every page in the lower half of a process a frame that it takes for this page
alone, except where a page shows a device. The first part says so of the abstract maps and of
a ledger of the frames that were taken; the second ties the ledger to the machine and says
what it means that an operation has only added pages to a process.
-/

namespace RiriaKernel.UserOwnership

open HaltingPrograms KernelState PhysicalAllocator PageTables PageTableForests
open PageTableOperations AddressSpaces UserMemory

/-! ## Ledgers -/

/-- The frames taken for processes and not returned, and the maps of the address spaces. -/
structure Ledger where
  held : Set Nat
  spaces : Spaces

namespace Ledger

def take (ledger : Ledger) (frame : Nat) : Ledger :=
  { ledger with held := insert frame ledger.held }

def write (ledger : Ledger) (root page : Nat) (value : Option Nat) : Ledger :=
  { ledger with spaces := ledger.spaces.write root page value }

def release (ledger : Ledger) (frame : Nat) : Ledger :=
  { ledger with held := ledger.held \ {frame} }

/-- A page has a frame that was taken for it. -/
def Has (ledger : Ledger) (root page : Nat) : Prop :=
  ∃ frame, frame ∈ ledger.held ∧ ledger.spaces root page = some frame

end Ledger

structure Backs (users : Set Nat) (spaces : Spaces) (frame root page : Nat) : Prop where
  user : root ∈ users
  lower : ¬UpperHalf page
  leaf : spaces root page = some frame

/-- Every frame behind a page of a process was taken for this page alone, or is a device's. -/
structure Owned (users device : Set Nat) (ledger : Ledger) : Prop where
  frames : ∀ frame root page, Backs users ledger.spaces frame root page →
    frame ∈ ledger.held ∨ frame ∈ device
  alone : ∀ frame, frame ∈ ledger.held → ∀ left right page other,
    Backs users ledger.spaces frame left page → Backs users ledger.spaces frame right other →
      left = right ∧ page = other
  apart : ∀ frame, frame ∈ ledger.held → frame ∉ device

section Changes

variable {users device : Set Nat} {ledger : Ledger} {spaces : Spaces} {root page frame : Nat}

theorem backs_write {value : Option Nat} {other index : Nat}
    (backs : Backs users (spaces.write root page value) frame other index) :
    (other = root ∧ index = page ∧ value = some frame) ∨ Backs users spaces frame other index := by
  have leaf := backs.leaf
  rw [Spaces.write_apply] at leaf
  by_cases hit : other = root ∧ index = page
  · rw [if_pos hit] at leaf
    exact Or.inl ⟨hit.1, hit.2, leaf⟩
  · rw [if_neg hit] at leaf
    exact Or.inr ⟨backs.user, backs.lower, leaf⟩

section

variable (owned : Owned users device ledger)

include owned

theorem Owned.take (fresh : frame ∉ ledger.held) (other : frame ∉ device) :
    Owned users device (ledger.take frame) where
  frames := fun frame root page backs =>
    (owned.frames frame root page backs).imp_left (Set.mem_insert_of_mem _)
  alone := by
    intro candidate member left right page index first second
    rcases member with rfl | old
    · exact ((owned.frames candidate left page first).elim fresh other).elim
    · exact owned.alone candidate old left right page index first second
  apart := by
    intro candidate member
    rcases member with rfl | old
    · exact other
    · exact owned.apart candidate old

theorem Owned.give (member : frame ∈ ledger.held)
    (unused : ∀ other index, ¬Backs users ledger.spaces frame other index) :
    Owned users device (ledger.write root page (some frame)) where
  frames := by
    intro candidate other index backs
    rcases backs_write backs with ⟨-, -, same⟩ | old
    · obtain rfl := Option.some.inj same
      exact Or.inl member
    · exact owned.frames candidate other index old
  alone := by
    intro candidate owner left right index index' first second
    rcases backs_write first with ⟨rfl, rfl, same⟩ | old
    · obtain rfl := Option.some.inj same
      rcases backs_write second with ⟨rfl, rfl, -⟩ | again
      · exact ⟨rfl, rfl⟩
      · exact (unused right index' again).elim
    · rcases backs_write second with ⟨-, -, same⟩ | again
      · obtain rfl := Option.some.inj same
        exact (unused left index old).elim
      · exact owned.alone candidate owner left right index index' old again
  apart := owned.apart

theorem Owned.lend (member : frame ∈ device) :
    Owned users device (ledger.write root page (some frame)) where
  frames := by
    intro candidate other index backs
    rcases backs_write backs with ⟨-, -, same⟩ | old
    · obtain rfl := Option.some.inj same
      exact Or.inr member
    · exact owned.frames candidate other index old
  alone := by
    have different : ∀ candidate, candidate ∈ ledger.held → some frame ≠ some candidate := by
      intro candidate owner same
      obtain rfl := Option.some.inj same
      exact owned.apart frame owner member
    intro candidate owner left right index index' first second
    rcases backs_write first with ⟨-, -, same⟩ | old
    · exact (different candidate owner same).elim
    · rcases backs_write second with ⟨-, -, same⟩ | again
      · exact (different candidate owner same).elim
      · exact owned.alone candidate owner left right index index' old again
  apart := owned.apart

theorem Owned.clear : Owned users device (ledger.write root page none) := by
  have old : ∀ candidate other index,
      Backs users (ledger.spaces.write root page none) candidate other index →
        Backs users ledger.spaces candidate other index := fun candidate other index backs =>
    (backs_write backs).resolve_left fun hit => nomatch hit.2.2
  exact ⟨fun candidate other index backs => owned.frames candidate other index (old _ _ _ backs),
    fun candidate owner left right index index' first second => owned.alone candidate owner left right
      index index' (old _ _ _ first) (old _ _ _ second), owned.apart⟩

theorem Owned.revoke (backs : Backs users ledger.spaces frame root page)
    (member : frame ∈ ledger.held) :
    Owned users device ((ledger.release frame).write root page none) where
  frames := by
    intro candidate other index now
    have old : Backs users ledger.spaces candidate other index :=
      (backs_write now).resolve_left fun hit => nomatch hit.2.2
    refine (owned.frames candidate other index old).imp_left fun owner => ⟨owner, ?_⟩
    intro same
    rw [Set.mem_singleton_iff] at same
    subst same
    obtain ⟨rfl, rfl⟩ := owned.alone candidate member other root index page old backs
    have leaf : ledger.spaces.write other index none other index = some candidate := now.leaf
    rw [Spaces.write_apply, if_pos ⟨rfl, rfl⟩] at leaf
    cases leaf
  alone := by
    intro candidate owner left right index index' first second
    have old : ∀ other index, Backs users (ledger.spaces.write root page none) candidate other
        index → Backs users ledger.spaces candidate other index := fun other index now =>
      (backs_write now).resolve_left fun hit => nomatch hit.2.2
    exact owned.alone candidate owner.1 left right index index' (old _ _ first) (old _ _ second)
  apart := fun candidate owner => owned.apart candidate owner.1

theorem Owned.join {new : Nat} (empty : ∀ page, ¬UpperHalf page → spaces new page = none)
    (same : ∀ root, root ∈ users → ∀ page, ¬UpperHalf page →
      spaces root page = ledger.spaces root page) :
    Owned (insert new users) device ⟨ledger.held, spaces⟩ := by
  have old : ∀ candidate other index, Backs (insert new users) spaces candidate other index →
      Backs users ledger.spaces candidate other index := by
    intro candidate other index backs
    have leaf := backs.leaf
    rcases backs.user with rfl | user
    · rw [empty index backs.lower] at leaf
      cases leaf
    · exact ⟨user, backs.lower, (same other user index backs.lower).symm.trans leaf⟩
  exact ⟨fun candidate other index backs => owned.frames candidate other index (old _ _ _ backs),
    fun candidate owner left right index index' first second => owned.alone candidate owner left right
      index index' (old _ _ _ first) (old _ _ _ second), owned.apart⟩

end

end Changes

/-! ## Ledgers of a machine -/

/-- The flags of a page that processes can use. -/
structure PageFlags (flags : Nat) : Prop where
  small : flags < 2 ^ 64
  disjoint : flags &&& pteAddrMask = 0
  user : flags &&& pteUser ≠ 0

/-- The page tables and the bitmap agree with the ledger, and no device is memory. -/
structure Balanced (base : Finset Nat) (users device roots : Set Nat) (ledger : Ledger)
    (machine : Machine) : Prop where
  holdings : Holdings base users roots ledger.held ledger.spaces machine
  owned : Owned users device ledger
  outside : ∀ frame, frame ∈ device → frame / pageSize ∉ base

/-- An operation has only added pages, for at most `spent` frames. -/
structure Gained (base : Finset Nat) (users device roots : Set Nat) (spent : Nat)
    (ledger : Ledger) (before : Machine) (ledger' : Ledger) (after : Machine) : Prop where
  balanced : Balanced base users device roots ledger' after
  wider : ledger.held ⊆ ledger'.held
  kept : ∀ root page, ledger.Has root page → ledger'.Has root page
  shown : ∀ root page frame, ledger'.spaces root page = some frame →
    ledger.spaces root page = some frame ∨ frame ∈ ledger'.held
  extended : TablesExtended roots before after
  lower : LowerOnly roots before after
  free : freeSet after.pmm ⊆ freeSet before.pmm
  budget : (freeSet before.pmm).card ≤ (freeSet after.pmm).card + spent

/-- Fewer than `needed` frames were free, and they have run out. Only `vmm_map_page` may have
left its latch. -/
structure Exhausted (base : Finset Nat) (users device roots : Set Nat) (needed : Nat)
    (before : Machine) (stop : Stop) (after : Machine) : Prop where
  message : stop = outOfMemory
  few : (freeSet before.pmm).card < needed
  balanced : ∃ ledger, Balanced base users device roots ledger after
  free : freeSet after.pmm ⊆ freeSet before.pmm
  locked : after.locked = before.locked ∨ after.locked = Function.update before.locked .vmm true
  kept : KernelKept roots before after

section Machine

variable {base : Finset Nat} {users device roots : Set Nat} {ledger ledger' : Ledger}
  {machine middle after : Machine} {root frame : Nat}

theorem Balanced.not_free (balanced : Balanced base users device roots ledger machine) {page : Nat}
    (backs : Backs users ledger.spaces frame root page) : frame / pageSize ∉ freeSet machine.pmm := by
  rcases balanced.owned.frames frame root page backs with held | shown
  · exact (balanced.holdings.tables.heldFrames frame held).not_free
  · exact fun free => balanced.outside frame shown (balanced.holdings.free free)

theorem balanced_without_users {held : Set Nat} (tables : Tables roots held machine.pmm machine.phys)
    (outside : ∀ frame, frame ∈ device → frame / pageSize ∉ freeSet machine.pmm) :
    Balanced (freeSet machine.pmm) ∅ device roots ⟨∅, spacesOf machine.phys⟩ machine where
  holdings := ⟨Set.empty_subset _, tables.mono (Set.empty_subset _), fun _ _ _ _ => rfl,
    Finset.Subset.refl _, fun _ owned => owned.elim, fun _ user => user.elim⟩
  owned := ⟨fun _ _ _ backs => backs.user.elim, fun _ owned => owned.elim, fun _ owned => owned.elim⟩
  outside := outside

theorem Balanced.of_same (balanced : Balanced base users device roots ledger machine)
    (pmm : after.pmm = machine.pmm) (phys : after.phys = machine.phys) :
    Balanced base users device roots ledger after := by
  refine ⟨?_, balanced.owned, balanced.outside⟩
  have tables := balanced.holdings.tables
  have free := balanced.holdings.free
  rw [← pmm, ← phys] at tables
  rw [← pmm] at free
  exact balanced.holdings.of_kept tables (fun _ _ => congrFun phys _) free
    balanced.holdings.heldBase

theorem Gained.refl (balanced : Balanced base users device roots ledger machine) :
    Gained base users device roots 0 ledger machine ledger machine :=
  ⟨balanced, Set.Subset.refl _, fun _ _ => id, fun _ _ _ => Or.inl, .refl _,
    LowerOnly.of_phys rfl rfl rfl rfl rfl rfl, Finset.Subset.refl _, Nat.le_refl _⟩

theorem Gained.within {spent bound : Nat} (few : spent ≤ bound)
    (gained : Gained base users device roots spent ledger machine ledger' after) :
    Gained base users device roots bound ledger machine ledger' after :=
  { gained with budget := gained.budget.trans (Nat.add_le_add_left few _) }

theorem Gained.trans {spent more : Nat} {ledger'' : Ledger} {first second third : Machine}
    (left : Gained base users device roots spent ledger first ledger' second)
    (right : Gained base users device roots more ledger' second ledger'' third) :
    Gained base users device roots (spent + more) ledger first ledger'' third where
  balanced := right.balanced
  wider := left.wider.trans right.wider
  kept := fun root page has => right.kept root page (left.kept root page has)
  shown := by
    intro root page frame leaf
    rcases right.shown root page frame leaf with old | held
    · exact (left.shown root page frame old).imp_right fun held => right.wider held
    · exact Or.inr held
  extended := left.extended.trans right.extended
  lower := left.lower.trans right.lower
  free := right.free.trans left.free
  budget := by
    have first := left.budget
    have second := right.budget
    omega

theorem Balanced.taken (balanced : Balanced base users device roots ledger machine)
    (taken : Taken base users roots ledger.held ledger.spaces machine frame middle) :
    Balanced base users device roots (ledger.take frame) middle := by
  have inside := taken.holdings.heldBase frame (Set.mem_insert _ _)
  exact ⟨taken.holdings, balanced.owned.take taken.fresh fun shown =>
    balanced.outside frame shown inside, balanced.outside⟩

theorem has_written (ledger : Ledger) (root page frame : Nat) :
    ((ledger.take frame).write root page (some frame)).Has root page := by
  refine ⟨frame, Set.mem_insert _ _, ?_⟩
  change ledger.spaces.write root page (some frame) root page = some frame
  rw [Spaces.write_apply, if_pos ⟨rfl, rfl⟩]

section

variable (balanced : Balanced base users device roots ledger machine)

include balanced

theorem gained_page (taken : Taken base users roots ledger.held ledger.spaces machine frame middle)
    {page : Nat}
    (mapped : MappedAt base users roots (insert frame ledger.held) ledger.spaces middle root page frame
      after) :
    Gained base users device roots 4 ledger machine
      ((ledger.take frame).write root page (some frame)) after where
  balanced := by
    have took := balanced.taken taken
    refine ⟨mapped.holdings, took.owned.give (Set.mem_insert _ _) ?_, balanced.outside⟩
    intro other index backs
    rcases balanced.owned.frames frame other index backs with held | shown
    · exact taken.fresh held
    · exact took.owned.apart frame (Set.mem_insert _ _) shown
  wider := Set.subset_insert _ _
  kept := by
    intro other index has
    by_cases same : other = root ∧ index = page
    · rw [same.1, same.2]
      exact has_written ledger root page frame
    · obtain ⟨old, member, leaf⟩ := has
      refine ⟨old, Set.mem_insert_of_mem _ member, ?_⟩
      change ledger.spaces.write root page (some frame) other index = some old
      rw [Spaces.write_apply, if_neg same]
      exact leaf
  shown := by
    intro other index candidate leaf
    change ledger.spaces.write root page (some frame) other index = some candidate at leaf
    rw [Spaces.write_apply] at leaf
    split at leaf
    · cases leaf
      exact Or.inr (Set.mem_insert _ _)
    · exact Or.inl leaf
  extended := taken.extended.trans mapped.extended
  lower := taken.lower.trans mapped.lower
  free := mapped.free.trans taken.free
  budget := by
    have first := taken.cost
    have second := mapped.cost
    have few := missing_tables_le middle.phys root page
    omega

theorem ends_vmmMapPage_gains (unlatched : Unlatched machine) (isRoot : root ∈ roots)
    (taken : Taken base users roots ledger.held ledger.spaces machine frame middle)
    {virt flags : Nat} (lower : pml4Index virt < 256) (known : PageFlags flags) :
    Ends (vmmMapPage root virt frame flags)
      (fun _ after => ∃ ledger', ledger'.Has root (pageOf virt) ∧
        Gained base users device roots 4 ledger machine ledger' after)
      (fun stop after => Exhausted base users device roots 4 machine stop after) middle := by
  have request : MapRequest virt frame flags := ⟨lower, Nat.pos_of_ne_zero taken.nonzero, taken.small,
    taken.aligned, known.small, known.disjoint⟩
  have cost := taken.cost
  apply ends_mono (ends_vmmMapPage_lower taken.holdings (unlatched.of_same taken.lower.locked) isRoot
    request known.user)
  · exact fun _ after mapped => ⟨_, has_written ledger root (pageOf virt) frame,
      gained_page balanced taken mapped.2⟩
  · intro stop after out
    have few := missing_tables_le middle.phys root (pageOf virt)
    have fewer := out.few
    refine ⟨out.message, by omega, ⟨ledger.take frame, out.holdings, (balanced.taken taken).owned,
      balanced.outside⟩, out.free.trans taken.free, Or.inr ?_, taken.lower.kernel_kept.trans out.kept⟩
    rw [out.locked, taken.lower.locked]

theorem ends_pmmAllocate_for (unlatched : Unlatched machine) {needed : Nat} (positive : 0 < needed) :
    Ends pmmAllocate
      (fun frame middle => Taken base users roots ledger.held ledger.spaces machine frame middle)
      (fun stop after => Exhausted base users device roots needed machine stop after) machine := by
  apply ends_mono (ends_pmmAllocate_taken balanced.holdings unlatched.pmm) fun _ _ => id
  intro stop after out
  obtain ⟨message, empty, holdings, lower, free⟩ := out
  refine ⟨message, ?_, ⟨ledger, holdings, balanced.owned, balanced.outside⟩, free.subset,
    Or.inl lower.locked, lower.kernel_kept⟩
  rw [empty, Finset.card_empty]
  exact positive

end

end Machine

end RiriaKernel.UserOwnership
