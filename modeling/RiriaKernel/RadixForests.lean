import Mathlib.Algebra.Order.Ring.Nat
import Mathlib.Data.Option.Basic
import Mathlib.Tactic.Tauto

/-!
# Forests of radix trees with shared subtrees

Several roots are walked by the digits of a key, one digit a level. Subtrees below some
top digits may be shared by all roots; every other node has one place in the forest.
`walk` reads the forest off the child relation, so a statement about `walk` is a
statement about the store the nodes live in. The update rules say what one changed
child pointer does to every walk of every root.
-/

namespace RiriaKernel.RadixForests

variable {Node : Type}

def walk (child : Node → Nat → Option Node) (fan : Nat) (root : Node) : Nat → Nat → Option Node
  | 0, _ => some root
  | depth + 1, key => (walk child fan root depth (key / fan)).bind fun node => child node (key % fan)

/-- Whether the place `key` at `depth` lies below one of the shared top digits. -/
def Shared (top : Nat → Prop) (fan : Nat) : Nat → Nat → Prop
  | 0, _ => False
  | 1, key => top key
  | depth + 2, key => Shared top fan (depth + 1) (key / fan)

/-- The shape of a forest: the digits of a key, the number of levels that hold nodes, the
roots, and the top digits below which all roots agree. -/
structure Shape (Node : Type) where
  fan : Nat
  height : Nat
  roots : Node → Prop
  top : Nat → Prop
  fanPositive : 0 < fan

namespace Shape

variable (shape : Shape Node) (child : Node → Nat → Option Node)

abbrev at_ (root : Node) (depth key : Nat) : Option Node := walk child shape.fan root depth key

abbrev Common (depth key : Nat) : Prop := Shared shape.top shape.fan depth key

def Inner (node : Node) : Prop :=
  ∃ root depth key, shape.roots root ∧ depth < shape.height ∧ key < shape.fan ^ depth ∧
    shape.at_ child root depth key = some node

/-- No inner node has two places, except that roots agree on shared places. -/
def Separated : Prop :=
  ∀ left right depth depth' key key' node, shape.roots left → shape.roots right →
    depth < shape.height → depth' < shape.height →
    key < shape.fan ^ depth → key' < shape.fan ^ depth' →
    shape.at_ child left depth key = some node → shape.at_ child right depth' key' = some node →
    depth = depth' ∧ key = key' ∧ (left = right ∨ shape.Common depth key)

/-- All roots reach the same nodes at the shared places. -/
def Coherent : Prop :=
  ∀ left right depth key, shape.roots left → shape.roots right → depth ≤ shape.height →
    key < shape.fan ^ depth → shape.Common depth key →
    shape.at_ child left depth key = shape.at_ child right depth key

end Shape

theorem digit_lt {fan depth key digit : Nat} (bounded : key < fan ^ depth) (small : digit < fan) :
    key * fan + digit < fan ^ (depth + 1) := by
  rw [pow_succ]
  calc
    key * fan + digit < key * fan + fan := Nat.add_lt_add_left small _
    _ = (key + 1) * fan := by rw [Nat.add_mul, Nat.one_mul]
    _ ≤ fan ^ depth * fan := Nat.mul_le_mul_right fan bounded

theorem prefix_lt {fan depth key : Nat} (bounded : key < fan ^ (depth + 1)) :
    key / fan < fan ^ depth :=
  Nat.div_lt_of_lt_mul (by rwa [pow_succ, Nat.mul_comm] at bounded)

theorem key_eq_iff {fan key first digit : Nat} (small : digit < fan) :
    key = first * fan + digit ↔ key / fan = first ∧ key % fan = digit := by
  constructor
  · rintro rfl
    have positive : 0 < fan := Nat.lt_of_le_of_lt (Nat.zero_le _) small
    rw [Nat.mul_comm, Nat.mul_add_div positive, Nat.mul_add_mod, Nat.div_eq_of_lt small,
      Nat.mod_eq_of_lt small]
    exact ⟨Nat.add_zero _, rfl⟩
  · rintro ⟨rfl, rfl⟩
    rw [Nat.mul_comm]
    exact (Nat.div_add_mod key fan).symm

theorem walk_none_below {child : Node → Nat → Option Node} {fan : Nat} {root : Node}
    {depth first : Nat} (missing : walk child fan root depth first = none) (levels key : Nat)
    (path : key / fan ^ levels = first) : walk child fan root (depth + levels) key = none := by
  induction levels generalizing key with
  | zero =>
    rw [pow_zero, Nat.div_one] at path
    rw [path, Nat.add_zero, missing]
  | succ levels induction =>
    rw [← Nat.add_assoc, walk, induction (key / fan) (by
      rw [Nat.div_div_eq_div_mul, ← pow_succ', path])]
    rfl

theorem shared_succ {top : Nat → Prop} {fan depth key : Nat} (shared : Shared top fan depth (key / fan)) :
    Shared top fan (depth + 1) key := by
  cases depth with
  | zero => exact shared.elim
  | succ depth => exact shared

theorem shared_below {top : Nat → Prop} {fan depth first digit : Nat} (small : digit < fan)
    (shared : Shared top fan depth first) : Shared top fan (depth + 1) (first * fan + digit) := by
  apply shared_succ
  rwa [((key_eq_iff small).mp (rfl : first * fan + digit = _)).1]

theorem shared_slot_cases {top : Nat → Prop} {fan depth first digit : Nat}
    (small : digit < fan) (bounded : first < fan ^ depth)
    (shared : Shared top fan (depth + 1) (first * fan + digit)) :
    Shared top fan depth first ∨ depth = 0 ∧ top digit := by
  cases depth with
  | zero =>
    have only : first = 0 := by
      rw [pow_zero] at bounded
      omega
    rw [only, Nat.zero_mul, Nat.zero_add digit] at shared
    exact Or.inr ⟨rfl, shared⟩
  | succ depth =>
    have above := ((key_eq_iff small).mp (rfl : first * fan + digit = _)).1
    rw [Shared, above] at shared
    exact Or.inl shared

/-! ## One changed child pointer -/

section Update

variable {shape : Shape Node} {child child' : Node → Nat → Option Node}
  {root target : Node} {depth first digit : Nat}

/-- The place whose walk goes through digit `digit` of the node at `first`. -/
structure Below (shape : Shape Node) (root : Node) (depth first digit : Nat)
    (other : Node) (level key : Nat) : Prop where
  deeper : depth < level
  path : key / shape.fan ^ (level - (depth + 1)) = first * shape.fan + digit
  sharing : other = root ∨ shape.Common depth first

structure Rewrites (shape : Shape Node) (child child' : Node → Nat → Option Node)
    (root target : Node) (depth first digit : Nat) : Prop where
  isRoot : shape.roots root
  inner : depth < shape.height
  bounded : first < shape.fan ^ depth
  small : digit < shape.fan
  place : shape.at_ child root depth first = some target
  others : ∀ node index, shape.Inner child node → index < shape.fan →
    ¬(node = target ∧ index = digit) → child' node index = child node index

theorem walk_off_path (separated : shape.Separated child)
    (rewrites : Rewrites shape child child' root target depth first digit)
    {other : Node} (otherRoot : shape.roots other) {level key : Nat} (reached : level ≤ shape.height)
    (bounded : key < shape.fan ^ level)
    (off : ¬Below shape root depth first digit other level key) :
    shape.at_ child' other level key = shape.at_ child other level key := by
  induction level generalizing key with
  | zero => rfl
  | succ level induction =>
    have upperOff : ¬Below shape root depth first digit other level (key / shape.fan) := by
      intro below
      apply off
      have deeper := below.deeper
      refine ⟨by omega, ?_, below.sharing⟩
      rw [show level + 1 - (depth + 1) = level - (depth + 1) + 1 by omega, pow_succ',
        ← Nat.div_div_eq_div_mul]
      exact below.path
    have upper := induction (by omega) (prefix_lt bounded) upperOff
    simp only [Shape.at_] at upper ⊢
    rw [walk, walk, upper]
    cases found : walk child shape.fan other level (key / shape.fan) with
    | none => rfl
    | some node =>
      have inner : shape.Inner child node :=
        ⟨other, level, key / shape.fan, otherRoot, by omega, prefix_lt bounded, found⟩
      apply rewrites.others node _ inner (Nat.mod_lt _ shape.fanPositive)
      rintro ⟨rfl, rfl⟩
      obtain ⟨rfl, same, sharing⟩ := separated other root level depth (key / shape.fan) first node
        otherRoot rewrites.isRoot (by omega) rewrites.inner (prefix_lt bounded)
        rewrites.bounded found rewrites.place
      apply off
      refine ⟨Nat.lt_succ_self _, ?_, ?_⟩
      · rw [Nat.sub_self, pow_zero, Nat.div_one]
        exact (key_eq_iff rewrites.small).mpr ⟨same, rfl⟩
      · rwa [same] at sharing

theorem walk_at_slot (separated : shape.Separated child) (coherent : shape.Coherent child)
    (rewrites : Rewrites shape child child' root target depth first digit)
    {other : Node} (otherRoot : shape.roots other)
    (sharing : other = root ∨ shape.Common depth first) :
    shape.at_ child' other (depth + 1) (first * shape.fan + digit) = child' target digit := by
  have before : shape.at_ child other depth first = some target := by
    cases sharing with
    | inl same =>
      rw [same]
      exact rewrites.place
    | inr shared =>
      rw [coherent other root depth first otherRoot rewrites.isRoot
        (Nat.le_of_lt rewrites.inner) rewrites.bounded shared]
      exact rewrites.place
  have kept := walk_off_path separated rewrites otherRoot (Nat.le_of_lt rewrites.inner)
    rewrites.bounded (fun below => Nat.lt_irrefl _ below.deeper)
  obtain ⟨quotient, remainder⟩ := (key_eq_iff rewrites.small).mp
    (rfl : first * shape.fan + digit = first * shape.fan + digit)
  simp only [Shape.at_] at before kept ⊢
  rw [walk, quotient, remainder, kept, before]
  rfl

theorem walk_below_childless {child : Node → Nat → Option Node} {other : Node} {slot : Option Node}
    (reached : shape.at_ child other (depth + 1) (first * shape.fan + digit) = slot)
    (childless : ∀ node, slot = some node → ∀ index, index < shape.fan → child node index = none)
    {level key : Nat} (deeper : depth + 1 < level)
    (below : Below shape root depth first digit other level key) :
    shape.at_ child other level key = none := by
  obtain ⟨levels, rfl⟩ := Nat.exists_eq_add_of_le deeper
  refine walk_none_below ?_ levels key rfl
  have path := below.path
  rw [show depth + 1 + 1 + levels - (depth + 1) = levels + 1 by omega, pow_succ,
    ← Nat.div_div_eq_div_mul] at path
  simp only [Shape.at_] at reached
  rw [walk, path, reached]
  cases slot with
  | none => rfl
  | some node => exact childless node rfl _ (Nat.mod_lt _ shape.fanPositive)

/-- A rewrite that hangs at most a childless node into the slot, where at most a childless
node hung before. Leaf updates, linking an empty table and unlinking one are all of this
form. -/
structure Grafts (shape : Shape Node) (child child' : Node → Nat → Option Node)
    (root target : Node) (depth first digit : Nat) : Prop
    extends Rewrites shape child child' root target depth first digit where
  childlessBefore : depth + 1 < shape.height → ∀ node, child target digit = some node →
    ∀ index, index < shape.fan → child node index = none
  childlessAfter : depth + 1 < shape.height → ∀ node, child' target digit = some node →
    ∀ index, index < shape.fan → child' node index = none
  alone : depth = 0 → shape.top digit → ∀ other, shape.roots other → other = root

theorem Grafts.sharing (grafts : Grafts shape child child' root target depth first digit)
    {other : Node} (otherRoot : shape.roots other)
    (shared : shape.Common (depth + 1) (first * shape.fan + digit)) :
    other = root ∨ shape.Common depth first := by
  rcases shared_slot_cases grafts.small grafts.bounded shared with above | ⟨top, digit⟩
  · exact Or.inr above
  · exact Or.inl (grafts.alone top digit other otherRoot)

def AtSlot (shape : Shape Node) (root : Node) (depth first digit : Nat)
    (other : Node) (level key : Nat) : Prop :=
  level = depth + 1 ∧ key = first * shape.fan + digit ∧
    (other = root ∨ shape.Common depth first)

section

variable (separated : shape.Separated child) (coherent : shape.Coherent child)
  (grafts : Grafts shape child child' root target depth first digit)

include separated coherent grafts

theorem graft_walk {other : Node} (otherRoot : shape.roots other) {level key : Nat}
    (reached : level ≤ shape.height) (bounded : key < shape.fan ^ level) :
    AtSlot shape root depth first digit other level key ∧
        shape.at_ child' other level key = child' target digit ∨
      ¬AtSlot shape root depth first digit other level key ∧
        shape.at_ child' other level key = shape.at_ child other level key := by
  by_cases below : Below shape root depth first digit other level key
  · have after := walk_at_slot separated coherent grafts.toRewrites otherRoot below.sharing
    by_cases own : level = depth + 1
    · subst own
      have path := below.path
      rw [Nat.sub_self, pow_zero, Nat.div_one] at path
      subst path
      exact Or.inl ⟨⟨rfl, rfl, below.sharing⟩, after⟩
    · have unchanged : Rewrites shape child child root target depth first digit :=
        { grafts.toRewrites with others := fun _ _ _ _ _ => rfl }
      have before := walk_at_slot separated coherent unchanged otherRoot below.sharing
      have deeper : depth + 1 < level := by
        have deeper := below.deeper
        omega
      refine Or.inr ⟨fun slot => own slot.1, ?_⟩
      rw [walk_below_childless after (grafts.childlessAfter (by omega)) deeper below,
        walk_below_childless before (grafts.childlessBefore (by omega)) deeper below]
  · refine Or.inr ⟨?_, walk_off_path separated grafts.toRewrites otherRoot reached bounded below⟩
    rintro ⟨rfl, rfl, sharing⟩
    apply below
    refine ⟨Nat.lt_succ_self _, ?_, sharing⟩
    rw [Nat.sub_self, pow_zero, Nat.div_one]

theorem graft_inner {node : Node} (inner : shape.Inner child' node) :
    (shape.Inner child node ∧ (depth + 1 < shape.height → child target digit ≠ some node)) ∨
      depth + 1 < shape.height ∧ child' target digit = some node := by
  obtain ⟨other, level, key, otherRoot, inside, bounded, found⟩ := inner
  rcases graft_walk separated coherent grafts otherRoot (Nat.le_of_lt inside) bounded with
    ⟨⟨rfl, -, -⟩, slot⟩ | ⟨off, same⟩
  · exact Or.inr ⟨inside, slot.symm.trans found⟩
  · rw [same] at found
    refine Or.inl ⟨⟨other, level, key, otherRoot, inside, bounded, found⟩, ?_⟩
    intro inner hung
    -- the node also sits at the slot, so its place is the slot's
    have unchanged : Rewrites shape child child root target depth first digit :=
      { grafts.toRewrites with others := fun _ _ _ _ _ => rfl }
    have place := walk_at_slot separated coherent unchanged grafts.isRoot (Or.inl rfl)
    rw [hung] at place
    obtain ⟨sameDepth, sameKey, sharing⟩ := separated other root level (depth + 1) key
      (first * shape.fan + digit) node otherRoot grafts.isRoot inside inner bounded
      (digit_lt grafts.bounded grafts.small) found place
    subst sameDepth sameKey
    apply off
    refine ⟨rfl, rfl, ?_⟩
    cases sharing with
    | inl same => exact Or.inl same
    | inr shared => exact grafts.sharing otherRoot shared

theorem graft_separated
    (fresh : depth + 1 < shape.height → ∀ node, child' target digit = some node →
      ¬shape.Inner child node) : shape.Separated child' := by
  intro left right level level' key key' node leftRoot rightRoot inside inside' bounded bounded'
    found found'
  rcases graft_walk separated coherent grafts leftRoot (Nat.le_of_lt inside) bounded with
    ⟨⟨rfl, rfl, sharing⟩, slot⟩ | ⟨-, same⟩ <;>
  rcases graft_walk separated coherent grafts rightRoot (Nat.le_of_lt inside') bounded' with
    ⟨⟨rfl, rfl, sharing'⟩, slot'⟩ | ⟨-, same'⟩
  · refine ⟨rfl, rfl, ?_⟩
    rcases sharing with rfl | shared
    · rcases sharing' with rfl | shared
      · exact Or.inl rfl
      · exact Or.inr (shared_below grafts.small shared)
    · exact Or.inr (shared_below grafts.small shared)
  · rw [same'] at found'
    exact absurd ⟨right, level', key', rightRoot, inside', bounded', found'⟩
      (fresh inside node (slot.symm.trans found))
  · rw [same] at found
    exact absurd ⟨left, level, key, leftRoot, inside, bounded, found⟩
      (fresh inside' node (slot'.symm.trans found'))
  · rw [same] at found
    rw [same'] at found'
    exact separated left right level level' key key' node leftRoot rightRoot inside inside' bounded
      bounded' found found'

theorem graft_coherent : shape.Coherent child' := by
  intro left right level key leftRoot rightRoot reached bounded shared
  rcases graft_walk separated coherent grafts leftRoot reached bounded with
    ⟨⟨rfl, rfl, -⟩, slot⟩ | ⟨off, same⟩ <;>
  rcases graft_walk separated coherent grafts rightRoot reached bounded with
    ⟨atSlot, slot'⟩ | ⟨off', same'⟩
  · rw [slot, slot']
  · exact absurd ⟨rfl, rfl, grafts.sharing rightRoot shared⟩ off'
  · obtain ⟨rfl, rfl, -⟩ := atSlot
    exact absurd ⟨rfl, rfl, grafts.sharing leftRoot shared⟩ off
  · rw [same, same']
    exact coherent left right level key leftRoot rightRoot reached bounded shared

end

end Update

/-! ## Changes the forest does not see -/

section Agreement

variable {shape : Shape Node} {child child' : Node → Nat → Option Node}

def Agrees (shape : Shape Node) (child child' : Node → Nat → Option Node) : Prop :=
  ∀ node index, shape.Inner child node → index < shape.fan → child' node index = child node index

section

variable (agrees : Agrees shape child child')

include agrees

theorem Agrees.walk {root : Node} (isRoot : shape.roots root) {level key : Nat}
    (reached : level ≤ shape.height) (bounded : key < shape.fan ^ level) :
    shape.at_ child' root level key = shape.at_ child root level key := by
  induction level generalizing key with
  | zero => rfl
  | succ level induction =>
    have above := induction (by omega) (prefix_lt bounded)
    simp only [Shape.at_] at above ⊢
    rw [RadixForests.walk, RadixForests.walk, above]
    cases found : RadixForests.walk child shape.fan root level (key / shape.fan) with
    | none => rfl
    | some node =>
      exact agrees node _ ⟨root, level, _, isRoot, by omega, prefix_lt bounded, found⟩
        (Nat.mod_lt _ shape.fanPositive)

theorem Agrees.inner {node : Node} : shape.Inner child' node ↔ shape.Inner child node := by
  constructor
  all_goals
    rintro ⟨root, level, key, isRoot, inside, bounded, found⟩
    refine ⟨root, level, key, isRoot, inside, bounded, ?_⟩
  · rwa [agrees.walk isRoot (Nat.le_of_lt inside) bounded] at found
  · rwa [agrees.walk isRoot (Nat.le_of_lt inside) bounded]

theorem Agrees.separated (separated : shape.Separated child) : shape.Separated child' := by
  intro left right level level' key key' node leftRoot rightRoot inside inside' bounded bounded'
    found found'
  rw [agrees.walk leftRoot (Nat.le_of_lt inside) bounded] at found
  rw [agrees.walk rightRoot (Nat.le_of_lt inside') bounded'] at found'
  exact separated left right level level' key key' node leftRoot rightRoot inside inside' bounded
    bounded' found found'

theorem Agrees.coherent (coherent : shape.Coherent child) : shape.Coherent child' := by
  intro left right level key leftRoot rightRoot reached bounded shared
  rw [agrees.walk leftRoot reached bounded, agrees.walk rightRoot reached bounded]
  exact coherent left right level key leftRoot rightRoot reached bounded shared

end

end Agreement

/-! ## New roots -/

section NewRoot

variable {shape : Shape Node} {child : Node → Nat → Option Node} {new model : Node}

def Shape.withRoot (shape : Shape Node) (new : Node) : Shape Node :=
  { shape with roots := fun root => root = new ∨ shape.roots root }

/-- `new` has the shared children of the root `model` and no others. -/
structure Adopts (shape : Shape Node) (child : Node → Nat → Option Node) (new model : Node) :
    Prop where
  isRoot : shape.roots model
  fresh : ¬shape.Inner child new
  copied : ∀ digit, digit < shape.fan → shape.top digit → child new digit = child model digit
  blank : ∀ digit, digit < shape.fan → ¬shape.top digit → child new digit = none

section

variable (adopts : Adopts shape child new model)

include adopts

theorem Adopts.walk (level : Nat) {key : Nat} (bounded : key < shape.fan ^ (level + 1)) :
    (shape.Common (level + 1) key →
        shape.at_ child new (level + 1) key = shape.at_ child model (level + 1) key) ∧
      (¬shape.Common (level + 1) key → shape.at_ child new (level + 1) key = none) := by
  induction level generalizing key with
  | zero =>
    rw [Nat.zero_add, pow_one] at bounded
    have digit : key % shape.fan = key := Nat.mod_eq_of_lt bounded
    constructor
    · intro shared
      change child new (key % shape.fan) = child model (key % shape.fan)
      rw [digit]
      exact adopts.copied key bounded shared
    · intro own
      change child new (key % shape.fan) = none
      rw [digit]
      exact adopts.blank key bounded own
  | succ level induction =>
    obtain ⟨copied, blank⟩ := induction (prefix_lt bounded)
    constructor
    · intro shared
      exact congrArg (Option.bind · fun node => child node (key % shape.fan)) (copied shared)
    · intro own
      exact congrArg (Option.bind · fun node => child node (key % shape.fan)) (blank own)

theorem Adopts.place {root node : Node} {level key : Nat} (isRoot : (shape.withRoot new).roots root)
    (bounded : key < shape.fan ^ level) (found : shape.at_ child root level key = some node) :
    (root = new ∧ level = 0 ∧ node = new) ∨
      ∃ old, shape.roots old ∧ shape.at_ child old level key = some node ∧
        (old = root ∨ shape.Common level key) := by
  rcases isRoot with rfl | old
  · cases level with
    | zero => exact Or.inl ⟨rfl, rfl, (Option.some.inj found).symm⟩
    | succ level =>
      obtain ⟨copied, blank⟩ := adopts.walk level bounded
      by_cases shared : shape.Common (level + 1) key
      · rw [copied shared] at found
        exact Or.inr ⟨model, adopts.isRoot, found, Or.inr shared⟩
      · rw [blank shared] at found
        cases found
  · exact Or.inr ⟨root, old, found, Or.inl rfl⟩

theorem Adopts.inner {node : Node} (inner : (shape.withRoot new).Inner child node) :
    node = new ∨ shape.Inner child node := by
  obtain ⟨root, level, key, isRoot, inside, bounded, found⟩ := inner
  rcases adopts.place isRoot bounded found with ⟨-, -, rfl⟩ | ⟨old, oldRoot, oldFound, -⟩
  · exact Or.inl rfl
  · exact Or.inr ⟨old, level, key, oldRoot, inside, bounded, oldFound⟩

theorem Adopts.separated (separated : shape.Separated child) :
    (shape.withRoot new).Separated child := by
  intro left right level level' key key' node leftRoot rightRoot inside inside' bounded bounded'
    found found'
  rcases adopts.place leftRoot bounded found with
    ⟨rfl, rfl, rfl⟩ | ⟨old, oldRoot, oldFound, sharing⟩ <;>
  rcases adopts.place rightRoot bounded' found' with
    ⟨rfl, rfl, same⟩ | ⟨old', oldRoot', oldFound', sharing'⟩
  · rw [pow_zero] at bounded bounded'
    exact ⟨rfl, by omega, Or.inl rfl⟩
  · exact absurd ⟨old', level', key', oldRoot', inside', bounded', oldFound'⟩ adopts.fresh
  · rw [same] at oldFound
    exact absurd ⟨old, level, key, oldRoot, inside, bounded, oldFound⟩ adopts.fresh
  · obtain ⟨rfl, rfl, places⟩ := separated old old' level level' key key' node oldRoot oldRoot'
      inside inside' bounded bounded' oldFound oldFound'
    refine ⟨rfl, rfl, ?_⟩
    rcases sharing with rfl | shared
    · rcases sharing' with rfl | shared
      · exact places
      · exact Or.inr shared
    · exact Or.inr shared

theorem Adopts.coherent (coherent : shape.Coherent child) :
    (shape.withRoot new).Coherent child := by
  have toModel : ∀ root level key, (shape.withRoot new).roots root → level ≤ shape.height →
      key < shape.fan ^ level → shape.Common level key →
      shape.at_ child root level key = shape.at_ child model level key := by
    intro root level key isRoot reached bounded shared
    rcases isRoot with rfl | old
    · cases level with
      | zero => exact shared.elim
      | succ level => exact (adopts.walk level bounded).1 shared
    · exact coherent root model level key old adopts.isRoot reached bounded shared
  intro left right level key leftRoot rightRoot reached bounded shared
  exact (toModel left level key leftRoot reached bounded shared).trans
    (toModel right level key rightRoot reached bounded shared).symm

end

end NewRoot

/-! ## One empty root -/

section Single

variable {shape : Shape Node} {child : Node → Nat → Option Node} {root : Node}

theorem walk_blank (blank : ∀ digit, digit < shape.fan → child root digit = none)
    (level key : Nat) : shape.at_ child root (level + 1) key = none := by
  induction level generalizing key with
  | zero => exact blank _ (Nat.mod_lt _ shape.fanPositive)
  | succ level induction =>
    exact congrArg (Option.bind · fun node => child node (key % shape.fan))
      (induction (key / shape.fan))

theorem separated_blank (only : ∀ other, shape.roots other → other = root)
    (blank : ∀ digit, digit < shape.fan → child root digit = none) : shape.Separated child := by
  intro left right level level' key key' node leftRoot rightRoot inside inside' bounded bounded'
    found found'
  rw [only left leftRoot] at found
  rw [only right rightRoot] at found'
  cases level with
  | succ level => rw [walk_blank blank] at found; cases found
  | zero =>
    cases level' with
    | succ level' => rw [walk_blank blank] at found'; cases found'
    | zero =>
      rw [pow_zero] at bounded bounded'
      exact ⟨rfl, by omega, Or.inl ((only left leftRoot).trans (only right rightRoot).symm)⟩

theorem coherent_single (only : ∀ other, shape.roots other → other = root) :
    shape.Coherent child := by
  intro left right level key leftRoot rightRoot _ _ _
  rw [only left leftRoot, only right rightRoot]

end Single

theorem walk_zero (child : Node → Nat → Option Node) (fan : Nat) (root : Node) (key : Nat) :
    walk child fan root 0 key = some root :=
  rfl

theorem walk_succ (child : Node → Nat → Option Node) (fan : Nat) (root : Node) (depth key : Nat) :
    walk child fan root (depth + 1) key =
      (walk child fan root depth (key / fan)).bind fun node => child node (key % fan) :=
  rfl

attribute [irreducible] walk

end RiriaKernel.RadixForests
