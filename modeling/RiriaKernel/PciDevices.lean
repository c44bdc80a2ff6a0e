import Mathlib.Data.Nat.Bitwise
import RiriaKernel.KernelState

/-!
# PCI configuration space

`pci.c`, over the two ports of the configuration mechanism. A register of the configuration
space keeps its value where it is read-only and takes what is written elsewhere; a base
address register is such a register, with the address bits from its size on as the writable
ones. The scans for a device are left out.
-/

namespace RiriaKernel.PciDevices

open HaltingPrograms KernelState

/-! ## Registers and ports -/

structure Register where
  value : BitVec 32
  writable : BitVec 32
  deriving DecidableEq, Repr

def Register.write (register : Register) (value : BitVec 32) : Register where
  value := (register.value &&& ~~~register.writable) ||| (value &&& register.writable)
  writable := register.writable

/-- The selected address, and the registers by the address that selects them. -/
structure Pci where
  command : BitVec 32
  config : BitVec 32 → Register

abbrev Bus := EStateM Stop Pci

def cmdPort : Nat := 0xCF8

def dataPort : Nat := 0xCFC

def outbL (port : Nat) (value : BitVec 32) : Bus PUnit := modify fun pci =>
  if port = cmdPort then { pci with command := value }
  else if port = dataPort then
    { pci with
      config := Function.update pci.config pci.command ((pci.config pci.command).write value) }
  else pci

def inbL (port : Nat) : Bus (BitVec 32) := do
  let pci ← get
  if port = cmdPort then return pci.command
  else if port = dataPort then return (pci.config pci.command).value
  else return BitVec.allOnes 32

/-! ## The functions of the driver -/

structure PciBar where
  addr : BitVec 32
  size : BitVec 32
  type : Nat
  deriving DecidableEq, Repr

/-- `base` is `general.base`. -/
structure PciDevice where
  vendor : BitVec 16
  device : BitVec 16
  bus : BitVec 8
  slot : BitVec 8
  base : BitVec 32
  deriving DecidableEq, Repr

def pciBarMem : Nat := 1

def pciBarIo : Nat := 2

/-- The address that selects a register. A slot above 31 runs into the bits of the bus. -/
def configAddress (bus slot func offset : BitVec 8) : BitVec 32 :=
  (bus.setWidth 32 <<< 16) ||| (slot.setWidth 32 <<< 11) ||| (func.setWidth 32 <<< 8) |||
    (offset &&& 0xFC).setWidth 32 ||| 0x80000000

def pciRead (dev : PciDevice) (func offset : BitVec 8) : Bus (BitVec 32) := do
  outbL cmdPort (configAddress dev.bus dev.slot func offset)
  inbL dataPort

def pciWrite (dev : PciDevice) (func offset : BitVec 8) (val : BitVec 32) : Bus PUnit := do
  outbL cmdPort (configAddress dev.bus dev.slot func offset)
  outbL dataPort val

/-- The result and what `*bar` holds afterwards. -/
def pciGetBar (dev : PciDevice) (barIdx : BitVec 8) (bar : PciBar) : Bus (Nat × PciBar) := do
  if barIdx > 5 then return (0, bar)
  else
    let offset := 0x10 + barIdx * 4
    let originalBar ← pciRead dev 0 offset
    let type := if originalBar &&& 1 ≠ 0 then pciBarIo else pciBarMem
    let physBar := originalBar &&& 0xFFFFFFF0
    pciWrite dev 0 offset 0xFFFFFFFF
    let barResult ← pciRead dev 0 offset
    pciWrite dev 0 offset originalBar
    return (1, { addr := physBar, size := ~~~(barResult &&& ~~~0xF) + 1, type })

section Ports

variable {pci : Pci} {dev : PciDevice} {func offset : BitVec 8} {stopped : Stop → Pci → Prop}

@[simp] theorem ends_pciRead {returned : BitVec 32 → Pci → Prop} :
    Ends (pciRead dev func offset) returned stopped pci =
      returned (pci.config (configAddress dev.bus dev.slot func offset)).value
        { pci with command := configAddress dev.bus dev.slot func offset } := by
  simp only [pciRead, outbL, inbL, ends_bind, ends_modify, ends_get, if_pos, ends_ite, ends_pure]
  rfl

@[simp] theorem ends_pciWrite {returned : PUnit → Pci → Prop} (val : BitVec 32) :
    Ends (pciWrite dev func offset val) returned stopped pci =
      returned ⟨⟩
        { command := configAddress dev.bus dev.slot func offset
          config := Function.update pci.config (configAddress dev.bus dev.slot func offset)
            ((pci.config (configAddress dev.bus dev.slot func offset)).write val) } := by
  simp only [pciWrite, outbL, ends_bind, ends_modify, if_pos]
  rfl

end Ports

/-! ## Base address registers -/

theorem Register.write_write_value (register : Register) (value : BitVec 32) :
    (register.write value).write register.value = register := by
  obtain ⟨held, writable⟩ := register
  simp only [Register.write, Register.mk.injEq, and_true]
  ext index inside
  simp only [BitVec.getElem_or, BitVec.getElem_and, BitVec.getElem_not]
  cases held[index] <;> cases writable[index] <;> simp

inductive BarKind
  | io
  | mem (prefetchable : Bool)
  deriving DecidableEq, Repr

/-- The type bits of a register: bit 0 tells the kind, bit 3 of a memory register whether it
can be prefetched; bits 1 and 2 of a 32-bit memory register are zero. -/
def BarKind.bits : BarKind → BitVec 32
  | .io => 1
  | .mem false => 0
  | .mem true => 8

def BarKind.least : BarKind → Nat
  | .io => 2
  | .mem _ => 4

def BarKind.type : BarKind → Nat
  | .io => pciBarIo
  | .mem _ => pciBarMem

/-- A base address register of size `2 ^ exponent`. -/
structure Bar where
  kind : BarKind
  exponent : Nat
  base : BitVec 32
  least : kind.least ≤ exponent
  most : exponent < 32
  aligned : base.toNat % 2 ^ exponent = 0

/-- Its bits below the size are read-only, and zero but for the type bits. -/
def Bar.register (bar : Bar) : Register where
  value := bar.base ||| bar.kind.bits
  writable := BitVec.allOnes 32 <<< bar.exponent

theorem Bar.base_low (bar : Bar) {index : Nat} (low : index < bar.exponent) :
    bar.base.getLsbD index = false := by
  obtain ⟨quotient, multiple⟩ := Nat.dvd_of_mod_eq_zero bar.aligned
  rw [BitVec.getLsbD, multiple, Nat.testBit_two_pow_mul]
  simp [Nat.not_le.mpr low]

theorem BarKind.bits_high (kind : BarKind) {index : Nat} (high : 4 ≤ index) :
    kind.bits.getLsbD index = false := by
  have small : kind.bits.toNat < 2 ^ 4 := by
    rcases kind with - | prefetchable
    · decide
    · cases prefetchable <;> decide
  exact Nat.testBit_lt_two_pow (Nat.lt_of_lt_of_le small (Nat.pow_le_pow_right (by decide) high))

theorem probe_mask_bit {index : Nat} (inside : index < 32) :
    (0xFFFFFFF0 : BitVec 32).getLsbD index = decide (4 ≤ index) := by
  have checked : ∀ position : Fin 32,
      (0xFFFFFFF0 : BitVec 32).getLsbD position = decide (4 ≤ position.val) := by decide
  exact checked ⟨index, inside⟩

theorem shifted_ones_bit {exponent index : Nat} (inside : index < 32) :
    (BitVec.allOnes 32 <<< exponent).getLsbD index = decide (exponent ≤ index) := by
  rw [BitVec.getLsbD_shiftLeft, BitVec.getLsbD_allOnes]
  by_cases low : index < exponent
  · simp [low, Nat.not_le.mpr low]
  · have bound : index - exponent < 32 := Nat.lt_of_le_of_lt (Nat.sub_le _ _) inside
    simp [inside, low, bound, Nat.not_lt.mp low]

namespace Bar

variable (bar : Bar)

theorem exponent_pos : 0 < bar.exponent := by
  have least := bar.least
  cases kind : bar.kind <;> rw [kind] at least <;> simp only [BarKind.least] at least <;> omega

theorem value_and_one : bar.register.value &&& 1 = bar.kind.bits &&& 1 := by
  ext index inside
  simp only [register, BitVec.getElem_and, BitVec.getElem_or]
  by_cases first : index = 0
  · subst first
    have clear := bar.base_low bar.exponent_pos
    rw [← BitVec.getLsbD_eq_getElem inside, ← BitVec.getLsbD_eq_getElem inside, clear]
    simp
  · simp [first]

theorem type_of_value :
    (if bar.register.value &&& 1 ≠ 0 then pciBarIo else pciBarMem) = bar.kind.type := by
  rw [bar.value_and_one]
  rcases bar.kind with - | prefetchable
  · decide
  · cases prefetchable <;> decide

theorem value_masked : bar.register.value &&& 0xFFFFFFF0 = bar.base &&& 0xFFFFFFF0 := by
  apply BitVec.eq_of_getLsbD_eq
  intro index inside
  rw [BitVec.getLsbD_and, BitVec.getLsbD_and, probe_mask_bit inside, register, BitVec.getLsbD_or]
  by_cases high : 4 ≤ index
  · rw [bar.kind.bits_high high, Bool.or_false]
  · simp [high]

theorem base_masked (large : 4 ≤ bar.exponent) : bar.base &&& 0xFFFFFFF0 = bar.base := by
  apply BitVec.eq_of_getLsbD_eq
  intro index inside
  rw [BitVec.getLsbD_and, probe_mask_bit inside]
  by_cases high : 4 ≤ index
  · simp [high]
  · rw [bar.base_low (by omega), Bool.false_and]

/-- What the probe reads back: ones from the size on, but never below bit 4. -/
theorem read_back_masked :
    (bar.register.write 0xFFFFFFFF).value &&& ~~~0xF = BitVec.allOnes 32 <<< max bar.exponent 4 := by
  apply BitVec.eq_of_getLsbD_eq
  intro index inside
  have ones : (0xFFFFFFFF : BitVec 32).getLsbD index = true := by
    rw [show (0xFFFFFFFF : BitVec 32) = BitVec.allOnes 32 from rfl, BitVec.getLsbD_allOnes]
    exact decide_eq_true inside
  rw [show (~~~0xF : BitVec 32) = 0xFFFFFFF0 from rfl, BitVec.getLsbD_and, probe_mask_bit inside,
    shifted_ones_bit inside]
  simp only [Register.write, register, BitVec.getLsbD_or, BitVec.getLsbD_and, BitVec.getLsbD_not,
    shifted_ones_bit inside, ones]
  by_cases high : 4 ≤ index
  · by_cases low : index < bar.exponent
    · have outside : ¬max bar.exponent 4 ≤ index := by omega
      simp [bar.base_low low, bar.kind.bits_high high, Nat.not_le.mpr low]
    · simp [high, Nat.not_lt.mp low]
  · simp [high]

end Bar

theorem negated_ones {exponent : Nat} (inside : exponent < 32) :
    ~~~(BitVec.allOnes 32 <<< exponent) + 1 = (1#32 <<< exponent) := by
  have checked : ∀ shift : Fin 32,
      ~~~(BitVec.allOnes 32 <<< shift.val) + 1 = (1#32 <<< shift.val) := by decide
  exact checked ⟨exponent, inside⟩

theorem shifted_one_injective {left right : Nat} (first : left < 32) (second : right < 32)
    (same : (1#32 <<< left) = (1#32 <<< right)) : left = right := by
  have checked : ∀ left right : Fin 32, (1#32 <<< left.val) = (1#32 <<< right.val) →
      left = right := by decide
  exact congrArg Fin.val (checked ⟨left, first⟩ ⟨right, second⟩ same)

/-! ## Probing a register -/

def barAddress (dev : PciDevice) (barIdx : BitVec 8) : BitVec 32 :=
  configAddress dev.bus dev.slot 0 (0x10 + barIdx * 4)

/-- What the probe stores: sizes below 16 come out as 16, and the address loses its bits below
bit 4. The registers are as before. -/
theorem ends_pciGetBar {pci : Pci} {dev : PciDevice} {barIdx : BitVec 8} {out : PciBar} (bar : Bar)
    {stopped : Stop → Pci → Prop} (listed : barIdx ≤ 5)
    (present : pci.config (barAddress dev barIdx) = bar.register) :
    Ends (pciGetBar dev barIdx out)
      (fun result after => result =
          (1, ⟨bar.base &&& 0xFFFFFFF0, 1#32 <<< max bar.exponent 4, bar.kind.type⟩) ∧
        after.config = pci.config) stopped pci := by
  unfold barAddress at present
  have inside : ¬barIdx > 5 := BitVec.not_lt.mpr listed
  have largest : max bar.exponent 4 < 32 := Nat.max_lt.mpr ⟨bar.most, by decide⟩
  simp only [pciGetBar, ends_ite, ends_bind, ends_pciRead, ends_pciWrite, ends_pure,
    Function.update_self, Function.update_idem, present]
  rw [if_neg inside, bar.value_masked, bar.read_back_masked, negated_ones largest,
    Register.write_write_value, bar.type_of_value, ← present, Function.update_eq_self]
  exact ⟨rfl, rfl⟩

/-- Probing a base address register decodes it and leaves the configuration space as it was
exactly when it is a memory register or decodes at least 16 ports. -/
theorem bar_probe_exact_iff (pci : Pci) (dev : PciDevice) (barIdx : BitVec 8) (out : PciBar)
    (bar : Bar) (listed : barIdx ≤ 5)
    (present : pci.config (barAddress dev barIdx) = bar.register) :
    (∃ after, pciGetBar dev barIdx out pci =
        .ok (1, ⟨bar.base, 1#32 <<< bar.exponent, bar.kind.type⟩) after ∧
      after.config = pci.config) ↔
      bar.kind ≠ .io ∨ 4 ≤ bar.exponent := by
  have ends := @ends_pciGetBar pci dev barIdx out bar (fun _ _ => False) listed present
  have wide : bar.kind ≠ .io ∨ 4 ≤ bar.exponent ↔ 4 ≤ bar.exponent := by
    have least := bar.least
    cases kind : bar.kind with
    | io => simp
    | mem prefetchable =>
      rw [kind] at least
      simpa [BarKind.least] using least
  rw [wide]
  constructor
  · rintro ⟨after, run, -⟩
    obtain ⟨same, -⟩ := ends.returns run
    have sizes := congrArg (fun result : Nat × PciBar => result.2.size) same
    have exponents := shifted_one_injective bar.most (Nat.max_lt.mpr ⟨bar.most, by decide⟩) sizes
    omega
  · intro large
    obtain ⟨result, after, run, same, kept⟩ := ends.exists_ok
    rw [same, bar.base_masked large, Nat.max_eq_left large] at run
    exact ⟨after, run, kept⟩

/-- A bus with one base address register at index 0 of the first device. -/
def oneBar (bar : Bar) : Pci where
  command := 0
  config := Function.update (fun _ => ⟨0, 0⟩) (barAddress ⟨0, 0, 0, 0, 0⟩ 0) bar.register

theorem one_bar_present (bar : Bar) :
    (oneBar bar).config (barAddress ⟨0, 0, 0, 0, 0⟩ 0) = bar.register := by
  simp [oneBar]

/-- A register of 256 ports at 0x1000, and one of 4 ports behind it. -/
def largePorts : Bar := ⟨.io, 8, 0x1000, by decide, by decide, by decide⟩

def smallPorts : Bar := ⟨.io, 2, 0x1104, by decide, by decide, by decide⟩

theorem bar_probe_exact_large : ∃ after,
    pciGetBar ⟨0, 0, 0, 0, 0⟩ 0 ⟨0, 0, 0⟩ (oneBar largePorts) =
        .ok (1, ⟨0x1000, 256, pciBarIo⟩) after ∧ after.config = (oneBar largePorts).config :=
  (bar_probe_exact_iff (oneBar largePorts) ⟨0, 0, 0, 0, 0⟩ 0 ⟨0, 0, 0⟩ largePorts (by decide)
    (one_bar_present largePorts)).mpr (Or.inr (by decide))

/-- Four ports at 0x1104 are reported as sixteen at 0x1100. -/
theorem small_ports_misread : ∃ after,
    pciGetBar ⟨0, 0, 0, 0, 0⟩ 0 ⟨0, 0, 0⟩ (oneBar smallPorts) =
      .ok (1, ⟨0x1100, 16, pciBarIo⟩) after := by
  obtain ⟨result, after, run, same, -⟩ := (@ends_pciGetBar _ _ _ ⟨0, 0, 0⟩ smallPorts
    (fun _ _ => False) (by decide) (one_bar_present smallPorts)).exists_ok
  have decoded : result = (1, ⟨0x1100, 16, pciBarIo⟩) := same.trans (by decide)
  exact ⟨after, decoded ▸ run⟩

end RiriaKernel.PciDevices
