import SmpNostd.Lib.LatchedWindow

/-!
The driver of one I/O APIC (`ioapic.rs`).

The registers are reached through IOREGSEL and IOWIN, and every access to either
is one step of the program that a method is here. Arithmetic on the 8-bit
register indices wraps, as it does without overflow checks.
-/

namespace SmpNostd

open Mmio

/-! ### Redirection entries -/

/-- A 64-bit I/O APIC redirection table entry. -/
structure RedirectionEntry where
  raw : BitVec 64
  deriving DecidableEq, Repr

namespace RedirectionEntry

/-- Delivery mode: fixed. -/
def delmodeFixed : BitVec 64 := 0b000 <<< 8

/-- Destination mode: physical. -/
def destmodePhysical : BitVec 64 := 0 <<< 11

/-- Polarity: active high. -/
def polarityHigh : BitVec 64 := 0 <<< 13

/-- Trigger mode: edge. -/
def triggerEdge : BitVec 64 := 0 <<< 15

/-- Interrupt mask bit. -/
def maskBit : BitVec 64 := 1 <<< 16

/-- An entry with all fields specified. -/
def new (vector : BitVec 8) (deliveryMode destMode polarity triggerMode : BitVec 64)
    (masked : Bool) (destination : BitVec 8) : RedirectionEntry :=
  let raw := vector.setWidth 64 ||| deliveryMode ||| destMode ||| polarity ||| triggerMode |||
    (destination.setWidth 64 <<< 56)
  ⟨if masked then raw ||| maskBit else raw⟩

/-- An edge-triggered, fixed-delivery, physical-destination entry. -/
def simple (vector destApicId : BitVec 8) : RedirectionEntry :=
  new vector delmodeFixed destmodePhysical polarityHigh triggerEdge false destApicId

/-- Set or clear the mask bit. -/
def setMasked (entry : RedirectionEntry) (mask : Bool) : RedirectionEntry :=
  ⟨if mask then entry.raw ||| maskBit else entry.raw &&& ~~~maskBit⟩

end RedirectionEntry

/-! ### The driver -/

/-- Driver for a single I/O APIC. The base address of its registers says which
device the programs run on, and is not in them. -/
structure IoApic where
  gsiBase : BitVec 32
  maxEntries : BitVec 8
  deriving DecidableEq, Repr

/-- The registers of an I/O APIC, with IOREGSEL as the latch. -/
abbrev IoDevice := Device (BitVec 8) (BitVec 32)

/-- A program that accesses IOREGSEL and IOWIN. -/
abbrev IoProg := Prog (BitVec 8) (BitVec 32)

namespace IoApic

/-- Base index for redirection table entries. -/
def regRedtblBase : BitVec 8 := 0x10

/-- The index of the low register of a pin's entry. -/
def regBase (irq : BitVec 8) : BitVec 8 := regRedtblBase + irq * 2

/-- Select a register index via IOREGSEL and read from IOWIN. -/
def readReg (index : BitVec 8) : IoProg (BitVec 32) := .select index (.read .ret)

/-- Select a register index via IOREGSEL and write to IOWIN. -/
def writeReg (index : BitVec 8) (value : BitVec 32) : IoProg Unit :=
  .select index (.write value (.ret ()))

/-- The entry that the two registers make up. -/
def entryOf (low high : BitVec 32) : RedirectionEntry :=
  ⟨low.setWidth 64 ||| (high.setWidth 64 <<< 32)⟩

/-- Read a 64-bit redirection entry by pin. -/
def readRedirection (apic : IoApic) (irq : BitVec 8) : IoProg RedirectionEntry :=
  if irq < apic.maxEntries then do
    let low ← readReg (regBase irq)
    let high ← readReg (regBase irq + 1)
    return entryOf low high
  else .panic

/-- Write a 64-bit redirection entry by pin. -/
def writeRedirection (apic : IoApic) (irq : BitVec 8) (entry : RedirectionEntry) : IoProg Unit :=
  if irq < apic.maxEntries then do
    writeReg (regBase irq) (entry.raw.setWidth 32)
    writeReg (regBase irq + 1) ((entry.raw >>> 32).setWidth 32)
  else .panic

/-- The pin that `route_irq` computes from a GSI. -/
def pinOf (apic : IoApic) (gsi : BitVec 32) : BitVec 8 := (gsi - apic.gsiBase).setWidth 8

/-- Route a GSI to a specific CPU core. -/
def routeIrq (apic : IoApic) (gsi : BitVec 32) (vector destApicId : BitVec 8) : IoProg Unit :=
  apic.writeRedirection (apic.pinOf gsi) (.simple vector destApicId)

/-- Read a pin's entry, set or clear its mask bit, and write it back. -/
def updateMask (apic : IoApic) (mask : Bool) (irq : BitVec 8) : IoProg Unit := do
  let entry ← apic.readRedirection irq
  apic.writeRedirection irq (entry.setMasked mask)

/-- Mask a pin. -/
def maskIrq (apic : IoApic) (irq : BitVec 8) : IoProg Unit := apic.updateMask true irq

/-- Unmask a pin. -/
def unmaskIrq (apic : IoApic) (irq : BitVec 8) : IoProg Unit := apic.updateMask false irq

/-! ### The registers of a pin -/

/-- The two registers of a pin's entry. -/
def pinRegs (irq : BitVec 8) : Set (BitVec 8) := {regBase irq, regBase irq + 1}

/-- The entry that a device holds for a pin. -/
def entry (d : IoDevice) (irq : BitVec 8) : RedirectionEntry :=
  entryOf (d.regs (regBase irq)) (d.regs (regBase irq + 1))

variable {irq : BitVec 8}

theorem regBase_mem_pinRegs : regBase irq ∈ pinRegs irq := Or.inl rfl

theorem regBase_add_one_mem_pinRegs : regBase irq + 1 ∈ pinRegs irq := Or.inr rfl

theorem entry_congr {d d' : IoDevice} (h : ∀ i ∈ pinRegs irq, d.regs i = d'.regs i) :
    entry d irq = entry d' irq := by
  rw [entry, entry, h _ regBase_mem_pinRegs, h _ regBase_add_one_mem_pinRegs]

/-- For the first 120 pins the index of the register does not wrap. -/
theorem toNat_regBase (h : irq.toNat < 120) : (regBase irq).toNat = 16 + 2 * irq.toNat := by
  simp only [regBase, regRedtblBase, BitVec.toNat_add, BitVec.toNat_mul,
    BitVec.ofNat_eq_ofNat, BitVec.toNat_ofNat]
  omega

theorem toNat_regBase_add_one (h : irq.toNat < 120) :
    (regBase irq + 1).toNat = 17 + 2 * irq.toNat := by
  simp only [BitVec.toNat_add, toNat_regBase h, BitVec.ofNat_eq_ofNat, BitVec.toNat_ofNat]
  omega

theorem pinRegs_disjoint {irq' : BitVec 8} (h : irq.toNat < 120) (h' : irq'.toNat < 120)
    (hne : irq ≠ irq') : Disjoint (pinRegs irq) (pinRegs irq') := by
  have hnat : irq.toNat ≠ irq'.toNat := fun heq => hne (BitVec.eq_of_toNat_eq heq)
  rw [Set.disjoint_left]
  rintro i (hi | hi) (hi' | hi') <;>
    have heq := congrArg BitVec.toNat (hi.symm.trans hi') <;>
    simp only [toNat_regBase, toNat_regBase_add_one, h, h'] at heq <;>
    omega

/-! ### Which registers the methods use -/

variable {F : Set (BitVec 8)}

theorem uses_readReg {index : BitVec 8} (h : index ∈ F) : (readReg index).Uses F :=
  .read h fun v => .ret v

theorem uses_writeReg {index : BitVec 8} (h : index ∈ F) (value : BitVec 32) :
    (writeReg index value).Uses F :=
  .write h (.ret ())

variable (apic : IoApic)

theorem uses_readRedirection (irq : BitVec 8) : (apic.readRedirection irq).Uses (pinRegs irq) := by
  unfold readRedirection
  split
  · refine (uses_readReg regBase_mem_pinRegs).bind fun low => ?_
    exact (uses_readReg regBase_add_one_mem_pinRegs).bind fun high => .ret _
  · exact .panic

theorem uses_writeRedirection (irq : BitVec 8) (entry : RedirectionEntry) :
    (apic.writeRedirection irq entry).Uses (pinRegs irq) := by
  unfold writeRedirection
  split
  · exact (uses_writeReg regBase_mem_pinRegs _).bind fun _ =>
      uses_writeReg regBase_add_one_mem_pinRegs _
  · exact .panic

theorem uses_updateMask (mask : Bool) (irq : BitVec 8) :
    (apic.updateMask mask irq).Uses (pinRegs irq) :=
  (apic.uses_readRedirection irq).bind fun _ => apic.uses_writeRedirection irq _

end IoApic

end SmpNostd
