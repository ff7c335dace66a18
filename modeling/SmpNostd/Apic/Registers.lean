import SmpNostd.Lib.NestedCalls
import SmpNostd.Apic.Timer

/-!
The registers of the local APIC and the two ways to them (`LocalApic` in `apic.rs`).

In xAPIC mode the registers are words of a page of physical memory; in x2APIC mode
they are MSRs, and the page is memory like any other. Which of the two a core is in
is up to its IA32_APIC_BASE. Each instance of `LocalApic` has a flag of its own for
it, which `enable_x2apic` sets for the instance it is called on.

The functions of the driver are programs over the accesses that `read_reg` and
`write_reg` stand for, and are run by two machines. On the first one an access is a
load or a store at an address, or `rdmsr` or `wrmsr`, and the core finds out what it
is for. On the second one an instance whose flag is right names a register, and the
device behind it is all there is.

Sending IPIs is not among the functions here, and neither is `write_apic_base_msr`,
whose argument may be anything.
-/

namespace SmpNostd.ApicAccess

open Machine NestedCalls
open LocalApic (regLvtTimer regTimerInitial regTimerCurrent regTimerDivide lvtMasked timerDiv16
  x2apicMsrBase)

/-! ### Registers -/

/-- MSR address for the APIC base register. -/
def ia32ApicBaseMsr : BitVec 32 := 0x1B

/-- Bit 8: BSP flag. -/
def apicBaseBsp : BitVec 64 := 1 <<< 8

/-- Bit 10: x2APIC enable. -/
def apicBaseX2apicEnable : BitVec 64 := 1 <<< 10

/-- Bit 11: APIC global enable. -/
def apicBaseEnable : BitVec 64 := 1 <<< 11

/-- Physical base address of APIC registers. -/
def apicBaseAddrMask : BitVec 64 := 0x000FFFFFFFFFF000

def regId : BitVec 32 := 0x020
def regVersion : BitVec 32 := 0x030
def regTpr : BitVec 32 := 0x080
def regApr : BitVec 32 := 0x090
def regPpr : BitVec 32 := 0x0A0
def regEoi : BitVec 32 := 0x0B0
def regRrd : BitVec 32 := 0x0C0
def regLdr : BitVec 32 := 0x0D0
def regDfr : BitVec 32 := 0x0E0
def regSvr : BitVec 32 := 0x0F0
def regIsrBase : BitVec 32 := 0x100
def regTmrBase : BitVec 32 := 0x180
def regIrrBase : BitVec 32 := 0x200
def regErrorStatus : BitVec 32 := 0x280
def regLvtCmci : BitVec 32 := 0x2F0
def regLvtThermal : BitVec 32 := 0x330
def regLvtPerf : BitVec 32 := 0x340
def regLvtLint0 : BitVec 32 := 0x350
def regLvtLint1 : BitVec 32 := 0x360
def regLvtError : BitVec 32 := 0x370

/-! ### The driver -/

/-- What a function of the driver does to its instance and to the core. -/
inductive Access
  | readReg (offset : BitVec 32)
  | writeReg (offset value : BitVec 32)
  /-- `rdmsr` of the base register. -/
  | readBase
  | writeBase (value : BitVec 64)
  /-- A read of `self.x2apic`. -/
  | x2apic
  | setX2apic
  deriving DecidableEq, Repr

def Reply : Access → Type
  | .readReg _ => BitVec 32
  | .readBase => BitVec 64
  | .x2apic => Bool
  | .writeReg .. | .writeBase _ | .setX2apic => Unit

abbrev Driver := Prog Reply

def readReg (offset : BitVec 32) : Driver (BitVec 32) := .access (.readReg offset) .ret

def writeReg (offset value : BitVec 32) : Driver Unit := .access (.writeReg offset value) .ret

/-- Read the IA32_APIC_BASE MSR. -/
def readApicBaseMsr : Driver (BitVec 64) := .access .readBase .ret

def writeBase (value : BitVec 64) : Driver Unit := .access (.writeBase value) .ret

/-- `self.x2apic`. -/
def x2apic : Driver Bool := .access .x2apic .ret

/-- `self.x2apic = true`. -/
def setX2apic : Driver Unit := .access .setX2apic .ret

def physicalBase : Driver (BitVec 64) := do
  let val ← readApicBaseMsr
  return val &&& apicBaseAddrMask

/-- Check if this processor is the BSP. -/
def isBsp : Driver Bool := do
  let val ← readApicBaseMsr
  return val &&& apicBaseBsp != 0

/-- Enable x2APIC mode. -/
def enableX2apic : Driver Unit := do
  let base ← readApicBaseMsr
  writeBase (base ||| (apicBaseEnable ||| apicBaseX2apicEnable))
  setX2apic

/-- Enable the local APIC, with spurious vector 0xFF. -/
def enable : Driver Unit := do
  let svr ← readReg regSvr
  let newSvr := (svr &&& ~~~(0xFF : BitVec 32)) ||| 0xFF ||| (1 <<< 8)
  writeReg regSvr newSvr

/-- Disable the local APIC by clearing bit 8 of SVR. -/
def disable : Driver Unit := do
  let svr ← readReg regSvr
  writeReg regSvr (svr &&& ~~~(1 <<< 8 : BitVec 32))

/-- Read the local APIC ID. -/
def id : Driver (BitVec 32) := do
  let raw ← readReg regId
  return if ← x2apic then raw else raw >>> 24

def version : Driver (BitVec 32) := readReg regVersion
def eoi : Driver Unit := writeReg regEoi 0
def readTpr : Driver (BitVec 32) := readReg regTpr
def writeTpr (value : BitVec 32) : Driver Unit := writeReg regTpr value
def readApr : Driver (BitVec 32) := readReg regApr
def readPpr : Driver (BitVec 32) := readReg regPpr
def readRrd : Driver (BitVec 32) := readReg regRrd
def readLdr : Driver (BitVec 32) := readReg regLdr
def writeLdr (value : BitVec 32) : Driver Unit := writeReg regLdr value
def readDfr : Driver (BitVec 32) := readReg regDfr
def writeDfr (value : BitVec 32) : Driver Unit := writeReg regDfr value
def readSvr : Driver (BitVec 32) := readReg regSvr

/-- A word of one of the registers that have eight of them. -/
def readWord (base : BitVec 32) (index : BitVec 8) : Driver (BitVec 32) :=
  if index < 8 then readReg (base + index.setWidth 32 * 0x10) else .panic

def readIsr (index : BitVec 8) : Driver (BitVec 32) := readWord regIsrBase index
def readTmr (index : BitVec 8) : Driver (BitVec 32) := readWord regTmrBase index
def readIrr (index : BitVec 8) : Driver (BitVec 32) := readWord regIrrBase index

/-- Read the Error Status Register; the write latches the errors. -/
def readErrorStatus : Driver (BitVec 32) := do
  writeReg regErrorStatus 0
  readReg regErrorStatus

def readLvtCmci : Driver (BitVec 32) := readReg regLvtCmci
def writeLvtCmci (value : BitVec 32) : Driver Unit := writeReg regLvtCmci value
def readLvtTimer : Driver (BitVec 32) := readReg regLvtTimer
def writeLvtTimer (value : BitVec 32) : Driver Unit := writeReg regLvtTimer value
def readLvtThermal : Driver (BitVec 32) := readReg regLvtThermal
def writeLvtThermal (value : BitVec 32) : Driver Unit := writeReg regLvtThermal value
def readLvtPerf : Driver (BitVec 32) := readReg regLvtPerf
def writeLvtPerf (value : BitVec 32) : Driver Unit := writeReg regLvtPerf value
def readLvtLint0 : Driver (BitVec 32) := readReg regLvtLint0
def writeLvtLint0 (value : BitVec 32) : Driver Unit := writeReg regLvtLint0 value
def readLvtLint1 : Driver (BitVec 32) := readReg regLvtLint1
def writeLvtLint1 (value : BitVec 32) : Driver Unit := writeReg regLvtLint1 value
def readLvtError : Driver (BitVec 32) := readReg regLvtError
def writeLvtError (value : BitVec 32) : Driver Unit := writeReg regLvtError value

def setupTimer (vector : BitVec 8) (mode divide initialCount : BitVec 32) : Driver Unit := do
  writeReg regTimerDivide divide
  writeReg regLvtTimer (mode ||| vector.setWidth 32)
  writeReg regTimerInitial initialCount

def stopTimer : Driver Unit := do
  writeReg regLvtTimer lvtMasked
  writeReg regTimerInitial 0

def timerCurrentCount : Driver (BitVec 32) := readReg regTimerCurrent

/-- Calibrate the APIC timer frequency. The delay is what happens before the fourth
access. -/
def calibrateTimer (delayMs : BitVec 32) : Driver (BitVec 32) := do
  writeReg regTimerDivide timerDiv16
  writeReg regLvtTimer lvtMasked
  writeReg regTimerInitial 0xFFFFFFFF
  let remaining ← timerCurrentCount
  writeReg regTimerInitial 0
  let elapsed := 0xFFFFFFFF - remaining
  if delayMs = 0 then .panic else return elapsed / delayMs

/-- Configure the BSP's local APIC (`SmpController::init_bsp_apic`). -/
def initBspApic : Driver Unit := do
  enable
  writeTpr 0
  writeDfr 0xFFFFFFFF
  let ldr ← readLdr
  writeLdr ((ldr &&& 0x00FFFFFF) ||| (1 <<< 24))
  writeLvtLint0 lvtMasked
  writeLvtLint1 lvtMasked
  writeLvtError lvtMasked
  writeLvtTimer lvtMasked
  writeLvtPerf lvtMasked
  writeLvtThermal lvtMasked
  let _ ← version

/-- What `ap_entry` does to the local APIC of its AP. -/
def initApApic : Driver (BitVec 32) := do
  let apicId ← id
  enable
  writeTpr 0
  return apicId

/-- A call of a function of the driver. -/
inductive Call
  | readApicBaseMsr | physicalBase | isBsp | enableX2apic | enable | disable | id | version | eoi
  | readTpr | writeTpr (value : BitVec 32) | readApr | readPpr | readRrd
  | readLdr | writeLdr (value : BitVec 32) | readDfr | writeDfr (value : BitVec 32) | readSvr
  | readIsr (index : BitVec 8) | readTmr (index : BitVec 8) | readIrr (index : BitVec 8)
  | readErrorStatus
  | readLvtCmci | writeLvtCmci (value : BitVec 32)
  | readLvtTimer | writeLvtTimer (value : BitVec 32)
  | readLvtThermal | writeLvtThermal (value : BitVec 32)
  | readLvtPerf | writeLvtPerf (value : BitVec 32)
  | readLvtLint0 | writeLvtLint0 (value : BitVec 32)
  | readLvtLint1 | writeLvtLint1 (value : BitVec 32)
  | readLvtError | writeLvtError (value : BitVec 32)
  | setupTimer (vector : BitVec 8) (mode divide initialCount : BitVec 32)
  | stopTimer | timerCurrentCount | calibrateTimer (delayMs : BitVec 32)
  | initBspApic | initApApic
  deriving DecidableEq, Repr

/-- What a call returns. -/
inductive Answer
  | unit (value : Unit)
  | u32 (value : BitVec 32)
  | u64 (value : BitVec 64)
  | bool (value : Bool)
  deriving DecidableEq, Repr

def Call.prog : Call → Driver Answer
  | .readApicBaseMsr => .u64 <$> ApicAccess.readApicBaseMsr
  | .physicalBase => .u64 <$> ApicAccess.physicalBase
  | .isBsp => .bool <$> ApicAccess.isBsp
  | .enableX2apic => .unit <$> ApicAccess.enableX2apic
  | .enable => .unit <$> ApicAccess.enable
  | .disable => .unit <$> ApicAccess.disable
  | .id => .u32 <$> ApicAccess.id
  | .version => .u32 <$> ApicAccess.version
  | .eoi => .unit <$> ApicAccess.eoi
  | .readTpr => .u32 <$> ApicAccess.readTpr
  | .writeTpr value => .unit <$> ApicAccess.writeTpr value
  | .readApr => .u32 <$> ApicAccess.readApr
  | .readPpr => .u32 <$> ApicAccess.readPpr
  | .readRrd => .u32 <$> ApicAccess.readRrd
  | .readLdr => .u32 <$> ApicAccess.readLdr
  | .writeLdr value => .unit <$> ApicAccess.writeLdr value
  | .readDfr => .u32 <$> ApicAccess.readDfr
  | .writeDfr value => .unit <$> ApicAccess.writeDfr value
  | .readSvr => .u32 <$> ApicAccess.readSvr
  | .readIsr index => .u32 <$> ApicAccess.readIsr index
  | .readTmr index => .u32 <$> ApicAccess.readTmr index
  | .readIrr index => .u32 <$> ApicAccess.readIrr index
  | .readErrorStatus => .u32 <$> ApicAccess.readErrorStatus
  | .readLvtCmci => .u32 <$> ApicAccess.readLvtCmci
  | .writeLvtCmci value => .unit <$> ApicAccess.writeLvtCmci value
  | .readLvtTimer => .u32 <$> ApicAccess.readLvtTimer
  | .writeLvtTimer value => .unit <$> ApicAccess.writeLvtTimer value
  | .readLvtThermal => .u32 <$> ApicAccess.readLvtThermal
  | .writeLvtThermal value => .unit <$> ApicAccess.writeLvtThermal value
  | .readLvtPerf => .u32 <$> ApicAccess.readLvtPerf
  | .writeLvtPerf value => .unit <$> ApicAccess.writeLvtPerf value
  | .readLvtLint0 => .u32 <$> ApicAccess.readLvtLint0
  | .writeLvtLint0 value => .unit <$> ApicAccess.writeLvtLint0 value
  | .readLvtLint1 => .u32 <$> ApicAccess.readLvtLint1
  | .writeLvtLint1 value => .unit <$> ApicAccess.writeLvtLint1 value
  | .readLvtError => .u32 <$> ApicAccess.readLvtError
  | .writeLvtError value => .unit <$> ApicAccess.writeLvtError value
  | .setupTimer vector mode divide initialCount =>
      .unit <$> ApicAccess.setupTimer vector mode divide initialCount
  | .stopTimer => .unit <$> ApicAccess.stopTimer
  | .timerCurrentCount => .u32 <$> ApicAccess.timerCurrentCount
  | .calibrateTimer delayMs => .u32 <$> ApicAccess.calibrateTimer delayMs
  | .initBspApic => .unit <$> ApicAccess.initBspApic
  | .initApApic => .u32 <$> ApicAccess.initApApic

/-! ### The core -/

/-- A local APIC behind its registers. The ID register is the one that shows another
value in another mode. -/
structure Device (D ε : Type) where
  apicId : D → BitVec 32
  read : D → BitVec 32 → BitVec 32
  write : D → BitVec 32 → BitVec 32 → D
  /-- Whether x2APIC mode has an MSR for the register that can be read. -/
  readable : BitVec 32 → Bool
  /-- Whether x2APIC mode has an MSR for the register that takes the value. -/
  writable : BitVec 32 → BitVec 32 → Bool
  /-- What a write to the base register over an old value does. -/
  baseWritten : D → BitVec 64 → BitVec 64 → D
  /-- What happens to it otherwise. -/
  event : D → ε → D

variable {D ε ι : Type} (dev : Device D ε)

/-- What a register shows in a mode. -/
def Device.shows (x2apic : Bool) (d : D) (offset : BitVec 32) : BitVec 32 :=
  if offset = regId then if x2apic then dev.apicId d else dev.apicId d <<< 24
  else dev.read d offset

/-- An instance of the driver. -/
structure LocalApic where
  baseAddr : BitVec 64
  x2apic : Bool
  deriving DecidableEq, Repr

/-- The core, and the instances of the driver that there are on it. -/
structure Core (ι D : Type) where
  apicBase : BitVec 64
  device : D
  memory : BitVec 64 → BitVec 32
  apics : ι → LocalApic

namespace Core

variable {dev} (c : Core ι D)

def enabled : Bool := c.apicBase.getLsbD 11

def x2apicMode : Bool := c.apicBase.getLsbD 10

/-- The page at an address is that of the registers. -/
def decodes (addr : BitVec 64) : Bool :=
  c.enabled && !c.x2apicMode && addr &&& ~~~0xFFF == c.apicBase &&& apicBaseAddrMask

def page : BitVec 64 := c.apicBase &&& apicBaseAddrMask

/-- A load from memory. -/
def load (dev : Device D ε) (addr : BitVec 64) : BitVec 32 :=
  if c.decodes addr then dev.shows false c.device ((addr - c.page).setWidth 32) else c.memory addr

/-- A store to memory. -/
def store (dev : Device D ε) (addr : BitVec 64) (value : BitVec 32) : Core ι D :=
  if c.decodes addr then
    { c with device := dev.write c.device ((addr - c.page).setWidth 32) value }
  else { c with memory := Function.update c.memory addr value }

/-- The MSRs from 0x800 to 0x8FF are those of the x2APIC. -/
def hasMsr (msr : BitVec 32) : Bool :=
  c.enabled && c.x2apicMode && msr &&& ~~~0xFF == x2apicMsrBase

/-- `none` is a general protection fault. -/
def rdmsr (dev : Device D ε) (msr : BitVec 32) : Option (BitVec 64) :=
  if msr = ia32ApicBaseMsr then some c.apicBase
  else
    let offset := (msr - x2apicMsrBase) <<< 4
    if c.hasMsr msr && dev.readable offset then
      some ((dev.shows true c.device offset).setWidth 64)
    else none

/-- A write to the base register. A core goes from xAPIC mode to x2APIC mode, but not
back and not from neither. -/
def wrBase (dev : Device D ε) (value : BitVec 64) : Option (Core ι D) :=
  match c.enabled, c.x2apicMode, value.getLsbD 11, value.getLsbD 10 with
  | _, _, false, true | false, _, true, true | true, true, true, false => none
  | _, _, _, _ =>
      some { c with apicBase := value, device := dev.baseWritten c.device c.apicBase value }

def wrmsr (dev : Device D ε) (msr : BitVec 32) (value : BitVec 64) : Option (Core ι D) :=
  if msr = ia32ApicBaseMsr then c.wrBase dev value
  else
    let offset := (msr - x2apicMsrBase) <<< 4
    if c.hasMsr msr && dev.writable offset (value.setWidth 32) then
      some { c with device := dev.write c.device offset (value.setWidth 32) }
    else none

/-- `read_reg` of an instance. -/
def readReg (dev : Device D ε) (apic : LocalApic) (offset : BitVec 32) : Option (BitVec 32) :=
  if apic.x2apic then (c.rdmsr dev (x2apicMsrBase + (offset >>> 4))).map (·.setWidth 32)
  else some (c.load dev (apic.baseAddr + offset.setWidth 64))

/-- `write_reg` of an instance. -/
def writeReg (dev : Device D ε) (apic : LocalApic) (offset value : BitVec 32) :
    Option (Core ι D) :=
  if apic.x2apic then c.wrmsr dev (x2apicMsrBase + (offset >>> 4)) (value.setWidth 64)
  else some (c.store dev (apic.baseAddr + offset.setWidth 64) value)

end Core

/-- The accesses as the core performs them. -/
def bus [DecidableEq ι] : Interface ι Reply ε (Core ι D) where
  perform c i
    | .readReg offset => (c.readReg dev (c.apics i) offset).map (·, c)
    | .writeReg offset value => (c.writeReg dev (c.apics i) offset value).map ((), ·)
    | .readBase => (c.rdmsr dev ia32ApicBaseMsr).map (·, c)
    | .writeBase value => (c.wrmsr dev ia32ApicBaseMsr value).map ((), ·)
    | .x2apic => some ((c.apics i).x2apic, c)
    | .setX2apic =>
        some ((), { c with apics := Function.update c.apics i { c.apics i with x2apic := true } })
  event c e := { c with device := dev.event c.device e }

/-! ### The registers -/

/-- The device, whether the core is in x2APIC mode, and which instances take it to be
in that mode. -/
structure Registers (ι D : Type) where
  x2apicMode : Bool
  device : D
  memory : BitVec 64 → BitVec 32
  x2apic : ι → Bool

/-- What the firmware has left in the base register: the APIC is enabled in xAPIC
mode, with its registers at `base`. -/
structure Firmware (base firmware : BitVec 64) : Prop where
  enabled : firmware.getLsbD 11 = true
  xapic : firmware.getLsbD 10 = false
  page : firmware &&& apicBaseAddrMask = base

/-- The base register in a mode. -/
def baseIn (firmware : BitVec 64) (x2apicMode : Bool) : BitVec 64 :=
  if x2apicMode then firmware ||| (apicBaseEnable ||| apicBaseX2apicEnable) else firmware

namespace Registers

/-- `read_reg` of an instance. If its flag is right it names a register of the device,
which is not there only if x2APIC mode does not have it; if the flag is not set in
x2APIC mode it gets to memory. -/
def readReg (dev : Device D ε) (base : BitVec 64) (s : Registers ι D) (i : ι)
    (offset : BitVec 32) : Option (BitVec 32) :=
  match s.x2apicMode, s.x2apic i with
  | false, false => some (dev.shows false s.device offset)
  | true, true => if dev.readable offset then some (dev.shows true s.device offset) else none
  | true, false => some (s.memory (base + offset.setWidth 64))
  | false, true => none

/-- `write_reg` of an instance. -/
def writeReg (dev : Device D ε) (base : BitVec 64) (s : Registers ι D) (i : ι)
    (offset value : BitVec 32) : Option (Registers ι D) :=
  match s.x2apicMode, s.x2apic i with
  | false, false => some { s with device := dev.write s.device offset value }
  | true, true =>
      if dev.writable offset value then some { s with device := dev.write s.device offset value }
      else none
  | true, false =>
      some { s with memory := Function.update s.memory (base + offset.setWidth 64) value }
  | false, true => none

end Registers

/-- The accesses as accesses to the registers. -/
def registers [DecidableEq ι] (base firmware : BitVec 64) :
    Interface ι Reply ε (Registers ι D) where
  perform s i
    | .readReg offset => (s.readReg dev base i offset).map (·, s)
    | .writeReg offset value => (s.writeReg dev base i offset value).map ((), ·)
    | .readBase => some (baseIn firmware s.x2apicMode, s)
    | .writeBase value =>
        some ((), { s with
          x2apicMode := true
          device := dev.baseWritten s.device (baseIn firmware s.x2apicMode) value })
    | .x2apic => some (s.x2apic i, s)
    | .setX2apic => some ((), { s with x2apic := Function.update s.x2apic i true })
  event s e := { s with device := dev.event s.device e }

/-- What there is of the core apart from addresses. -/
def Core.registers (c : Core ι D) : Registers ι D where
  x2apicMode := c.x2apicMode
  device := c.device
  memory := c.memory
  x2apic i := (c.apics i).x2apic

/-! ### Addresses and MSR numbers -/

/-- The offsets of registers: a page of words, 16 bytes apart. -/
def IsRegister (offset : BitVec 32) : Prop := offset.toNat % 16 = 0 ∧ offset.toNat < 0x1000

instance (offset : BitVec 32) : Decidable (IsRegister offset) := inferInstanceAs (Decidable (_ ∧ _))

section Decoding

variable {base firmware : BitVec 64} {x2apicMode : Bool} {offset : BitVec 32} {c : Core ι D}

theorem Firmware.enabled_in (h : Firmware base firmware) :
    (baseIn firmware x2apicMode).getLsbD 11 = true := by
  cases x2apicMode <;> simp [baseIn, h.enabled]

theorem Firmware.x2apicMode_in (h : Firmware base firmware) :
    (baseIn firmware x2apicMode).getLsbD 10 = x2apicMode := by
  cases x2apicMode with
  | false => exact h.xapic
  | true => simp [baseIn, apicBaseEnable, apicBaseX2apicEnable]

theorem Firmware.page_in (h : Firmware base firmware) :
    baseIn firmware x2apicMode &&& apicBaseAddrMask = base := by
  have hbits : (apicBaseEnable ||| apicBaseX2apicEnable) &&& apicBaseAddrMask = 0 := by decide
  cases x2apicMode with
  | false => exact h.page
  | true =>
      rw [baseIn, if_pos rfl, BitVec.and_or_distrib_right, hbits, h.page]
      exact BitVec.or_zero

/-- The page is aligned, and does not reach the end of the address space. -/
theorem Firmware.page_toNat (h : Firmware base firmware) :
    base.toNat % 0x1000 = 0 ∧ base.toNat < 2 ^ 52 := by
  have hmask : apicBaseAddrMask &&& ~~~BitVec.ofNat 64 (2 ^ 12 - 1) = apicBaseAddrMask := by decide
  have haligned : base &&& ~~~BitVec.ofNat 64 (2 ^ 12 - 1) = base := by
    rw [← h.page, BitVec.and_assoc, hmask]
  have hdown := Bits.toNat_alignDown base 12
  rw [haligned] at hdown
  have hle : base.toNat ≤ 0x000FFFFFFFFFF000 := by
    rw [← h.page, BitVec.toNat_and]
    exact Nat.and_le_right
  omega

theorem IsRegister.address (hfirmware : Firmware base firmware) (h : IsRegister offset) :
    (base + offset.setWidth 64) &&& ~~~0xFFF = base := by
  have ⟨hbase, hlt⟩ := hfirmware.page_toNat
  have hoffset := h.2
  have hdown := Bits.toNat_alignDown (base + offset.setWidth 64) 12
  apply BitVec.eq_of_toNat_eq
  rw [show (0xFFF : BitVec 64) = BitVec.ofNat 64 (2 ^ 12 - 1) from rfl, hdown, BitVec.toNat_add,
    BitVec.toNat_setWidth]
  omega

theorem address_offset : ((base + offset.setWidth 64) - base).setWidth 32 = offset := by
  have hcancel : base + offset.setWidth 64 - base = offset.setWidth 64 := by
    rw [BitVec.add_comm, BitVec.add_sub_cancel]
  rw [hcancel, BitVec.setWidth_setWidth_of_le _ (by decide), BitVec.setWidth_eq]

theorem IsRegister.msr_toNat (h : IsRegister offset) :
    (x2apicMsrBase + (offset >>> 4)).toNat = 0x800 + offset.toNat / 16 := by
  have hoffset := h.2
  rw [BitVec.toNat_add, BitVec.toNat_ushiftRight, Nat.shiftRight_eq_div_pow]
  change (0x800 + offset.toNat / 16) % 2 ^ 32 = _
  omega

theorem IsRegister.msr_ne (h : IsRegister offset) :
    x2apicMsrBase + (offset >>> 4) ≠ ia32ApicBaseMsr := by
  intro heq
  have hmsr := h.msr_toNat
  rw [heq] at hmsr
  change 0x1B = _ at hmsr
  omega

theorem IsRegister.msr_page (h : IsRegister offset) :
    (x2apicMsrBase + (offset >>> 4)) &&& ~~~0xFF = x2apicMsrBase := by
  have hoffset := h.2
  have hdown := Bits.toNat_alignDown (x2apicMsrBase + (offset >>> 4)) 8
  apply BitVec.eq_of_toNat_eq
  rw [show (0xFF : BitVec 32) = BitVec.ofNat 32 (2 ^ 8 - 1) from rfl, hdown, h.msr_toNat]
  change _ = 0x800
  omega

theorem IsRegister.msr_offset (h : IsRegister offset) :
    (x2apicMsrBase + (offset >>> 4) - x2apicMsrBase) <<< 4 = offset := by
  have ⟨haligned, hlt⟩ := h
  rw [BitVec.add_comm, BitVec.add_sub_cancel]
  apply BitVec.eq_of_toNat_eq
  rw [BitVec.toNat_shiftLeft, BitVec.toNat_ushiftRight, Nat.shiftLeft_eq,
    Nat.shiftRight_eq_div_pow]
  omega

/-- A write gets to the device or to memory. -/
theorem Registers.writeReg_cases {s s' : Registers ι D} {dev : Device D ε} {i : ι}
    {value : BitVec 32} (h : s.writeReg dev base i offset value = some s') :
    (s'.device = dev.write s.device offset value ∨ s'.device = s.device) ∧
      s'.x2apicMode = s.x2apicMode ∧ s'.x2apic = s.x2apic := by
  unfold Registers.writeReg at h
  split at h
  · cases h
    exact ⟨.inl rfl, rfl, rfl⟩
  · obtain ⟨-, heq⟩ := Option.ite_none_right_eq_some.mp h
    cases heq
    exact ⟨.inl rfl, rfl, rfl⟩
  · cases h
    exact ⟨.inr rfl, rfl, rfl⟩
  · cases h

/-- The base register holds what the firmware left there, but for the mode; the
instances of the driver were made for the address of the page. -/
structure Core.Inv (base firmware : BitVec 64) (c : Core ι D) : Prop where
  apicBase : c.apicBase = baseIn firmware c.x2apicMode
  baseAddr : ∀ i, (c.apics i).baseAddr = base

variable {dev : Device D ε} {i : ι}

theorem Core.Inv.enabled (hfirmware : Firmware base firmware) (h : c.Inv base firmware) :
    c.enabled = true := by
  rw [Core.enabled, h.apicBase, hfirmware.enabled_in]

theorem Core.Inv.page (hfirmware : Firmware base firmware) (h : c.Inv base firmware) :
    c.page = base := by
  rw [Core.page, h.apicBase, hfirmware.page_in]

/-- The page is that of the registers in xAPIC mode only. -/
theorem Core.Inv.decodes (hfirmware : Firmware base firmware) (h : c.Inv base firmware)
    (hoffset : IsRegister offset) :
    c.decodes (base + offset.setWidth 64) = !c.x2apicMode := by
  have hpage : c.apicBase &&& apicBaseAddrMask = base := h.page hfirmware
  rw [Core.decodes, h.enabled hfirmware, hoffset.address hfirmware, hpage, beq_self_eq_true,
    Bool.true_and, Bool.and_true]

/-- The MSRs are there in x2APIC mode only. -/
theorem Core.Inv.hasMsr (hfirmware : Firmware base firmware) (h : c.Inv base firmware)
    (hoffset : IsRegister offset) :
    c.hasMsr (x2apicMsrBase + (offset >>> 4)) = c.x2apicMode := by
  rw [Core.hasMsr, h.enabled hfirmware, hoffset.msr_page, beq_self_eq_true, Bool.true_and,
    Bool.and_true]

theorem Core.Inv.readReg (hfirmware : Firmware base firmware) (h : c.Inv base firmware)
    (hoffset : IsRegister offset) :
    c.readReg dev (c.apics i) offset = c.registers.readReg dev base i offset := by
  have hdecodes := h.decodes hfirmware hoffset
  have hhasMsr := h.hasMsr hfirmware hoffset
  simp only [Registers.readReg, Core.registers]
  cases hflag : (c.apics i).x2apic with
  | false =>
      rw [Core.readReg, hflag, h.baseAddr, if_neg (by decide), Core.load, hdecodes,
        h.page hfirmware, address_offset]
      cases c.x2apicMode <;> rfl
  | true =>
      rw [Core.readReg, hflag, if_pos rfl, Core.rdmsr, if_neg hoffset.msr_ne, hhasMsr,
        hoffset.msr_offset]
      cases c.x2apicMode with
      | false => rfl
      | true => cases hreadable : dev.readable offset <;> simp [hreadable]

theorem Core.Inv.writeReg (hfirmware : Firmware base firmware) (h : c.Inv base firmware)
    (hoffset : IsRegister offset) (value : BitVec 32) :
    c.writeReg dev (c.apics i) offset value =
      (c.registers.writeReg dev base i offset value).map fun s =>
        { c with device := s.device, memory := s.memory } := by
  have hdecodes := h.decodes hfirmware hoffset
  have hhasMsr := h.hasMsr hfirmware hoffset
  simp only [Registers.writeReg, Core.registers]
  cases hflag : (c.apics i).x2apic with
  | false =>
      rw [Core.writeReg, hflag, h.baseAddr, if_neg (by decide), Core.store, hdecodes,
        h.page hfirmware, address_offset]
      cases c.x2apicMode <;> rfl
  | true =>
      have hvalue : (value.setWidth 64).setWidth 32 = value := by simp
      rw [Core.writeReg, hflag, if_pos rfl, Core.wrmsr, if_neg hoffset.msr_ne, hhasMsr,
        hoffset.msr_offset, hvalue]
      cases c.x2apicMode with
      | false => rfl
      | true => cases hwritable : dev.writable offset value <;> simp [hwritable]

theorem Core.Inv.writeReg_registers (hfirmware : Firmware base firmware)
    (h : c.Inv base firmware) (hoffset : IsRegister offset) (value : BitVec 32) :
    (c.writeReg dev (c.apics i) offset value).map Core.registers =
      c.registers.writeReg dev base i offset value := by
  rw [h.writeReg hfirmware hoffset]
  cases hwrite : c.registers.writeReg dev base i offset value with
  | none => rfl
  | some s =>
      obtain ⟨-, hmode, hflags⟩ := Registers.writeReg_cases hwrite
      obtain ⟨x2apicMode, device, memory, x2apic⟩ := s
      cases hmode
      cases hflags
      rfl

theorem Core.Inv.rdBase (h : c.Inv base firmware) :
    c.rdmsr dev ia32ApicBaseMsr = some (baseIn firmware c.x2apicMode) :=
  congrArg some h.apicBase

/-- The base register is only written to switch to x2APIC mode, or to stay in it. -/
theorem Core.Inv.wrBase (hfirmware : Firmware base firmware) (h : c.Inv base firmware) :
    c.wrmsr dev ia32ApicBaseMsr (baseIn firmware true) =
      some { c with
        apicBase := baseIn firmware true
        device := dev.baseWritten c.device (baseIn firmware c.x2apicMode)
          (baseIn firmware true) } := by
  rw [Core.wrmsr, if_pos rfl, Core.wrBase, h.enabled hfirmware, hfirmware.enabled_in,
    hfirmware.x2apicMode_in, ← h.apicBase]
  cases c.x2apicMode <;> rfl

end Decoding

/-! ### The accesses that the calls make -/

/-- The registers that `init_bsp_apic` sets up. -/
def bspSet : List (BitVec 32) := [regSvr, regTpr, regDfr, regLdr]

/-- The LVT entries that `init_bsp_apic` masks, in its order. -/
def bspMasked : List (BitVec 32) :=
  [regLvtLint0, regLvtLint1, regLvtError, regLvtTimer, regLvtPerf, regLvtThermal]

/-- A call writes no other registers, and no other values to those of the local vector
table. -/
def Call.Writes : Call → BitVec 32 → BitVec 32 → Prop
  | .enable, offset, _ | .disable, offset, _ => offset = regSvr
  | .eoi, offset, _ => offset = regEoi
  | .writeTpr _, offset, _ => offset = regTpr
  | .writeLdr _, offset, _ => offset = regLdr
  | .writeDfr _, offset, _ => offset = regDfr
  | .readErrorStatus, offset, _ => offset = regErrorStatus
  | .writeLvtCmci v, offset, value => offset = regLvtCmci ∧ value = v
  | .writeLvtTimer v, offset, value => offset = regLvtTimer ∧ value = v
  | .writeLvtThermal v, offset, value => offset = regLvtThermal ∧ value = v
  | .writeLvtPerf v, offset, value => offset = regLvtPerf ∧ value = v
  | .writeLvtLint0 v, offset, value => offset = regLvtLint0 ∧ value = v
  | .writeLvtLint1 v, offset, value => offset = regLvtLint1 ∧ value = v
  | .writeLvtError v, offset, value => offset = regLvtError ∧ value = v
  | .setupTimer vector mode _ _, offset, value =>
      offset = regTimerDivide ∨ offset = regTimerInitial ∨
        offset = regLvtTimer ∧ value = mode ||| vector.setWidth 32
  | .stopTimer, offset, value => offset = regTimerInitial ∨ offset = regLvtTimer ∧ value = lvtMasked
  | .calibrateTimer _, offset, value =>
      offset = regTimerDivide ∨ offset = regTimerInitial ∨ offset = regLvtTimer ∧ value = lvtMasked
  | .initBspApic, offset, value =>
      offset ∈ bspSet ∨ offset ∈ bspMasked ∧ value = lvtMasked
  | .initApApic, offset, _ => offset = regSvr ∨ offset = regTpr
  | _, _, _ => False

variable {Q : Access → Prop} {B : (a : Access) → Reply a → Prop}

theorem readWord_all {base : BitVec 32} {index : BitVec 8} {f : BitVec 32 → Answer}
    (hbase : base ∈ [regIsrBase, regTmrBase, regIrrBase])
    (hread : ∀ offset, IsRegister offset → Q (.readReg offset)) :
    (f <$> readWord base index).All Q B := by
  unfold readWord
  split
  case isFalse => trivial
  case isTrue hindex =>
    refine ⟨hread _ ?_, fun _ _ => trivial⟩
    have hlt : index.toNat < 8 := hindex
    have hwidth : (index.setWidth 32 * 0x10).toNat = index.toNat * 16 := by
      rw [BitVec.toNat_mul, BitVec.toNat_setWidth]
      change index.toNat % 2 ^ 32 * 16 % 2 ^ 32 = _
      omega
    have hwords : base.toNat % 16 = 0 ∧ base.toNat ≤ 0x200 := by
      simp only [List.mem_cons, List.not_mem_nil, or_false] at hbase
      obtain rfl | rfl | rfl := hbase <;> decide
    unfold IsRegister
    rw [BitVec.toNat_add, hwidth]
    omega

/-- The accesses of a call: it reads registers, writes those that are its own, and
reads the base register, which only `enable_x2apic` writes. -/
theorem Call.all (c : Call) (hread : ∀ offset, IsRegister offset → Q (.readReg offset))
    (hwrite : ∀ offset value, c.Writes offset value → Q (.writeReg offset value))
    (hbase : Q .readBase) (hx2apic : Q .x2apic)
    (henable : c = .enableX2apic → Q .setX2apic ∧ ∀ value : BitVec 64, B .readBase value →
      Q (.writeBase (value ||| (apicBaseEnable ||| apicBaseX2apicEnable)))) :
    c.prog.All Q B := by
  cases c with
  | readApicBaseMsr | physicalBase | isBsp => exact ⟨hbase, fun _ _ => trivial⟩
  | enableX2apic =>
      have ⟨hset, hwrite⟩ := henable rfl
      exact ⟨hbase, fun value hvalue => ⟨hwrite value hvalue, fun _ _ => ⟨hset, fun _ _ => trivial⟩⟩⟩
  | enable | disable =>
      exact ⟨hread _ (by decide), fun _ _ => ⟨hwrite _ _ rfl, fun _ _ => trivial⟩⟩
  | id => exact ⟨hread _ (by decide), fun _ _ => ⟨hx2apic, fun _ _ => trivial⟩⟩
  | version | readTpr | readApr | readPpr | readRrd | readLdr | readDfr | readSvr | readLvtCmci
  | readLvtTimer | readLvtThermal | readLvtPerf | readLvtLint0 | readLvtLint1 | readLvtError
  | timerCurrentCount => exact ⟨hread _ (by decide), fun _ _ => trivial⟩
  | eoi | writeTpr | writeLdr | writeDfr => exact ⟨hwrite _ _ rfl, fun _ _ => trivial⟩
  | writeLvtCmci | writeLvtTimer | writeLvtThermal | writeLvtPerf | writeLvtLint0 | writeLvtLint1
  | writeLvtError => exact ⟨hwrite _ _ ⟨rfl, rfl⟩, fun _ _ => trivial⟩
  | readIsr | readTmr | readIrr => exact readWord_all (by decide) hread
  | readErrorStatus =>
      exact ⟨hwrite _ _ rfl, fun _ _ => ⟨hread _ (by decide), fun _ _ => trivial⟩⟩
  | setupTimer =>
      exact ⟨hwrite _ _ (.inl rfl), fun _ _ => ⟨hwrite _ _ (.inr (.inr ⟨rfl, rfl⟩)), fun _ _ =>
        ⟨hwrite _ _ (.inr (.inl rfl)), fun _ _ => trivial⟩⟩⟩
  | stopTimer =>
      exact ⟨hwrite _ _ (.inr ⟨rfl, rfl⟩), fun _ _ => ⟨hwrite _ _ (.inl rfl), fun _ _ => trivial⟩⟩
  | calibrateTimer delayMs =>
      refine ⟨hwrite _ _ (.inl rfl), fun _ _ => ⟨hwrite _ _ (.inr (.inr ⟨rfl, rfl⟩)), fun _ _ =>
        ⟨hwrite _ _ (.inr (.inl rfl)), fun _ _ => ⟨hread _ (by decide), fun _ _ =>
          ⟨hwrite _ _ (.inr (.inl rfl)), fun _ _ => ?_⟩⟩⟩⟩⟩
      by_cases hdelay : delayMs = 0
      · simp only [if_pos hdelay]
        trivial
      · simp only [if_neg hdelay]
        trivial
  | initBspApic =>
      have hset : ∀ offset ∈ bspSet, ∀ value, Q (.writeReg offset value) :=
        fun offset hoffset value => hwrite _ _ (.inl hoffset)
      have hmask : ∀ offset ∈ bspMasked, Q (.writeReg offset lvtMasked) :=
        fun offset hoffset => hwrite _ _ (.inr ⟨hoffset, rfl⟩)
      refine ⟨hread _ (by decide), fun _ _ => ⟨hset _ (by decide) _, fun _ _ =>
        ⟨hset _ (by decide) _, fun _ _ => ⟨hset _ (by decide) _, fun _ _ =>
          ⟨hread _ (by decide), fun _ _ => ⟨hset _ (by decide) _, fun _ _ => ?_⟩⟩⟩⟩⟩⟩
      exact ⟨hmask _ (by decide), fun _ _ => ⟨hmask _ (by decide), fun _ _ =>
        ⟨hmask _ (by decide), fun _ _ => ⟨hmask _ (by decide), fun _ _ =>
          ⟨hmask _ (by decide), fun _ _ => ⟨hmask _ (by decide), fun _ _ =>
            ⟨hread _ (by decide), fun _ _ => trivial⟩⟩⟩⟩⟩⟩⟩
  | initApApic =>
      exact ⟨hread _ (by decide), fun _ _ => ⟨hx2apic, fun _ _ => ⟨hread _ (by decide), fun _ _ =>
        ⟨hwrite _ _ (.inl rfl), fun _ _ => ⟨hwrite _ _ (.inr rfl), fun _ _ => trivial⟩⟩⟩⟩⟩

theorem isRegister_of_mem {offset : BitVec 32} (h : offset ∈ bspSet ++ bspMasked) :
    IsRegister offset := by
  have hall : (bspSet ++ bspMasked).all (fun offset => decide (IsRegister offset)) = true := by
    decide
  exact of_decide_eq_true (List.all_eq_true.mp hall offset h)

/-- The registers that a call writes are registers. -/
theorem Call.Writes.isRegister {c : Call} {offset value : BitVec 32} (h : c.Writes offset value) :
    IsRegister offset := by
  cases c with
  | enable | disable | eoi | writeTpr | writeLdr | writeDfr | readErrorStatus =>
      obtain rfl := h
      decide
  | writeLvtCmci | writeLvtTimer | writeLvtThermal | writeLvtPerf | writeLvtLint0 | writeLvtLint1
  | writeLvtError =>
      obtain ⟨rfl, -⟩ := h
      decide
  | setupTimer | calibrateTimer => obtain rfl | rfl | ⟨rfl, -⟩ := h <;> decide
  | stopTimer => obtain rfl | ⟨rfl, -⟩ := h <;> decide
  | initBspApic =>
      obtain hmem | ⟨hmem, -⟩ := h
      · exact isRegister_of_mem (List.mem_append_left _ hmem)
      · exact isRegister_of_mem (List.mem_append_right _ hmem)
  | initApApic => obtain rfl | rfl := h <;> decide
  | _ => exact h.elim

/-! ### The two machines run alike -/

/-- The accesses that the driver makes. -/
def Known (firmware : BitVec 64) : Access → Prop
  | .readReg offset | .writeReg offset _ => IsRegister offset
  | .writeBase value => value = baseIn firmware true
  | .readBase | .x2apic | .setX2apic => True

/-- The answers that it gets. -/
def Answered (firmware : BitVec 64) : (a : Access) → Reply a → Prop
  | .readBase, (value : BitVec 64) => ∃ x2apicMode, value = baseIn firmware x2apicMode
  | .readReg _, _ | .writeReg .., _ | .writeBase _, _ | .x2apic, _ | .setX2apic, _ => True

theorem baseIn_or (firmware : BitVec 64) (x2apicMode : Bool) :
    baseIn firmware x2apicMode ||| (apicBaseEnable ||| apicBaseX2apicEnable) =
      baseIn firmware true := by
  cases x2apicMode with
  | false => rfl
  | true => rw [baseIn, if_pos rfl, BitVec.or_assoc, BitVec.or_self]

theorem Call.all_known (firmware : BitVec 64) (c : Call) :
    c.prog.All (Known firmware) (Answered firmware) := by
  refine c.all (fun _ h => h) (fun _ _ h => h.isRegister) trivial trivial fun _ => ⟨trivial, ?_⟩
  rintro _ ⟨x2apicMode, rfl⟩
  exact baseIn_or firmware x2apicMode

theorem callMeets_known (firmware : BitVec 64) (l : Label ι Call ε) :
    CallMeets Call.prog (Known firmware) (Answered firmware) l :=
  callMeets_of_call fun _ c _ => c.all_known firmware

section Refinement

variable {base firmware : BitVec 64} {dev : Device D ε} {c c' : Core ι D} {i : ι}

theorem Core.Inv.of_eq (h : c.Inv base firmware) (hbase : c'.apicBase = c.apicBase)
    (hapics : ∀ i, (c'.apics i).baseAddr = (c.apics i).baseAddr) : c'.Inv base firmware := by
  obtain ⟨apicBase, baseAddr⟩ := h
  refine ⟨?_, fun i => (hapics i).trans (baseAddr i)⟩
  unfold Core.x2apicMode at apicBase ⊢
  rwa [hbase]

variable [DecidableEq ι]

omit [DecidableEq ι] in
theorem Core.Inv.writeReg_keeps (hfirmware : Firmware base firmware) (h : c.Inv base firmware)
    {offset value : BitVec 32} (hoffset : IsRegister offset)
    (hwrite : c.writeReg dev (c.apics i) offset value = some c') : c'.Inv base firmware := by
  rw [h.writeReg hfirmware hoffset] at hwrite
  obtain ⟨_, -, rfl⟩ := Option.map_eq_some_iff.mp hwrite
  exact h.of_eq rfl fun _ => rfl

theorem bus_readBase (h : c.Inv base firmware) :
    (bus dev).perform c i .readBase = some (baseIn firmware c.x2apicMode, c) := by
  change (c.rdmsr dev ia32ApicBaseMsr).map (·, c) = _
  rw [h.rdBase]
  rfl

theorem bus_keeps (hfirmware : Firmware base firmware) :
    Keeps (bus dev) (Core.Inv (ι := ι) base firmware) (Known firmware) (Answered firmware) where
  perform {c i a r c'} h hknown hperform := by
    cases a with
    | readReg offset =>
        obtain ⟨_, _, heq⟩ := Option.map_eq_some_iff.mp hperform
        cases heq
        exact ⟨h, trivial⟩
    | writeReg offset value =>
        obtain ⟨_, hwrite, heq⟩ := Option.map_eq_some_iff.mp hperform
        cases heq
        exact ⟨h.writeReg_keeps hfirmware hknown hwrite, trivial⟩
    | readBase =>
        rw [bus_readBase h] at hperform
        cases hperform
        exact ⟨h, c.x2apicMode, rfl⟩
    | writeBase value =>
        obtain rfl : value = baseIn firmware true := hknown
        obtain ⟨_, hwrite, heq⟩ := Option.map_eq_some_iff.mp hperform
        cases heq
        obtain rfl := Option.some.inj ((h.wrBase hfirmware).symm.trans hwrite)
        refine ⟨⟨?_, h.baseAddr⟩, trivial⟩
        change baseIn firmware true = baseIn firmware ((baseIn firmware true).getLsbD 10)
        rw [hfirmware.x2apicMode_in]
    | x2apic =>
        cases hperform
        exact ⟨h, trivial⟩
    | setX2apic =>
        cases hperform
        refine ⟨h.of_eq rfl fun j => ?_, trivial⟩
        change (Function.update c.apics i _ j).baseAddr = _
        by_cases hij : j = i
        · subst hij
          rw [Function.update_self]
        · rw [Function.update_of_ne hij]
  event h := h.of_eq rfl fun _ => rfl

variable (dev) in
theorem bus_refines (hfirmware : Firmware base firmware) :
    Refines (bus dev) (registers dev base firmware) (Core.registers (ι := ι))
      (Core.Inv base firmware) (Known firmware) (Answered firmware) where
  keeps := bus_keeps hfirmware
  perform {c} i a h hknown := by
    cases a with
    | readReg offset =>
        change (c.registers.readReg dev base i offset).map (·, c.registers) =
          ((c.readReg dev (c.apics i) offset).map (·, c)).map _
        rw [h.readReg hfirmware hknown]
        cases c.registers.readReg dev base i offset <;> rfl
    | writeReg offset value =>
        change (c.registers.writeReg dev base i offset value).map ((), ·) =
          ((c.writeReg dev (c.apics i) offset value).map ((), ·)).map _
        rw [← h.writeReg_registers hfirmware hknown]
        cases c.writeReg dev (c.apics i) offset value <;> rfl
    | readBase =>
        rw [bus_readBase h]
        rfl
    | writeBase value =>
        obtain rfl : value = baseIn firmware true := hknown
        change _ = ((c.wrmsr dev ia32ApicBaseMsr (baseIn firmware true)).map ((), ·)).map _
        rw [h.wrBase hfirmware]
        refine congrArg (fun m => some ((), Registers.mk m _ _ _)) ?_
        exact hfirmware.x2apicMode_in.symm
    | x2apic => rfl
    | setX2apic =>
        refine congrArg (fun x => some ((), Registers.mk _ _ _ x)) ?_
        funext j
        change Function.update (fun k => (c.apics k).x2apic) i true j =
          (Function.update c.apics i { c.apics i with x2apic := true } j).x2apic
        by_cases hij : j = i
        · subst hij
          rw [Function.update_self, Function.update_self]
        · rw [Function.update_of_ne hij, Function.update_of_ne hij]
  event _ _ := rfl

/-- The core as the firmware has left it. Every instance of the driver is as
`LocalApic::new` makes it at any time. -/
def Core.start (base firmware : BitVec 64) (device : D) (memory : BitVec 64 → BitVec 32) :
    Core ι D where
  apicBase := firmware
  device := device
  memory := memory
  apics _ := ⟨base, false⟩

omit [DecidableEq ι] in
theorem Core.start_inv (hfirmware : Firmware base firmware) (device : D)
    (memory : BitVec 64 → BitVec 32) :
    (Core.start base firmware device memory : Core ι D).Inv base firmware := by
  refine ⟨?_, fun _ => rfl⟩
  change firmware = baseIn firmware (firmware.getLsbD 10)
  rw [hfirmware.xapic]
  rfl

variable (dev) in
/-- **Both access modes drive the registers.** For every local APIC, whatever it does
by itself, and any number of instances of the driver: every run of calls, nested in
each other in any way and with `enable_x2apic` anywhere among them, is on the core
what it is on the registers, with the same answers, faults and effects on the device
and on memory. -/
theorem runs_on_registers (hfirmware : Firmware base firmware) (device : D)
    (memory : BitVec 64 → BitVec 32) (labels : List (Label ι Call ε)) :
    (run (step (bus dev) Call.prog) (init (Core.start base firmware device memory)) labels).map
        (State.map Core.registers) =
      run (step (registers dev base firmware) Call.prog)
        (init ⟨false, device, memory, fun _ => false⟩) labels := by
  have hinv : Inv (Core.Inv base firmware) (Known firmware) (Answered firmware)
      (init (Core.start base firmware device memory) : State ι Reply Answer (Core ι D)) :=
    inv_of_idle (Core.start_inv hfirmware device memory) rfl
  have hrefines := (bus_refines dev hfirmware).run
    (fun l (_ : l ∈ labels) => callMeets_known firmware l) hinv
  have hstart : (Core.start base firmware device memory : Core ι D).registers =
      ⟨false, device, memory, fun _ => false⟩ :=
    congrArg (Registers.mk · device memory fun _ => false) hfirmware.xapic
  rw [hrefines, ← hstart]
  rfl

/-- A local APIC with a task priority register and nothing else. -/
def tprDevice : Device (BitVec 32) Unit where
  apicId _ := 0x123
  read tpr offset := if offset = regTpr then tpr else 0
  write tpr offset value := if offset = regTpr then value else tpr
  readable offset := offset == regId || offset == regTpr
  writable offset _ := offset == regTpr
  baseWritten tpr _ _ := tpr
  event tpr _ := tpr

/-- One of two instances switches to x2APIC mode in the middle of a call of the other.
What the other one writes from then on gets to memory, and is what it reads back. The
first one reads the whole ID, and takes a fault for a register that x2APIC mode does
not have. -/
theorem runs_on_registers_switch :
    let labels : List (Label Bool Call Unit) :=
      [.call false .id, .access, .access, .access,
        .call true (.writeTpr 0x20), .call false .enableX2apic, .access, .access, .access, .access,
        .access, .access, .call false .id, .access, .access, .access,
        .call true .readTpr, .access, .access, .call false .readTpr, .access, .access,
        .call false (.writeDfr 0), .access]
    ∃ s, run (step (bus tprDevice) Call.prog)
        (init (Core.start 0xFEE00000 0xFEE00900 0 fun _ => 0)) labels = some s ∧
      s.answers = [(false, .u32 0x23), (false, .unit ()), (true, .unit ()), (false, .u32 0x123),
        (true, .u32 0x20), (false, .u32 0)] ∧ s.trap = some .fault := by
  intro labels
  have hfirmware : Firmware 0xFEE00000 0xFEE00900 := ⟨by decide, by decide, by decide⟩
  have hrun := runs_on_registers tprDevice hfirmware 0 (fun _ => 0) labels
  obtain ⟨s, hs, heq⟩ := Option.map_eq_some_iff.mp (hrun.trans rfl)
  exact ⟨s, hs, congrArg State.answers heq, congrArg State.trap heq⟩

end Refinement

end SmpNostd.ApicAccess
