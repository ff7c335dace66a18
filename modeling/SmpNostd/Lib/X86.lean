import SmpNostd.Lib.Bits
import SmpNostd.Lib.Memory

/-!
The part of an x86 processor that is at work when it is brought from real mode
into 64-bit mode.

Instructions are decoded from the bytes at the instruction pointer, in one of
three sizes of code, which goes with the code segment. `none` means that the
instruction is not one of those below, or that it faults. All code runs at
privilege level 0. Paging, once enabled, maps the addresses in use to
themselves, so all addresses are those of the memory. The accessed bit that the
processor sets in a descriptor is left out, and so are the limits of data
segments and all flags but the interrupt flag.
-/

namespace SmpNostd.X86

open Memory

/-! ### Instructions -/

/-- The size of code. -/
inductive Size
  | bits16
  | bits32
  | bits64
  deriving DecidableEq, Repr

/-- A general register, by its number in an encoding. -/
abbrev Reg := BitVec 3

def rax : Reg := 0

def rcx : Reg := 1

def rdx : Reg := 2

def rsp : Reg := 4

def rdi : Reg := 7

/-- The segment registers other than CS. -/
inductive DataSeg
  | es
  | ss
  | ds
  | fs
  | gs
  deriving DecidableEq, Repr

inductive CtrlReg
  | cr0
  | cr3
  | cr4
  deriving DecidableEq, Repr

inductive Instr
  | nop
  | cli
  /-- Exclusive or, of 16 bits. -/
  | xor16 (dst src : Reg)
  | movSeg (dst : DataSeg) (src : Reg)
  /-- With 16-bit operands, from an address in the data segment. -/
  | lgdt (addr : BitVec 16)
  | movFromCr (dst : Reg) (src : CtrlReg)
  | movToCr (dst : CtrlReg) (src : Reg)
  | orAl (imm : Byte)
  | or32 (dst : Reg) (imm : BitVec 32)
  | movImm16 (dst : Reg) (imm : BitVec 16)
  | movImm32 (dst : Reg) (imm : BitVec 32)
  /-- Load EAX from an address in the data segment. -/
  | loadEax (addr : BitVec 32)
  | rdmsr
  | wrmsr
  | jmpFar (selector : BitVec 16) (offset : BitVec 32)
  /-- Load 64 bits from an absolute address. -/
  | load64 (dst : Reg) (addr : BitVec 32)
  /-- Store 32 bits to an absolute address. -/
  | store32 (addr imm : BitVec 32)
  | call (target : Reg)
  deriving DecidableEq, Repr

/-! ### Decoding -/

/-- The fields of a ModRM byte. -/
def modOf (modrm : Byte) : BitVec 2 := modrm.extractLsb' 6 2

def regOf (modrm : Byte) : Reg := modrm.extractLsb' 3 3

def rmOf (modrm : Byte) : Reg := modrm.extractLsb' 0 3

def dataSegOf (reg : Reg) : Option DataSeg :=
  match reg with
  | 0 => some .es
  | 2 => some .ss
  | 3 => some .ds
  | 4 => some .fs
  | 5 => some .gs
  | _ => none

def ctrlRegOf (reg : Reg) : Option CtrlReg :=
  match reg with
  | 0 => some .cr0
  | 3 => some .cr3
  | 4 => some .cr4
  | _ => none

section

variable (size : Size) (b : ℕ → Byte)

def imm16 (k : ℕ) : BitVec 16 := b (k + 1) ++ b k

def imm32 (k : ℕ) : BitVec 32 := b (k + 3) ++ b (k + 2) ++ b (k + 1) ++ b k

/-- The opcodes after 0x0F. -/
def decode0F : Option (Instr × ℕ) :=
  match b 1 with
  | 0x01 =>
      if size = .bits16 ∧ modOf (b 2) = 0 ∧ regOf (b 2) = 2 ∧ rmOf (b 2) = 6 then
        some (.lgdt (imm16 b 3), 5)
      else none
  | 0x20 =>
      if size = .bits64 then none
      else (ctrlRegOf (regOf (b 2))).map fun cr => (.movFromCr (rmOf (b 2)) cr, 3)
  | 0x22 =>
      if size = .bits64 then none
      else (ctrlRegOf (regOf (b 2))).map fun cr => (.movToCr cr (rmOf (b 2)), 3)
  | 0x30 => some (.wrmsr, 2)
  | 0x32 => some (.rdmsr, 2)
  | _ => none

/-- The opcodes after the prefix 0x66, which is for 32-bit operands in 16-bit code
and for 16-bit operands otherwise. -/
def decode66 : Option (Instr × ℕ) :=
  match b 1 with
  | 0x31 =>
      if size ≠ .bits16 ∧ modOf (b 2) = 3 then some (.xor16 (rmOf (b 2)) (regOf (b 2)), 3)
      else none
  | 0xEA => if size = .bits16 then some (.jmpFar (imm16 b 6) (imm32 b 2), 8) else none
  | opcode =>
      -- 0xB8 to 0xBF
      if size ≠ .bits16 ∧ opcode.extractLsb' 3 5 = 0x17 then
        some (.movImm16 (opcode.extractLsb' 0 3) (imm16 b 2), 4)
      else none

/-- The opcodes after the prefix 0x48, for 64-bit operands. -/
def decodeRexW : Option (Instr × ℕ) :=
  match b 1 with
  | 0x8B =>
      if size = .bits64 ∧ modOf (b 2) = 0 ∧ rmOf (b 2) = 4 ∧ b 3 = 0x25 then
        some (.load64 (regOf (b 2)) (imm32 b 4), 8)
      else none
  | _ => none

/-- The instruction that the bytes begin with, and its length. -/
def decode : Option (Instr × ℕ) :=
  match b 0 with
  | 0x0C => some (.orAl (b 1), 2)
  | 0x0D => if size = .bits16 then none else some (.or32 rax (imm32 b 1), 5)
  | 0x0F => decode0F size b
  | 0x31 =>
      if size = .bits16 ∧ modOf (b 1) = 3 then some (.xor16 (rmOf (b 1)) (regOf (b 1)), 2)
      else none
  | 0x48 => decodeRexW size b
  | 0x66 => decode66 size b
  | 0x83 =>
      if size ≠ .bits16 ∧ modOf (b 1) = 3 ∧ regOf (b 1) = 1 then
        some (.or32 (rmOf (b 1)) ((b 2).signExtend 32), 3)
      else none
  | 0x8E =>
      if modOf (b 1) = 3 then (dataSegOf (regOf (b 1))).map fun seg => (.movSeg seg (rmOf (b 1)), 2)
      else none
  | 0x90 => some (.nop, 1)
  | 0xA1 => if size = .bits32 then some (.loadEax (imm32 b 1), 5) else none
  | 0xC7 =>
      if size = .bits64 ∧ b 1 = 0x04 ∧ b 2 = 0x25 then some (.store32 (imm32 b 3) (imm32 b 7), 11)
      else none
  | 0xEA => if size = .bits32 then some (.jmpFar (imm16 b 5) (imm32 b 1), 7) else none
  | 0xFA => some (.cli, 1)
  | 0xFF =>
      if size = .bits64 ∧ modOf (b 1) = 3 ∧ regOf (b 1) = 2 then some (.call (rmOf (b 1)), 2)
      else none
  | opcode =>
      -- 0xB8 to 0xBF
      if size ≠ .bits16 ∧ opcode.extractLsb' 3 5 = 0x17 then
        some (.movImm32 (opcode.extractLsb' 0 3) (imm32 b 1), 5)
      else none

/-- No instruction is longer than this. -/
def window : ℕ := 11

variable {b}

theorem decode_congr {b' : ℕ → Byte} (h : ∀ k < window, b k = b' k) :
    decode size b = decode size b' := by
  simp only [decode, decode0F, decode66, decodeRexW, imm16, imm32, Nat.reduceAdd,
    h 0 (by decide), h 1 (by decide), h 2 (by decide), h 3 (by decide), h 4 (by decide),
    h 5 (by decide), h 6 (by decide), h 7 (by decide), h 8 (by decide), h 9 (by decide),
    h 10 (by decide)]

end

/-! ### Descriptors -/

/-- The fields of a segment descriptor. -/
structure Descriptor where
  raw : BitVec 64

namespace Descriptor

variable (d : Descriptor)

def base : ℕ := (d.raw.extractLsb' 16 24).toNat + (d.raw.extractLsb' 56 8).toNat * 2 ^ 24

/-- The last offset in the segment; with bit 55 set, it is in units of 4 KiB. -/
def limit : ℕ :=
  let units := (d.raw.extractLsb' 0 16).toNat + (d.raw.extractLsb' 48 4).toNat * 2 ^ 16
  if d.raw.getLsbD 55 then units * 4096 + 4095 else units

def present : Bool := d.raw.getLsbD 47

def privilege : BitVec 2 := d.raw.extractLsb' 45 2

/-- A segment of code or data, as opposed to a system descriptor. -/
def isSegment : Bool := d.raw.getLsbD 44

def isCode : Bool := d.raw.getLsbD 43

/-- Code that lower privilege levels can call. -/
def conforming : Bool := d.raw.getLsbD 42

/-- Readable code or writable data. -/
def readWrite : Bool := d.raw.getLsbD 41

/-- 64-bit code. -/
def long : Bool := d.raw.getLsbD 53

/-- 32-bit code. -/
def big : Bool := d.raw.getLsbD 54

/-- The descriptor can be loaded into a data segment register with the given
requested privilege level. -/
def dataLoadable (seg : DataSeg) (requested : BitVec 2) : Bool :=
  d.present && d.isSegment &&
    if seg = .ss then !d.isCode && d.readWrite && d.privilege == 0 && requested == 0
    else (!d.isCode || d.readWrite) && requested ≤ d.privilege

/-- The descriptor can be the target of a far jump. -/
def codeLoadable (requested : BitVec 2) : Bool :=
  d.present && d.isSegment && d.isCode && d.privilege == 0 && (d.conforming || requested == 0)

end Descriptor

/-! ### The processor -/

structure Segment where
  selector : BitVec 16
  base : ℕ
  deriving DecidableEq, Repr

/-- A processor and its memory. The upper halves of CR0 and CR4 are reserved. -/
structure Machine where
  regs : Reg → BitVec 64
  ip : ℕ
  cs : Segment
  size : Size
  segs : DataSeg → Segment
  interrupts : Bool
  cr0 : BitVec 32
  cr3 : BitVec 64
  cr4 : BitVec 32
  efer : BitVec 64
  gdtLimit : ℕ
  gdtBase : ℕ
  mem : Mem

/-- CR0.PE. -/
def bitPe : ℕ := 0

/-- CR0.PG. -/
def bitPg : ℕ := 31

/-- CR4.PAE. -/
def bitPae : ℕ := 5

/-- EFER.LME. -/
def bitLme : ℕ := 8

/-- EFER.LMA. -/
def bitLma : ℕ := 10

/-- The number of the MSR. -/
def msrEfer : BitVec 32 := 0xC0000080

/-- EFER with LMA set or cleared. -/
def setLma (efer : BitVec 64) (active : Bool) : BitVec 64 :=
  if active then efer ||| BitVec.twoPow 64 bitLma else efer &&& ~~~BitVec.twoPow 64 bitLma

namespace Machine

variable (m : Machine)

/-- The address of the next instruction. -/
def linearIp : ℕ := m.cs.base + m.ip

def setReg (r : Reg) (v : BitVec 64) : Machine := { m with regs := Function.update m.regs r v }

/-- Write the low 16 bits of a register. -/
def setReg16 (r : Reg) (v : BitVec 16) : Machine :=
  m.setReg r ((m.regs r).extractLsb' 16 48 ++ v)

/-- Write the low 32 bits of a register, which clears the others. -/
def setReg32 (r : Reg) (v : BitVec 32) : Machine := m.setReg r (v.setWidth 64)

def reg16 (r : Reg) : BitVec 16 := (m.regs r).setWidth 16

def reg32 (r : Reg) : BitVec 32 := (m.regs r).setWidth 32

/-- The descriptor of a selector in the GDT. Bit 2 would select another table. -/
def descriptor (selector : BitVec 16) : Option Descriptor :=
  let offset := selector.toNat / 8 * 8
  if selector.getLsbD 2 = false ∧ offset + 7 ≤ m.gdtLimit then
    some ⟨load 64 m.mem (m.gdtBase + offset)⟩
  else none

/-- What is loaded into a data segment register. In protected mode, a selector
with index 0 leaves the register unusable, which SS must not be outside of 64-bit
code. -/
def loadData (seg : DataSeg) (selector : BitVec 16) : Option Segment :=
  if m.cr0.getLsbD bitPe = false then some ⟨selector, selector.toNat * 16⟩
  else if selector.toNat < 4 then
    if seg = .ss ∧ m.size ≠ .bits64 then none else some ⟨selector, 0⟩
  else (m.descriptor selector).bind fun d =>
    if d.dataLoadable seg (selector.setWidth 2) then some ⟨selector, d.base⟩ else none

/-- The code segment that a far jump loads, and the size of its code. -/
def loadCode (selector : BitVec 16) (offset : ℕ) : Option (Segment × Size) :=
  if m.cr0.getLsbD bitPe = false then some (⟨selector, selector.toNat * 16⟩, .bits16)
  else if selector.toNat < 4 then none
  else (m.descriptor selector).bind fun d =>
    if d.codeLoadable (selector.setWidth 2) = false then none
    else if m.efer.getLsbD bitLma = true ∧ d.long = true then
      if d.big then none else some (⟨selector, 0⟩, .bits64)
    else if offset ≤ d.limit then
      some (⟨selector, d.base⟩, if d.big then .bits32 else .bits16)
    else none

def readCr : CtrlReg → BitVec 32
  | .cr0 => m.cr0
  | .cr3 => m.cr3.setWidth 32
  | .cr4 => m.cr4

/-- Write a control register from 16-bit or 32-bit code. Enabling paging needs
protected mode, and with LME set it needs PAE and activates long mode. -/
def writeCr : CtrlReg → BitVec 32 → Option Machine
  | .cr0, v =>
      let pg := v.getLsbD bitPg
      let lme := m.efer.getLsbD bitLme
      if pg = true ∧ (v.getLsbD bitPe = false ∨ lme = true ∧ m.cr4.getLsbD bitPae = false) then none
      else some { m with cr0 := v, efer := setLma m.efer (pg && lme) }
  | .cr3, v => some { m with cr3 := v.setWidth 64 }
  | .cr4, v =>
      if m.efer.getLsbD bitLma = true ∧ v.getLsbD bitPae = false then none
      else some { m with cr4 := v }

/-- `wrmsr` on EFER. LME cannot be changed while paging is enabled, and LMA is
not written. -/
def writeEfer (v : BitVec 64) : Option Machine :=
  if m.cr0.getLsbD bitPg = true ∧ v.getLsbD bitLme ≠ m.efer.getLsbD bitLme then none
  else some { m with efer := setLma v (m.efer.getLsbD bitLma) }

end Machine

/-- The effect of an instruction, with the instruction pointer after it. -/
def exec : Instr → Machine → Option Machine
  | .nop, m => some m
  | .cli, m => some { m with interrupts := false }
  | .xor16 dst src, m => some (m.setReg16 dst (m.reg16 dst ^^^ m.reg16 src))
  | .movSeg dst src, m => (m.loadData dst (m.reg16 src)).map fun segment =>
      { m with segs := Function.update m.segs dst segment }
  | .lgdt addr, m =>
      let a := (m.segs .ds).base + addr.toNat
      -- with 16-bit operands the base has 24 bits
      some { m with gdtLimit := readNat m.mem a 2, gdtBase := readNat m.mem (a + 2) 3 }
  | .movFromCr dst src, m => some (m.setReg32 dst (m.readCr src))
  | .movToCr dst src, m => m.writeCr dst (m.reg32 src)
  | .orAl imm, m => some (m.setReg rax (m.regs rax ||| imm.setWidth 64))
  | .or32 dst imm, m => some (m.setReg32 dst (m.reg32 dst ||| imm))
  | .movImm16 dst imm, m => some (m.setReg16 dst imm)
  | .movImm32 dst imm, m => some (m.setReg32 dst imm)
  | .loadEax addr, m => some (m.setReg32 rax (load 32 m.mem ((m.segs .ds).base + addr.toNat)))
  | .rdmsr, m =>
      if m.reg32 rcx = msrEfer then
        some ((m.setReg32 rax (m.efer.setWidth 32)).setReg32 rdx ((m.efer >>> 32).setWidth 32))
      else none
  | .wrmsr, m => if m.reg32 rcx = msrEfer then m.writeEfer (m.reg32 rdx ++ m.reg32 rax) else none
  | .jmpFar selector offset, m => (m.loadCode selector offset.toNat).map fun (cs, size) =>
      { m with cs := cs, size := size, ip := offset.toNat }
  | .load64 dst addr, m => some (m.setReg dst (load 64 m.mem (addr.signExtend 64).toNat))
  | .store32 addr imm, m => some { m with mem := store m.mem (addr.signExtend 64).toNat imm }
  | .call target, m =>
      let top := m.regs rsp - 8
      some { m.setReg rsp top with
        mem := store m.mem top.toNat (BitVec.ofNat 64 m.ip)
        ip := (m.regs target).toNat }

/-- Decode and execute the instruction at the instruction pointer. -/
def step (m : Machine) : Option Machine :=
  (decode m.size fun k => m.mem (m.linearIp + k)).bind fun (i, len) =>
    exec i { m with ip := m.ip + len }

/-- The addresses of the words that the next instruction pushes on the stack: a
call pushes one, and nothing else does. -/
def Machine.pushed (m : Machine) : List ℕ :=
  match decode m.size fun k => m.mem (m.linearIp + k) with
  | some (.call _, _) => [(m.regs rsp - 8).toNat]
  | _ => []

/-- What a call does. -/
theorem step_call {m m' : Machine} {target : Reg} {len : ℕ}
    (hdecode : (decode m.size fun k => m.mem (m.linearIp + k)) = some (.call target, len))
    (hstep : step m = some m') :
    m'.cs = m.cs ∧ m'.ip = (m.regs target).toNat ∧ m'.regs rsp = m.regs rsp - 8 ∧
      m.pushed = [(m.regs rsp - 8).toNat] := by
  rw [step, hdecode, Option.bind_some] at hstep
  obtain rfl := Option.some.inj hstep
  refine ⟨rfl, rfl, Function.update_self rsp _ m.regs, ?_⟩
  rw [Machine.pushed, hdecode]

/-- Run to the first time that the next instruction is at an address. -/
inductive Reaches (addr : ℕ) : Machine → Machine → Prop
  | here {m : Machine} (h : m.linearIp = addr) : Reaches addr m m
  | next {m m₁ m' : Machine} (hne : m.linearIp ≠ addr) (hstep : step m = some m₁)
      (h : Reaches addr m₁ m') : Reaches addr m m'

section

variable {addr : ℕ} {m m' : Machine}

theorem Reaches.linearIp_eq (h : Reaches addr m m') : m'.linearIp = addr := by
  induction h with
  | here heq => exact heq
  | next _ _ _ ih => exact ih

theorem reaches_iff_of_eq (h : m.linearIp = addr) : Reaches addr m m' ↔ m' = m := by
  constructor
  · intro hreaches
    cases hreaches with
    | here => rfl
    | next hne => exact absurd h hne
  · rintro rfl
    exact .here h

theorem reaches_iff_of_ne (hne : m.linearIp ≠ addr) :
    Reaches addr m m' ↔ ∃ m₁, step m = some m₁ ∧ Reaches addr m₁ m' := by
  constructor
  · intro hreaches
    cases hreaches with
    | here heq => exact absurd heq hne
    | next _ hstep h => exact ⟨_, hstep, h⟩
  · rintro ⟨m₁, hstep, h⟩
    exact .next hne hstep h

end

/-! ### Blocks of straight-line code -/

/-- Neither a jump nor a store. -/
def Instr.isStraight : Instr → Bool
  | .jmpFar .. | .store32 .. | .call .. => false
  | _ => true

/-- Decode `n` instructions, from an offset on. -/
def disassemble (size : Size) (bytes : ℕ → Byte) : ℕ → ℕ → Option (List (Instr × ℕ))
  | _, 0 => some []
  | o, n + 1 =>
      (decode size fun k => bytes (o + k)).bind fun (i, len) =>
        (disassemble size bytes (o + len) n).map fun block => (i, len) :: block

/-- The offsets at which the instructions of a block begin. -/
def starts : ℕ → List (Instr × ℕ) → List ℕ
  | _, [] => []
  | o, (_, len) :: block => o :: starts (o + len) block

/-- The effect of a block. -/
def execBlock : List (Instr × ℕ) → Machine → Option Machine
  | [], m => some m
  | (i, len) :: block, m => (exec i { m with ip := m.ip + len }).bind (execBlock block)

variable {size : Size} {m m' : Machine}

/-- What is decoded depends on the bytes that are looked at. -/
theorem disassemble_congr {bytes bytes' : ℕ → Byte} {limit o n : ℕ} {block : List (Instr × ℕ)}
    (h : ∀ k < limit, bytes k = bytes' k) (hblock : disassemble size bytes' o n = some block)
    (hfits : ∀ start ∈ starts o block, start + window ≤ limit) :
    disassemble size bytes o n = some block := by
  induction n generalizing o block with
  | zero => exact hblock
  | succ n ih =>
      obtain ⟨⟨i, len⟩, hdecode, hmap⟩ := Option.bind_eq_some_iff.mp hblock
      obtain ⟨rest, hrest, rfl⟩ := Option.map_eq_some_iff.mp hmap
      obtain ⟨hfirst, hfits⟩ := List.forall_mem_cons.mp hfits
      have hsame : (decode size fun k => bytes (o + k)) = some (i, len) := by
        rw [← hdecode]
        exact decode_congr size fun k hk => h (o + k) (by omega)
      rw [disassemble, hsame, Option.bind_some]
      show (disassemble size bytes (o + len) n).map _ = _
      rw [ih hrest hfits, Option.map_some]

theorem decode_of_disassemble {bytes : ℕ → Byte} {o n len : ℕ} {i : Instr}
    {block : List (Instr × ℕ)} (h : disassemble size bytes o n = some ((i, len) :: block)) :
    (decode size fun k => bytes (o + k)) = some (i, len) := by
  cases n with
  | zero => cases h
  | succ n =>
      obtain ⟨⟨i', len'⟩, hdecode, hmap⟩ := Option.bind_eq_some_iff.mp h
      obtain ⟨rest, -, heq⟩ := Option.map_eq_some_iff.mp hmap
      rw [hdecode, (List.cons.inj heq).1]

/-- A straight instruction leaves the code and where it is as it is. -/
theorem exec_straight {i : Instr} (hi : i.isStraight = true) (h : exec i m = some m') :
    m'.mem = m.mem ∧ m'.cs = m.cs ∧ m'.size = m.size ∧ m'.ip = m.ip := by
  cases i with
  | nop | cli | xor16 | lgdt | movFromCr | orAl | or32 | movImm16 | movImm32 | loadEax | load64 =>
      obtain rfl := Option.some.inj h
      exact ⟨rfl, rfl, rfl, rfl⟩
  | movSeg =>
      obtain ⟨_, -, rfl⟩ := Option.map_eq_some_iff.mp h
      exact ⟨rfl, rfl, rfl, rfl⟩
  | movToCr dst src =>
      cases dst with
      | cr0 | cr4 =>
          obtain ⟨-, h⟩ := Option.ite_none_left_eq_some.mp h
          obtain rfl := Option.some.inj h
          exact ⟨rfl, rfl, rfl, rfl⟩
      | cr3 =>
          obtain rfl := Option.some.inj h
          exact ⟨rfl, rfl, rfl, rfl⟩
  | rdmsr =>
      obtain ⟨-, h⟩ := Option.ite_none_right_eq_some.mp h
      obtain rfl := Option.some.inj h
      exact ⟨rfl, rfl, rfl, rfl⟩
  | wrmsr =>
      obtain ⟨-, h⟩ := Option.ite_none_right_eq_some.mp h
      obtain ⟨-, h⟩ := Option.ite_none_left_eq_some.mp h
      obtain rfl := Option.some.inj h
      exact ⟨rfl, rfl, rfl, rfl⟩
  | jmpFar | store32 | call => cases hi

theorem execBlock_append (block block' : List (Instr × ℕ)) (m : Machine) :
    execBlock (block ++ block') m = (execBlock block m).bind (execBlock block') := by
  induction block generalizing m with
  | nil => rfl
  | cons x block ih =>
      rw [List.cons_append, execBlock, execBlock, Option.bind_assoc]
      exact congrArg _ (funext ih)

/-- A block leaves the code as it is, and the instruction pointer behind it. -/
theorem execBlock_straight {block : List (Instr × ℕ)}
    (hstraight : ∀ x ∈ block, x.1.isStraight = true) (h : execBlock block m = some m') :
    m'.mem = m.mem ∧ m'.cs = m.cs ∧ m'.size = m.size ∧
      m'.ip = m.ip + (block.map Prod.snd).sum := by
  induction block generalizing m with
  | nil =>
      obtain rfl := Option.some.inj h
      exact ⟨rfl, rfl, rfl, rfl⟩
  | cons x block ih =>
      obtain ⟨i, len⟩ := x
      obtain ⟨hi, hstraight⟩ := List.forall_mem_cons.mp hstraight
      obtain ⟨m₁, hexec, hrest⟩ := Option.bind_eq_some_iff.mp h
      obtain ⟨hmem, hcs, hsize, hip⟩ := exec_straight hi hexec
      obtain ⟨hmem', hcs', hsize', hip'⟩ := ih hstraight hrest
      refine ⟨hmem'.trans hmem, hcs'.trans hcs, hsize'.trans hsize, ?_⟩
      rw [hip', hip, List.map_cons, List.sum_cons, Nat.add_assoc]

theorem step_eq {base o len : ℕ} {i : Instr}
    (hdecode : (decode m.size fun k => m.mem (base + (o + k))) = some (i, len))
    (hip : m.linearIp = base + o) : step m = exec i { m with ip := m.ip + len } := by
  rw [step, hip]
  simp only [Nat.add_assoc]
  rw [hdecode, Option.bind_some]

/-- A block is executed as a whole, if the address is not in it. -/
theorem reaches_block {addr base o n : ℕ} {block : List (Instr × ℕ)}
    (hblock : disassemble m.size (fun k => m.mem (base + k)) o n = some block)
    (hip : m.linearIp = base + o) (hstraight : ∀ x ∈ block, x.1.isStraight = true)
    (haddr : ∀ start ∈ starts o block, base + start ≠ addr) :
    Reaches addr m m' ↔ ∃ m₁, execBlock block m = some m₁ ∧ Reaches addr m₁ m' := by
  induction n generalizing m o block with
  | zero =>
      obtain rfl := Option.some.inj hblock
      simp [execBlock]
  | succ n ih =>
      obtain ⟨⟨i, len⟩, hdecode, hmap⟩ := Option.bind_eq_some_iff.mp hblock
      obtain ⟨rest, hrest, rfl⟩ := Option.map_eq_some_iff.mp hmap
      obtain ⟨hi, hstraight⟩ := List.forall_mem_cons.mp hstraight
      obtain ⟨hfirst, haddr⟩ := List.forall_mem_cons.mp haddr
      rw [reaches_iff_of_ne (by rw [hip]; exact hfirst), step_eq hdecode hip]
      -- the rest of the block is still there after the first instruction
      have hnext : ∀ m₁, exec i { m with ip := m.ip + len } = some m₁ →
          (Reaches addr m₁ m' ↔ ∃ m₂, execBlock rest m₁ = some m₂ ∧ Reaches addr m₂ m') := by
        intro m₁ hexec
        obtain ⟨hmem, hcs, hsize, hip₁⟩ := exec_straight hi hexec
        refine ih ?_ ?_ hstraight haddr
        · rw [hmem, hsize]
          exact hrest
        · simp only [Machine.linearIp, hcs, hip₁] at hip ⊢
          omega
      simp only [execBlock, Option.bind_eq_some_iff]
      constructor
      · rintro ⟨m₁, hexec, h⟩
        obtain ⟨m₂, hblock, h⟩ := (hnext m₁ hexec).mp h
        exact ⟨m₂, ⟨m₁, hexec, hblock⟩, h⟩
      · rintro ⟨m₂, ⟨m₁, hexec, hblock⟩, h⟩
        exact ⟨m₁, hexec, (hnext m₁ hexec).mpr ⟨m₂, hblock, h⟩⟩

/-- An instruction at the end of a block, or between two. -/
theorem reaches_step {addr base o len : ℕ} {i : Instr}
    (hdecode : (decode m.size fun k => m.mem (base + (o + k))) = some (i, len))
    (hip : m.linearIp = base + o) (haddr : base + o ≠ addr) :
    Reaches addr m m' ↔
      ∃ m₁, exec i { m with ip := m.ip + len } = some m₁ ∧ Reaches addr m₁ m' := by
  rw [reaches_iff_of_ne (by rw [hip]; exact haddr), step_eq hdecode hip]

/-! ### Registers -/

theorem setWidth_append_low (x : BitVec 48) (v : BitVec 16) :
    (x ++ v : BitVec 64).setWidth 16 = v := by
  rw [BitVec.setWidth_append]
  simp

@[simp] theorem Machine.reg16_setReg16 (m : Machine) (r : Reg) (v : BitVec 16) :
    (m.setReg16 r v).reg16 r = v := by
  simp only [reg16, setReg16, setReg, Function.update_self]
  exact setWidth_append_low _ v

@[simp] theorem Machine.reg32_setReg32 (m : Machine) (r : Reg) (v : BitVec 32) :
    (m.setReg32 r v).reg32 r = v := by
  simp [reg32, setReg32, setReg]

theorem Machine.reg32_setReg32_of_ne {r r' : Reg} (h : r' ≠ r) (m : Machine) (v : BitVec 32) :
    (m.setReg32 r v).reg32 r' = m.reg32 r' := by
  simp [reg32, setReg32, setReg, h]

theorem getLsbD_setLma (efer : BitVec 64) (active : Bool) (i : ℕ) :
    (setLma efer active).getLsbD i = if i = bitLma then active else efer.getLsbD i := by
  cases active with
  | true => simp only [setLma, if_true, Bits.getLsbD_set (show bitLma < 64 by decide)]
  | false =>
      simp only [setLma, Bool.false_eq_true, if_false,
        Bits.getLsbD_clear (show bitLma < 64 by decide)]

theorem exec_rdmsr (h : m.reg32 rcx = msrEfer) :
    exec .rdmsr m = some ((m.setReg32 rax (m.efer.setWidth 32)).setReg32 rdx
      ((m.efer >>> 32).setWidth 32)) :=
  if_pos h

theorem exec_wrmsr (h : m.reg32 rcx = msrEfer) :
    exec .wrmsr m = m.writeEfer (m.reg32 rdx ++ m.reg32 rax) :=
  if_pos h

/-- Load several segment registers from one register. -/
theorem execBlock_movSegs {r : Reg} {segment : Segment} (segs : List DataSeg) (m : Machine)
    (hload : ∀ seg ∈ segs, m.loadData seg (m.reg16 r) = some segment) :
    execBlock (segs.map fun seg => (.movSeg seg r, 2)) m =
      some { m with
        ip := m.ip + 2 * segs.length
        segs := fun seg => if seg ∈ segs then segment else m.segs seg } := by
  induction segs generalizing m with
  | nil => simp [execBlock]
  | cons seg segs ih =>
      obtain ⟨hfirst, hrest⟩ := List.forall_mem_cons.mp hload
      let m₁ : Machine := { m with ip := m.ip + 2, segs := Function.update m.segs seg segment }
      have hexec : exec (.movSeg seg r) { m with ip := m.ip + 2 } = some m₁ := by
        show (m.loadData seg (m.reg16 r)).map _ = _
        rw [hfirst, Option.map_some]
      have hip : m₁.ip + 2 * segs.length = m.ip + 2 * (seg :: segs).length := by
        rw [List.length_cons]
        show m.ip + 2 + 2 * segs.length = _
        omega
      have hsegs : (fun seg' => if seg' ∈ segs then segment else m₁.segs seg') =
          fun seg' => if seg' ∈ seg :: segs then segment else m.segs seg' := by
        funext seg'
        by_cases hmem : seg' ∈ segs
        · simp [hmem]
        · by_cases heq : seg' = seg <;> simp [m₁, hmem, heq]
      rw [List.map_cons, execBlock, hexec, Option.bind_some, ih m₁ hrest, hip, hsegs]

end SmpNostd.X86
