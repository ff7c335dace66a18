import SmpNostd.Lib.X86

/-!
The trampoline page (`trampoline.rs`), byte by byte.

The code is hand-assembled, in three parts for the three sizes of code that an AP
goes through. Here it is decoded again, each part as a listing, and the listings
are what the rest of the development is about. The mailbox is where `repr(C)`
puts its fields. Low memory is identity-mapped, so the address that the BSP
writes to is the one that the AP reads from.
-/

namespace SmpNostd.Trampoline

open Memory X86

/-- `TRAMPOLINE_PHYS`, the physical address of the trampoline code. -/
def trampolinePhys : ℕ := 0x8000

/-- Offset within the page where `TrampolineData` is placed. -/
def trampolineDataOffset : ℕ := 0xF00

/-- Physical address of the trampoline data block. -/
def trampolineDataPhys : ℕ := trampolinePhys + trampolineDataOffset

/-! ### The mailbox -/

/-- The fields of `TrampolineData`. -/
inductive Field
  | pml4Addr
  | stackTop
  | entryPoint
  | cpuIndex
  | apReady
  | gdtLimit
  | pad
  | gdtBase
  deriving DecidableEq, Repr

/-- The fields in the order of their declaration. -/
def fields : List Field :=
  [.pml4Addr, .stackTop, .entryPoint, .cpuIndex, .apReady, .gdtLimit, .pad, .gdtBase]

/-- The size of a field in bytes. -/
def Field.size : Field → ℕ
  | .pml4Addr | .stackTop | .entryPoint | .gdtBase => 8
  | .cpuIndex | .apReady => 4
  | .gdtLimit | .pad => 2

/-- Where `repr(C)` puts fields of the given sizes, from an offset on: each at the
next multiple of its alignment, which is its size. -/
def reprC (o : ℕ) : List ℕ → List ℕ
  | [] => []
  | size :: sizes =>
      let start := (o + size - 1) / size * size
      start :: reprC (start + size) sizes

/-- The offset of a field. -/
def Field.offset (f : Field) : ℕ :=
  (reprC 0 (fields.map Field.size)).getD (fields.idxOf f) 0

/-- The physical address of a field. -/
def Field.addr (f : Field) : ℕ := trampolineDataPhys + f.offset

/-- Set the trampoline data for a specific AP. -/
def setApData (mem : Mem) (pml4Addr stackTop entryPoint : BitVec 64) (cpuIndex : BitVec 32) :
    Mem :=
  let mem := store mem Field.pml4Addr.addr pml4Addr
  let mem := store mem Field.stackTop.addr stackTop
  let mem := store mem Field.entryPoint.addr entryPoint
  let mem := store mem Field.cpuIndex.addr cpuIndex
  store mem Field.apReady.addr (0 : BitVec 32)

/-- Check if the AP has signaled ready. -/
def isApReady (mem : Mem) : Bool := load 32 mem Field.apReady.addr != 0

theorem addr_pml4Addr : Field.pml4Addr.addr = 0x8F00 := rfl

theorem addr_stackTop : Field.stackTop.addr = 0x8F08 := rfl

theorem addr_entryPoint : Field.entryPoint.addr = 0x8F10 := rfl

theorem addr_cpuIndex : Field.cpuIndex.addr = 0x8F18 := rfl

/-- What the fields in use hold. -/
structure Contains (mem : Mem) (pml4Addr stackTop entryPoint : BitVec 64)
    (cpuIndex apReady : BitVec 32) : Prop where
  pml4Addr : load 64 mem Field.pml4Addr.addr = pml4Addr
  stackTop : load 64 mem Field.stackTop.addr = stackTop
  entryPoint : load 64 mem Field.entryPoint.addr = entryPoint
  cpuIndex : load 32 mem Field.cpuIndex.addr = cpuIndex
  apReady : load 32 mem Field.apReady.addr = apReady

section

variable (mem : Mem) (pml4Addr stackTop entryPoint : BitVec 64) (cpuIndex : BitVec 32)

/-- The fields do not overlap. -/
theorem contains_setApData :
    Contains (setApData mem pml4Addr stackTop entryPoint cpuIndex) pml4Addr stackTop entryPoint
      cpuIndex 0 where
  pml4Addr := by
    simp only [setApData]
    rw [load_store_disjoint (by decide), load_store_disjoint (by decide),
      load_store_disjoint (by decide), load_store_disjoint (by decide),
      load_store_self (by decide)]
  stackTop := by
    simp only [setApData]
    rw [load_store_disjoint (by decide), load_store_disjoint (by decide),
      load_store_disjoint (by decide), load_store_self (by decide)]
  entryPoint := by
    simp only [setApData]
    rw [load_store_disjoint (by decide), load_store_disjoint (by decide),
      load_store_self (by decide)]
  cpuIndex := by
    simp only [setApData]
    rw [load_store_disjoint (by decide), load_store_self (by decide)]
  apReady := by
    simp only [setApData]
    rw [load_store_self (by decide)]

/-- What is below the mailbox stays as it is. -/
theorem setApData_of_lt {x : ℕ} (h : x < trampolineDataPhys) :
    setApData mem pml4Addr stackTop entryPoint cpuIndex x = mem x := by
  have hbelow : ∀ f : Field, x < f.addr :=
    fun f => Nat.lt_of_lt_of_le h (Nat.le_add_right _ f.offset)
  simp only [setApData, store]
  rw [overlay_outside (.inl (hbelow _)), overlay_outside (.inl (hbelow _)),
    overlay_outside (.inl (hbelow _)), overlay_outside (.inl (hbelow _)),
    overlay_outside (.inl (hbelow _))]

end

/-! ### The page -/

def trampolineCode : List Byte :=
  [ -- 16-bit real mode
    0xFA,
    0x31, 0xC0,
    0x8E, 0xD8,
    0x8E, 0xC0,
    0x8E, 0xD0,
    0x0F, 0x01, 0x16, 0x80, 0x80,
    0x0F, 0x20, 0xC0,
    0x0C, 0x01,
    0x0F, 0x22, 0xC0,
    0x66, 0xEA, 0x20, 0x80, 0x00, 0x00, 0x08, 0x00,
    0x90, 0x90,
    -- 32-bit protected mode
    0x66, 0xB8, 0x10, 0x00,
    0x8E, 0xD8,
    0x8E, 0xC0,
    0x8E, 0xE0,
    0x8E, 0xE8,
    0x8E, 0xD0,
    0x0F, 0x20, 0xE0,
    0x83, 0xC8, 0x20,
    0x0F, 0x22, 0xE0,
    0xA1, 0x00, 0x8F, 0x00, 0x00,
    0x0F, 0x22, 0xD8,
    0xB9, 0x80, 0x00, 0x00, 0xC0,
    0x0F, 0x32,
    0x0D, 0x00, 0x01, 0x00, 0x00,
    0x0F, 0x30,
    0x0F, 0x20, 0xC0,
    0x0D, 0x00, 0x00, 0x00, 0x80,
    0x0F, 0x22, 0xC0,
    0xEA, 0x60, 0x80, 0x00, 0x00, 0x18, 0x00,
    0x90,
    -- 64-bit long mode
    0x66, 0xB8, 0x20, 0x00,
    0x8E, 0xD8,
    0x8E, 0xC0,
    0x8E, 0xD0,
    0x66, 0x31, 0xC0,
    0x8E, 0xE0,
    0x8E, 0xE8,
    0x48, 0x8B, 0x24, 0x25, 0x08, 0x8F, 0x00, 0x00,
    0xC7, 0x04, 0x25, 0x18, 0x8F, 0x00, 0x00, 0x01, 0x00, 0x00, 0x00,
    0x48, 0x8B, 0x3C, 0x25, 0x14, 0x8F, 0x00, 0x00,
    0x48, 0x8B, 0x04, 0x25, 0x10, 0x8F, 0x00, 0x00,
    0xFF, 0xD0,
    0xFA, 0xF4, 0xEB, 0xFD]

/-- Minimal GDT for the trampoline: a null descriptor, code and data for 32 bits,
and code and data for 64 bits. -/
def trampolineGdt : List Byte :=
  [ 0x00, 0x00, 0x00, 0x00, 0x00, 0x00, 0x00, 0x00,
    0xFF, 0xFF, 0x00, 0x00, 0x00, 0x9A, 0xCF, 0x00,
    0xFF, 0xFF, 0x00, 0x00, 0x00, 0x92, 0xCF, 0x00,
    0x00, 0x00, 0x00, 0x00, 0x00, 0x9A, 0x20, 0x00,
    0x00, 0x00, 0x00, 0x00, 0x00, 0x92, 0x00, 0x00]

/-- GDT descriptor (limit + base) for the LGDT instruction. -/
def trampolineGdtDesc : List Byte := [0x27, 0x00, 0x88, 0x80, 0x00, 0x00]

/-- Install the trampoline code and GDT into low memory. -/
def install (mem : Mem) : Mem :=
  let mem := fill mem trampolinePhys 4096 0
  let mem := copy mem trampolinePhys trampolineCode
  let mem := copy mem (trampolinePhys + 0x80) trampolineGdtDesc
  copy mem (trampolinePhys + 0x88) trampolineGdt

/-! ### The listing -/

/-- From offset 0x00, up to the far jump. -/
def code16 : List (Instr × ℕ) :=
  [ (.cli, 1),
    (.xor16 rax rax, 2),
    (.movSeg .ds rax, 2),
    (.movSeg .es rax, 2),
    (.movSeg .ss rax, 2),
    (.lgdt 0x8080, 5),
    (.movFromCr rax .cr0, 3),
    (.orAl 1, 2),
    (.movToCr .cr0 rax, 3)]

/-- At offset 0x16, followed by padding. -/
def jump16 : List (Instr × ℕ) := [(.jmpFar 0x08 0x8020, 8), (.nop, 1), (.nop, 1)]

/-- From offset 0x20: the data segments. -/
def code32Segments : List (Instr × ℕ) :=
  [ (.movImm16 rax 0x10, 4),
    (.movSeg .ds rax, 2),
    (.movSeg .es rax, 2),
    (.movSeg .fs rax, 2),
    (.movSeg .gs rax, 2),
    (.movSeg .ss rax, 2)]

/-- From offset 0x2E: PAE. -/
def code32Pae : List (Instr × ℕ) :=
  [(.movFromCr rax .cr4, 3), (.or32 rax 0x20, 3), (.movToCr .cr4 rax, 3)]

/-- From offset 0x37: the page table. -/
def code32Cr3 : List (Instr × ℕ) := [(.loadEax 0x8F00, 5), (.movToCr .cr3 rax, 3)]

/-- From offset 0x3F: LME. -/
def code32Lme : List (Instr × ℕ) :=
  [(.movImm32 rcx 0xC0000080, 5), (.rdmsr, 2), (.or32 rax 0x100, 5), (.wrmsr, 2)]

/-- From offset 0x4D: paging. -/
def code32Pg : List (Instr × ℕ) :=
  [(.movFromCr rax .cr0, 3), (.or32 rax 0x80000000, 5), (.movToCr .cr0 rax, 3)]

/-- From offset 0x20, up to the far jump. -/
def code32 : List (Instr × ℕ) :=
  code32Segments ++ (code32Pae ++ (code32Cr3 ++ (code32Lme ++ code32Pg)))

/-- At offset 0x58, followed by padding. -/
def jump32 : List (Instr × ℕ) := [(.jmpFar 0x18 0x8060, 7), (.nop, 1)]

/-- From offset 0x60: the data segments and the stack. -/
def code64Stack : List (Instr × ℕ) :=
  [ (.movImm16 rax 0x20, 4),
    (.movSeg .ds rax, 2),
    (.movSeg .es rax, 2),
    (.movSeg .ss rax, 2),
    (.xor16 rax rax, 3),
    (.movSeg .fs rax, 2),
    (.movSeg .gs rax, 2),
    (.load64 rsp 0x8F08, 8)]

/-- At offset 0x79: the signal. -/
def code64Signal : Instr × ℕ := (.store32 0x8F18 1, 11)

/-- From offset 0x84: the argument and the entry point. -/
def code64Args : List (Instr × ℕ) := [(.load64 rdi 0x8F14, 8), (.load64 rax 0x8F10, 8)]

theorem length_trampolineCode : trampolineCode.length = 154 := by
  simp [trampolineCode]

/-- The bytes of the code, by their offset. -/
def codeByte (k : ℕ) : Byte := trampolineCode.getD k 0

theorem disassemble_code16 : disassemble .bits16 codeByte 0x00 9 = some code16 := rfl

theorem disassemble_jump16 : disassemble .bits16 codeByte 0x16 3 = some jump16 := rfl

theorem disassemble_code32 : disassemble .bits32 codeByte 0x20 18 = some code32 := rfl

theorem disassemble_part16 :
    disassemble .bits16 codeByte 0x00 12 = some (code16 ++ jump16) := rfl

theorem disassemble_part32 :
    disassemble .bits32 codeByte 0x20 20 = some (code32 ++ jump32) := rfl

theorem disassemble_jump32 : disassemble .bits32 codeByte 0x58 2 = some jump32 := rfl

theorem disassemble_code64Stack : disassemble .bits64 codeByte 0x60 8 = some code64Stack := rfl

theorem disassemble_code64Signal :
    disassemble .bits64 codeByte 0x79 1 = some [code64Signal] := rfl

theorem disassemble_code64Args : disassemble .bits64 codeByte 0x84 2 = some code64Args := rfl

/-! ### Running the listing -/

/-- The first bytes of the page are those of the code. -/
def CodeUpTo (limit : ℕ) (mem : Mem) : Prop :=
  ∀ k < limit, mem (trampolinePhys + k) = codeByte k

section

variable {limit addr o n : ℕ} {size : Size} {m m' : Machine} {block : List (Instr × ℕ)}

/-- A block of the listing is executed where its bytes are. -/
theorem CodeUpTo.reaches_block (hcode : CodeUpTo limit m.mem)
    (hblock : disassemble size codeByte o n = some block) (hsize : m.size = size)
    (hip : m.linearIp = trampolinePhys + o)
    (hfits : ∀ start ∈ starts o block, start + window ≤ limit ∧ trampolinePhys + start ≠ addr)
    (hstraight : ∀ x ∈ block, x.1.isStraight = true) :
    Reaches addr m m' ↔ ∃ m₁, execBlock block m = some m₁ ∧ Reaches addr m₁ m' := by
  have hmem : disassemble m.size (fun k => m.mem (trampolinePhys + k)) o n = some block := by
    rw [hsize]
    exact disassemble_congr hcode hblock fun start h => (hfits start h).1
  exact X86.reaches_block hmem hip hstraight fun start h => (hfits start h).2

/-- The same for a jump or a store. -/
theorem CodeUpTo.reaches_step (hcode : CodeUpTo limit m.mem) {i : Instr} {len : ℕ}
    (hblock : disassemble size codeByte o n = some ((i, len) :: block)) (hsize : m.size = size)
    (hip : m.linearIp = trampolinePhys + o)
    (hfits : o + window ≤ limit ∧ trampolinePhys + o ≠ addr) :
    Reaches addr m m' ↔
      ∃ m₁, exec i { m with ip := m.ip + len } = some m₁ ∧ Reaches addr m₁ m' := by
  refine X86.reaches_step ?_ hip hfits.2
  rw [hsize, ← decode_of_disassemble hblock]
  exact decode_congr size fun k hk => hcode (o + k) (by omega)

end

end SmpNostd.Trampoline
