import SmpNostd.Boot.Install

/-!
The 16-bit and 32-bit parts of the trampoline: from the startup IPI to the first
instruction in 64-bit mode.

The bytes, the jumps and the descriptors fit together, and CR0, CR4 and EFER
change by the bits that they are to change by. But the page table is loaded by a
32-bit instruction, so its address has to be below 4 GiB.
-/

namespace SmpNostd.Trampoline

open Memory X86

/-- The address of the 64-bit part. -/
def longModePhys : ℕ := 0x8060

/-- An AP that has got its startup IPI, with the page prepared by `install` and
`set_ap_data`. Everything else is as in `m`. -/
def startup (m : Machine) (pml4Addr stackTop entryPoint : BitVec 64) (cpuIndex : BitVec 32) :
    Machine :=
  { m with
    ip := 0
    cs := ⟨0x0800, 0x8000⟩
    size := .bits16
    mem := setApData (install m.mem) pml4Addr stackTop entryPoint cpuIndex }

/-- What is to hold in 64-bit mode, given the state at the startup IPI. -/
structure InLongMode (before after : Machine) (pml4Addr : BitVec 64) : Prop where
  interrupts : after.interrupts = false
  pe : after.cr0.getLsbD bitPe = true
  pg : after.cr0.getLsbD bitPg = true
  cr0 : ∀ i, i ≠ bitPe → i ≠ bitPg → after.cr0.getLsbD i = before.cr0.getLsbD i
  pae : after.cr4.getLsbD bitPae = true
  cr4 : ∀ i, i ≠ bitPae → after.cr4.getLsbD i = before.cr4.getLsbD i
  lme : after.efer.getLsbD bitLme = true
  efer : ∀ i, i ≠ bitLme → i ≠ bitLma → after.efer.getLsbD i = before.efer.getLsbD i
  cr3 : after.cr3 = pml4Addr
  size : after.size = .bits64
  cs : after.cs.selector = 0x18
  /-- The GDT is the one that is described at 0x8080. -/
  gdt : after.gdtLimit = readNat after.mem 0x8080 2 ∧ after.gdtBase = readNat after.mem 0x8082 4
  /-- That the selector has a descriptor says that it is within the limit. -/
  descriptor : ∃ d, after.descriptor 0x18 = some d ∧ d.present = true ∧ d.isSegment = true ∧
    d.isCode = true ∧ d.long = true ∧ d.big = false

/-- The selector and the offset of a far jump. -/
def farTarget : Instr → Option (BitVec 16 × BitVec 32)
  | .jmpFar selector offset => some (selector, offset)
  | _ => none

/-- The parts of the code follow each other without a gap, and every far jump in
them goes to the beginning of an instruction, by a selector within the limit of
the GDT. -/
def JumpsAligned (mem : Mem) (gdtLimit : ℕ) : Prop :=
  let page k := mem (trampolinePhys + k)
  ∃ part16 part32 part64,
    disassemble .bits16 page 0x00 12 = some part16 ∧ (part16.map Prod.snd).sum = 0x20 ∧
    disassemble .bits32 page 0x20 20 = some part32 ∧ (part32.map Prod.snd).sum = 0x40 ∧
    disassemble .bits64 page 0x60 8 = some part64 ∧
    ∀ x ∈ part16 ++ part32, ∀ target ∈ farTarget x.1, target.1.toNat + 7 ≤ gdtLimit ∧
      target.2.toNat ∈ starts 0x8000 part16 ++ starts 0x8020 part32 ++ starts 0x8060 part64

/-- The AP gets from the startup IPI to 64-bit mode. -/
def SwitchesMode (m : Machine) (pml4Addr stackTop entryPoint : BitVec 64) (cpuIndex : BitVec 32) :
    Prop :=
  let before := startup m pml4Addr stackTop entryPoint cpuIndex
  ∃ after, Reaches longModePhys before after ∧ InLongMode before after pml4Addr ∧
    JumpsAligned before.mem after.gdtLimit

/-! ### The page -/

/-- What the code relies on in memory. -/
structure Prepared (mem : Mem) (pml4Addr : BitVec 64) : Prop where
  code : CodeUpTo 0x80 mem
  gdtDesc : Holds mem (trampolinePhys + 0x80) trampolineGdtDesc
  gdt : Holds mem (trampolinePhys + 0x88) trampolineGdt
  pml4Addr : load 64 mem 0x8F00 = pml4Addr

section

variable {mem : Mem} {pml4Addr : BitVec 64}

theorem prepared_install (mem : Mem) (pml4Addr stackTop entryPoint : BitVec 64)
    (cpuIndex : BitVec 32) :
    Prepared (setApData (install mem) pml4Addr stackTop entryPoint cpuIndex) pml4Addr where
  code k hk := by
    have hbelow : trampolinePhys + k < trampolineDataPhys :=
      Nat.add_lt_add_left (by rw [trampolineDataOffset]; omega) _
    rw [setApData_of_lt _ _ _ _ _ hbelow]
    exact install_code mem hk
  gdtDesc k hk := by
    have hlt : k < 6 := hk
    have hbelow : trampolinePhys + 0x80 + k < trampolineDataPhys := by
      simp only [trampolineDataPhys, trampolinePhys, trampolineDataOffset]
      omega
    rw [setApData_of_lt _ _ _ _ _ hbelow]
    exact install_gdtDesc mem k hk
  gdt k hk := by
    have hlt : k < 40 := hk
    have hbelow : trampolinePhys + 0x88 + k < trampolineDataPhys := by
      simp only [trampolineDataPhys, trampolinePhys, trampolineDataOffset]
      omega
    rw [setApData_of_lt _ _ _ _ _ hbelow]
    exact install_gdt mem k hk
  pml4Addr := by
    have hfield := (contains_setApData (install mem) pml4Addr stackTop entryPoint cpuIndex).pml4Addr
    rwa [addr_pml4Addr] at hfield

/-- What `lgdt` reads. -/
theorem Prepared.gdtr (h : Prepared mem pml4Addr) :
    readNat mem 0x8080 2 = 0x27 ∧ readNat mem 0x8082 3 = 0x8088 ∧
      readNat mem 0x8082 4 = 0x8088 := by
  have hlimit := h.gdtDesc.readNat_eq (k := 0) (n := 2) (by decide)
  have hbase := h.gdtDesc.readNat_eq (k := 2) (n := 3) (by decide)
  have hbase' := h.gdtDesc.readNat_eq (k := 2) (n := 4) (by decide)
  exact ⟨hlimit, hbase, hbase'⟩

/-- The upper half of the page table's address is not read. -/
theorem Prepared.load_pml4Addr (h : Prepared mem pml4Addr) :
    load 32 mem 0x8F00 = pml4Addr.setWidth 32 := by
  have hall : pml4Addr.toNat = readNat mem 0x8F00 8 := by
    rw [← h.pml4Addr]
    exact toNat_load (w := 64) (by decide) mem 0x8F00
  have hlow : (load 32 mem 0x8F00).toNat = readNat mem 0x8F00 4 :=
    toNat_load (w := 32) (by decide) mem 0x8F00
  have hlt := readNat_lt mem 0x8F00 4
  have hsplit := readNat_add mem 0x8F00 4 4
  apply BitVec.eq_of_toNat_eq
  rw [BitVec.toNat_setWidth, hall, hlow]
  norm_num at hlt hsplit ⊢
  omega

end

/-! ### The descriptors -/

section

variable {m : Machine} {pml4Addr : BitVec 64}

/-- The GDT of the trampoline has been loaded, in protected mode. -/
structure GdtLoaded (m : Machine) (pml4Addr : BitVec 64) : Prop where
  pe : m.cr0.getLsbD bitPe = true
  limit : m.gdtLimit = 0x27
  base : m.gdtBase = 0x8088
  page : Prepared m.mem pml4Addr

/-- A descriptor in the GDT. -/
theorem GdtLoaded.descriptor_eq (h : GdtLoaded m pml4Addr) {selector : BitVec 16} {raw : BitVec 64}
    (hselector : selector.getLsbD 2 = false ∧ selector.toNat / 8 * 8 + 8 ≤ 40)
    (hraw : BitVec.ofNat 64
      (readNat (fun i => trampolineGdt.getD i 0) (selector.toNat / 8 * 8) 8) = raw) :
    m.descriptor selector = some ⟨raw⟩ := by
  have hread := h.page.gdt.readNat_eq (k := selector.toNat / 8 * 8) (n := 8) hselector.2
  rw [Machine.descriptor, h.limit, h.base, if_pos ⟨hselector.1, by omega⟩, ← hraw, ← hread]
  rfl

/-- The data segment is flat. -/
theorem GdtLoaded.loadData_flat (h : GdtLoaded m pml4Addr) (seg : DataSeg) :
    m.loadData seg 0x10 = some ⟨0x10, 0⟩ := by
  have hdescriptor : m.descriptor 0x10 = some ⟨0x00CF92000000FFFF⟩ :=
    h.descriptor_eq (by decide) (by decide)
  rw [Machine.loadData, h.pe, if_neg (by decide), if_neg (by decide), hdescriptor,
    Option.bind_some]
  cases seg <;> rfl

theorem GdtLoaded.loadCode_32 (h : GdtLoaded m pml4Addr) :
    m.loadCode 0x08 0x8020 = some (⟨0x08, 0⟩, .bits32) := by
  have hdescriptor : m.descriptor 0x08 = some ⟨0x00CF9A000000FFFF⟩ :=
    h.descriptor_eq (by decide) (by decide)
  rw [Machine.loadCode, h.pe, if_neg (by decide), if_neg (by decide), hdescriptor,
    Option.bind_some, if_neg (by decide), if_neg (fun hlong => absurd hlong.2 (by decide)),
    if_pos (by decide)]
  rfl

theorem GdtLoaded.descriptor_64 (h : GdtLoaded m pml4Addr) :
    m.descriptor 0x18 = some ⟨0x00209A0000000000⟩ :=
  h.descriptor_eq (by decide) (by decide)

theorem GdtLoaded.loadCode_64 (h : GdtLoaded m pml4Addr) (hlma : m.efer.getLsbD bitLma = true) :
    m.loadCode 0x18 0x8060 = some (⟨0x18, 0⟩, .bits64) := by
  rw [Machine.loadCode, h.pe, if_neg (by decide), if_neg (by decide), h.descriptor_64,
    Option.bind_some, if_neg (by decide), if_pos ⟨hlma, by decide⟩, if_neg (by decide)]

/-- The two halves of EFER, with LME set in the low one. -/
theorem append_halves_or (efer : BitVec 64) :
    (efer >>> 32).setWidth 32 ++ (efer.setWidth 32 ||| (0x100 : BitVec 32)) = efer ||| 0x100 := by
  have hhigh : ((efer ||| 0x100) >>> 32).setWidth 32 = (efer >>> 32).setWidth 32 := by
    simp [BitVec.ushiftRight_or_distrib]
  have hlow : (efer ||| 0x100).setWidth 32 = efer.setWidth 32 ||| 0x100 := by
    simp
  rw [← hhigh, ← hlow]
  exact Bits.append_halves (v := 32) (w := 32) (efer ||| 0x100)

/-! ### The effects of the blocks

The general registers are only used within a block, so what they hold after it is
left open. -/

theorem execBlock_code16 (hpe : m.cr0.getLsbD bitPe = false) (hpg : m.cr0.getLsbD bitPg = false)
    (h : Prepared m.mem pml4Addr) :
    ∃ regs segs, execBlock code16 m = some { m with
      ip := m.ip + 0x16, regs := regs, segs := segs, interrupts := false, cr0 := m.cr0 ||| 1,
      efer := setLma m.efer false, gdtLimit := 0x27, gdtBase := 0x8088 } := by
  have hcr0 : (m.cr0.setWidth 64 ||| (1 : Byte).setWidth 64).setWidth 32 = m.cr0 ||| 1 := by
    simp
  have hpg' : (m.cr0 ||| 1).getLsbD bitPg = false := by
    rw [BitVec.getLsbD_or, hpg]
    rfl
  -- `ds` is 0 when the descriptor of the GDT is read
  have hss : DataSeg.ds ≠ DataSeg.ss := by decide
  have hes : DataSeg.ds ≠ DataSeg.es := by decide
  have hlimit : readNat m.mem ((0#16).toNat * 16 + (0x8080 : BitVec 16).toNat) 2 = 0x27 := h.gdtr.1
  have hbase : readNat m.mem ((0#16).toNat * 16 + (0x8080 : BitVec 16).toNat + 2) 3 = 0x8088 :=
    h.gdtr.2.1
  simp only [code16, execBlock, exec, Machine.loadData, Option.bind_some, Option.map_some,
    Machine.setReg16, Machine.setReg, Machine.setReg32, hpe, if_true, Machine.readCr,
    Machine.writeCr, Machine.reg32, Machine.reg16, Function.update_self,
    Function.update_of_ne hss, Function.update_of_ne hes, hcr0, hpg', Bool.false_eq_true,
    false_and, if_false, setWidth_append_low, BitVec.xor_self, Bool.false_and, hlimit, hbase]
  exact ⟨_, _, rfl⟩

theorem GdtLoaded.execBlock_code32Segments (h : GdtLoaded m pml4Addr) :
    ∃ regs segs, (segs .ds).base = 0 ∧
      execBlock code32Segments m = some { m with
        ip := m.ip + 14, regs := regs, segs := segs } := by
  have hblock : code32Segments = (.movImm16 rax 0x10, 4) ::
      [.ds, .es, .fs, .gs, .ss].map fun seg => (.movSeg seg rax, 2) := rfl
  let m₀ := ({ m with ip := m.ip + 4 } : Machine).setReg16 rax 0x10
  have h₀ : GdtLoaded m₀ pml4Addr := ⟨h.pe, h.limit, h.base, h.page⟩
  have hload : ∀ seg ∈ [DataSeg.ds, .es, .fs, .gs, .ss],
      m₀.loadData seg (m₀.reg16 rax) = some ⟨0x10, 0⟩ := by
    intro seg _
    rw [Machine.reg16_setReg16]
    exact h₀.loadData_flat seg
  rw [hblock]
  exact ⟨_, _, rfl, execBlock_movSegs _ m₀ hload⟩

theorem execBlock_code32Pae (m : Machine) :
    ∃ regs, execBlock code32Pae m = some { m with
      ip := m.ip + 9, regs := regs, cr4 := m.cr4 ||| 0x20 } := by
  have hcr4 : ((((m.cr4.setWidth 64).setWidth 32 ||| 0x20).setWidth 64).setWidth 32) =
      m.cr4 ||| 0x20 := by
    simp
  have hpae : (m.cr4 ||| 0x20).getLsbD bitPae = true := by
    rw [BitVec.getLsbD_or, show (0x20 : BitVec 32).getLsbD bitPae = true from rfl, Bool.or_true]
  simp only [code32Pae, execBlock, exec, Option.bind_some, Machine.setReg, Machine.setReg32,
    Machine.readCr, Machine.writeCr, Machine.reg32, Function.update_self, hcr4, hpae,
    Bool.true_eq_false, and_false, if_false]
  exact ⟨_, rfl⟩

theorem execBlock_code32Cr3 (hds : (m.segs .ds).base = 0) (h : Prepared m.mem pml4Addr) :
    ∃ regs, execBlock code32Cr3 m = some { m with
      ip := m.ip + 8, regs := regs, cr3 := (pml4Addr.setWidth 32).setWidth 64 } := by
  have hload : load 32 m.mem (0 + (0x8F00 : BitVec 32).toNat) = pml4Addr.setWidth 32 :=
    h.load_pml4Addr
  have hcr3 : (((pml4Addr.setWidth 32).setWidth 64).setWidth 32) = pml4Addr.setWidth 32 := by
    simp
  simp only [code32Cr3, execBlock, exec, Option.bind_some, Machine.setReg, Machine.setReg32,
    Machine.writeCr, Machine.reg32, Function.update_self, hds, hload, hcr3]
  exact ⟨_, rfl⟩

theorem execBlock_code32Lme (hpg : m.cr0.getLsbD bitPg = false) :
    ∃ regs, execBlock code32Lme m = some { m with
      ip := m.ip + 14, regs := regs,
      efer := setLma (m.efer ||| 0x100) (m.efer.getLsbD bitLma) } := by
  let m₁ := ({ m with ip := m.ip + 5 } : Machine).setReg32 rcx msrEfer
  let m₂ := (({ m₁ with ip := m₁.ip + 2 } : Machine).setReg32 rax (m.efer.setWidth 32)).setReg32
    rdx ((m.efer >>> 32).setWidth 32)
  let m₃ := ({ m₂ with ip := m₂.ip + 5 } : Machine).setReg32 rax (m₂.reg32 rax ||| 0x100)
  -- what is read and written is EFER
  have hecx₁ : m₁.reg32 rcx = msrEfer := Machine.reg32_setReg32 ..
  have hecx₃ : m₃.reg32 rcx = msrEfer := by
    rw [Machine.reg32_setReg32_of_ne (by decide)]
    show m₂.reg32 rcx = msrEfer
    rw [Machine.reg32_setReg32_of_ne (by decide), Machine.reg32_setReg32_of_ne (by decide)]
    exact hecx₁
  have heax₂ : m₂.reg32 rax = m.efer.setWidth 32 := by
    rw [Machine.reg32_setReg32_of_ne (by decide), Machine.reg32_setReg32]
  have heax₃ : m₃.reg32 rax = m.efer.setWidth 32 ||| 0x100 := by
    rw [Machine.reg32_setReg32, heax₂]
  have hedx₃ : m₃.reg32 rdx = (m.efer >>> 32).setWidth 32 := by
    rw [Machine.reg32_setReg32_of_ne (by decide)]
    exact Machine.reg32_setReg32 ..
  have hmov : exec (.movImm32 rcx 0xC0000080) { m with ip := m.ip + 5 } = some m₁ := rfl
  have hrdmsr : exec .rdmsr { m₁ with ip := m₁.ip + 2 } = some m₂ := exec_rdmsr hecx₁
  have hor : exec (.or32 rax 0x100) { m₂ with ip := m₂.ip + 5 } = some m₃ := rfl
  have hwrmsr : exec .wrmsr { m₃ with ip := m₃.ip + 2 } =
      ({ m₃ with ip := m₃.ip + 2 } : Machine).writeEfer (m₃.reg32 rdx ++ m₃.reg32 rax) :=
    exec_wrmsr hecx₃
  have hblock : execBlock code32Lme m =
      ({ m₃ with ip := m₃.ip + 2 } : Machine).writeEfer (m₃.reg32 rdx ++ m₃.reg32 rax) := by
    simp only [code32Lme, execBlock, hmov, hrdmsr, hor, hwrmsr, Option.bind_some,
      Option.bind_fun_some]
  have hnotPg : ¬ (m.cr0.getLsbD bitPg = true ∧
      (m.efer ||| 0x100).getLsbD bitLme ≠ m.efer.getLsbD bitLme) := by
    rw [hpg]
    exact fun h => Bool.false_ne_true h.1
  rw [hblock, heax₃, hedx₃, append_halves_or]
  exact ⟨_, if_neg hnotPg⟩

theorem execBlock_code32Pg (hpe : m.cr0.getLsbD bitPe = true) (hpae : m.cr4.getLsbD bitPae = true)
    (hlme : m.efer.getLsbD bitLme = true) :
    ∃ regs, execBlock code32Pg m = some { m with
      ip := m.ip + 11, regs := regs, cr0 := m.cr0 ||| 0x80000000,
      efer := setLma m.efer true } := by
  have hcr0 : ((((m.cr0.setWidth 64).setWidth 32 ||| 0x80000000).setWidth 64).setWidth 32) =
      m.cr0 ||| 0x80000000 := by
    simp
  have hpe' : (m.cr0 ||| 0x80000000).getLsbD bitPe = true := by
    rw [BitVec.getLsbD_or, hpe, Bool.true_or]
  have hpg : (m.cr0 ||| 0x80000000).getLsbD bitPg = true := by
    rw [BitVec.getLsbD_or, show (0x80000000 : BitVec 32).getLsbD bitPg = true from rfl,
      Bool.or_true]
  simp only [code32Pg, execBlock, exec, Option.bind_some, Machine.setReg, Machine.setReg32,
    Machine.readCr, Machine.writeCr, Machine.reg32, Function.update_self, hcr0, hpe', hpg, hpae,
    hlme, Bool.true_eq_false, and_false, or_false, if_false, Bool.true_and]
  exact ⟨_, rfl⟩

/-- What the 32-bit part makes of EFER. -/
def eferOf (efer : BitVec 64) : BitVec 64 :=
  setLma (setLma (efer ||| 0x100) (efer.getLsbD bitLma)) true

theorem GdtLoaded.execBlock_code32 (h : GdtLoaded m pml4Addr)
    (hpg : m.cr0.getLsbD bitPg = false) :
    ∃ regs segs, execBlock code32 m = some { m with
      ip := m.ip + 0x38, regs := regs, segs := segs, cr0 := m.cr0 ||| 0x80000000,
      cr3 := (pml4Addr.setWidth 32).setWidth 64, cr4 := m.cr4 ||| 0x20,
      efer := eferOf m.efer } := by
  obtain ⟨regs₁, segs, hds, hsegments⟩ := h.execBlock_code32Segments
  let m₁ : Machine := { m with ip := m.ip + 14, regs := regs₁, segs := segs }
  obtain ⟨regs₂, hpae⟩ := execBlock_code32Pae m₁
  let m₂ : Machine := { m₁ with ip := m₁.ip + 9, regs := regs₂, cr4 := m.cr4 ||| 0x20 }
  obtain ⟨regs₃, hcr3⟩ := execBlock_code32Cr3 (m := m₂) hds h.page
  let m₃ : Machine :=
    { m₂ with ip := m₂.ip + 8, regs := regs₃, cr3 := (pml4Addr.setWidth 32).setWidth 64 }
  obtain ⟨regs₄, hlme⟩ := execBlock_code32Lme (m := m₃) hpg
  let m₄ : Machine := { m₃ with
    ip := m₃.ip + 14, regs := regs₄
    efer := setLma (m.efer ||| 0x100) (m.efer.getLsbD bitLma) }
  have hpaeBit : m₄.cr4.getLsbD bitPae = true := by
    show (m.cr4 ||| 0x20).getLsbD bitPae = true
    rw [BitVec.getLsbD_or, show (0x20 : BitVec 32).getLsbD bitPae = true from rfl, Bool.or_true]
  have hlmeBit : m₄.efer.getLsbD bitLme = true := by
    show (setLma (m.efer ||| 0x100) _).getLsbD bitLme = true
    rw [getLsbD_setLma, if_neg (by decide), BitVec.getLsbD_or,
      show (0x100 : BitVec 64).getLsbD bitLme = true from rfl, Bool.or_true]
  obtain ⟨regs₅, hpgBlock⟩ := execBlock_code32Pg (m := m₄) h.pe hpaeBit hlmeBit
  refine ⟨regs₅, segs, ?_⟩
  rw [code32, execBlock_append, hsegments, Option.bind_some, execBlock_append, hpae,
    Option.bind_some, execBlock_append, hcr3, Option.bind_some, execBlock_append, hlme,
    Option.bind_some, hpgBlock]
  rfl

/-! ### From the startup IPI to 64-bit mode -/

variable {m' : Machine}

/-- The 16-bit part, with the far jump at its end. -/
theorem reaches_part16 (h : Prepared m.mem pml4Addr) (hpe : m.cr0.getLsbD bitPe = false)
    (hpg : m.cr0.getLsbD bitPg = false) (hcs : m.cs.base = trampolinePhys) (hip : m.ip = 0)
    (hsize : m.size = .bits16) :
    ∃ regs segs, ∀ m', Reaches longModePhys m m' ↔ Reaches longModePhys { m with
      ip := 0x8020, cs := ⟨0x08, 0⟩, size := .bits32, regs := regs, segs := segs,
      interrupts := false, cr0 := m.cr0 ||| 1, efer := setLma m.efer false, gdtLimit := 0x27,
      gdtBase := 0x8088 } m' := by
  obtain ⟨regs, segs, hblock⟩ := execBlock_code16 hpe hpg h
  let m₁ : Machine := { m with
    ip := m.ip + 0x16, regs := regs, segs := segs, interrupts := false, cr0 := m.cr0 ||| 1,
    efer := setLma m.efer false, gdtLimit := 0x27, gdtBase := 0x8088 }
  let m₂ : Machine := { m₁ with ip := 0x8020, cs := ⟨0x08, 0⟩, size := .bits32 }
  have hpe₁ : (m.cr0 ||| 1).getLsbD bitPe = true := by
    rw [BitVec.getLsbD_or, show (1 : BitVec 32).getLsbD bitPe = true from rfl, Bool.or_true]
  have hgdt : GdtLoaded { m₁ with ip := m₁.ip + 8 } pml4Addr := ⟨hpe₁, rfl, rfl, h⟩
  have hjump : exec (.jmpFar 0x08 0x8020) { m₁ with ip := m₁.ip + 8 } = some m₂ := by
    show (Machine.loadCode { m₁ with ip := m₁.ip + 8 } 0x08 0x8020).map _ = _
    rw [hgdt.loadCode_32]
    rfl
  have hip₀ : m.linearIp = trampolinePhys + 0 := by
    rw [Machine.linearIp, hcs, hip]
  have hip₁ : m₁.linearIp = trampolinePhys + 0x16 := by
    show m.cs.base + (m.ip + 0x16) = _
    rw [hcs, hip]
  refine ⟨regs, segs, fun m' => ?_⟩
  rw [h.code.reaches_block disassemble_code16 hsize hip₀ (by decide) (by decide), hblock]
  simp only [Option.some.injEq, exists_eq_left']
  rw [CodeUpTo.reaches_step (m := m₁) h.code disassemble_jump16 hsize hip₁ (by decide), hjump]
  simp only [Option.some.injEq, exists_eq_left']
  rfl

/-- The 32-bit part, with the far jump at its end. -/
theorem GdtLoaded.reaches_part32 (h : GdtLoaded m pml4Addr) (hpg : m.cr0.getLsbD bitPg = false)
    (hcs : m.cs.base = 0) (hip : m.ip = 0x8020) (hsize : m.size = .bits32) :
    ∃ regs segs, ∀ m', Reaches longModePhys m m' ↔ m' = { m with
      ip := 0x8060, cs := ⟨0x18, 0⟩, size := .bits64, regs := regs, segs := segs,
      cr0 := m.cr0 ||| 0x80000000, cr3 := (pml4Addr.setWidth 32).setWidth 64,
      cr4 := m.cr4 ||| 0x20, efer := eferOf m.efer } := by
  obtain ⟨regs, segs, hblock⟩ := h.execBlock_code32 hpg
  let m₁ : Machine := { m with
    ip := m.ip + 0x38, regs := regs, segs := segs, cr0 := m.cr0 ||| 0x80000000,
    cr3 := (pml4Addr.setWidth 32).setWidth 64, cr4 := m.cr4 ||| 0x20, efer := eferOf m.efer }
  let m₂ : Machine := { m₁ with ip := 0x8060, cs := ⟨0x18, 0⟩, size := .bits64 }
  have hpe₁ : (m.cr0 ||| 0x80000000).getLsbD bitPe = true := by
    rw [BitVec.getLsbD_or, h.pe, Bool.true_or]
  have hlma : (eferOf m.efer).getLsbD bitLma = true := by
    rw [eferOf, getLsbD_setLma, if_pos rfl]
  have hgdt : GdtLoaded { m₁ with ip := m₁.ip + 7 } pml4Addr := ⟨hpe₁, h.limit, h.base, h.page⟩
  have hjump : exec (.jmpFar 0x18 0x8060) { m₁ with ip := m₁.ip + 7 } = some m₂ := by
    show (Machine.loadCode { m₁ with ip := m₁.ip + 7 } 0x18 0x8060).map _ = _
    rw [hgdt.loadCode_64 hlma]
    rfl
  have hip₀ : m.linearIp = trampolinePhys + 0x20 := by
    rw [Machine.linearIp, hcs, hip, trampolinePhys]
  have hip₁ : m₁.linearIp = trampolinePhys + 0x58 := by
    show m.cs.base + (m.ip + 0x38) = _
    rw [hcs, hip, trampolinePhys]
  have hip₂ : m₂.linearIp = longModePhys := by
    show 0 + 0x8060 = longModePhys
    rw [longModePhys]
  refine ⟨regs, segs, fun m' => ?_⟩
  rw [h.page.code.reaches_block disassemble_code32 hsize hip₀ (by decide) (by decide), hblock]
  simp only [Option.some.injEq, exists_eq_left']
  rw [CodeUpTo.reaches_step (m := m₁) h.page.code disassemble_jump32 hsize hip₁ (by decide), hjump]
  simp only [Option.some.injEq, exists_eq_left']
  exact reaches_iff_of_eq hip₂

/-- The far jumps of the trampoline. -/
theorem filterMap_farTarget :
    (code16 ++ jump16 ++ (code32 ++ jump32)).filterMap (fun x => farTarget x.1) =
      [(0x08, 0x8020), (0x18, 0x8060)] := rfl

theorem jumpsAligned (h : Prepared m.mem pml4Addr) : JumpsAligned m.mem 0x27 := by
  refine ⟨code16 ++ jump16, code32 ++ jump32, code64Stack,
    disassemble_congr h.code disassemble_part16 (by decide), rfl,
    disassemble_congr h.code disassemble_part32 (by decide), rfl,
    disassemble_congr h.code disassemble_code64Stack (by decide), ?_⟩
  intro x hx target htarget
  have hmem : target ∈ (code16 ++ jump16 ++ (code32 ++ jump32)).filterMap
      (fun x => farTarget x.1) := List.mem_filterMap.mpr ⟨x, hx, htarget⟩
  rw [filterMap_farTarget, List.mem_cons, List.mem_singleton] at hmem
  rcases hmem with rfl | rfl
  · exact ⟨by decide, List.mem_append_left _ (List.mem_append_right _ List.mem_cons_self)⟩
  · exact ⟨by decide, List.mem_append_right _ List.mem_cons_self⟩

/-- The state in which an AP that starts in `m` gets to 64-bit mode. -/
def longModeState (m : Machine) (pml4Addr : BitVec 64) (regs : Reg → BitVec 64)
    (segs : DataSeg → Segment) : Machine :=
  { m with
    ip := 0x8060, cs := ⟨0x18, 0⟩, size := .bits64, regs := regs, segs := segs,
    interrupts := false, cr0 := m.cr0 ||| 1 ||| 0x80000000,
    cr3 := (pml4Addr.setWidth 32).setWidth 64, cr4 := m.cr4 ||| 0x20,
    efer := eferOf (setLma m.efer false), gdtLimit := 0x27, gdtBase := 0x8088 }

theorem reaches_longMode (pml4Addr stackTop entryPoint : BitVec 64) (cpuIndex : BitVec 32)
    (hpe : m.cr0.getLsbD bitPe = false) (hpg : m.cr0.getLsbD bitPg = false) :
    ∃ regs segs, ∀ m', Reaches longModePhys (startup m pml4Addr stackTop entryPoint cpuIndex) m' ↔
      m' = longModeState (startup m pml4Addr stackTop entryPoint cpuIndex) pml4Addr regs segs := by
  have h := prepared_install m.mem pml4Addr stackTop entryPoint cpuIndex
  obtain ⟨regs₁, segs₁, h16⟩ := reaches_part16
    (m := startup m pml4Addr stackTop entryPoint cpuIndex) h hpe hpg rfl rfl rfl
  let m₁ : Machine := { startup m pml4Addr stackTop entryPoint cpuIndex with
    ip := 0x8020, cs := ⟨0x08, 0⟩, size := .bits32, regs := regs₁, segs := segs₁,
    interrupts := false, cr0 := m.cr0 ||| 1, efer := setLma m.efer false, gdtLimit := 0x27,
    gdtBase := 0x8088 }
  have hpe₁ : (m.cr0 ||| 1).getLsbD bitPe = true := by
    rw [BitVec.getLsbD_or, show (1 : BitVec 32).getLsbD bitPe = true from rfl, Bool.or_true]
  have hpg₁ : (m.cr0 ||| 1).getLsbD bitPg = false := by
    rw [BitVec.getLsbD_or, hpg]
    rfl
  have hgdt : GdtLoaded m₁ pml4Addr := ⟨hpe₁, rfl, rfl, h⟩
  obtain ⟨regs, segs, h32⟩ := hgdt.reaches_part32 hpg₁ rfl rfl rfl
  exact ⟨regs, segs, fun m' => (h16 m').trans (h32 m')⟩

section

variable (m : Machine) (pml4Addr : BitVec 64) (regs : Reg → BitVec 64) (segs : DataSeg → Segment)

theorem getLsbD_cr0 (i : ℕ) :
    (longModeState m pml4Addr regs segs).cr0.getLsbD i =
      if i = bitPg then true else if i = bitPe then true else m.cr0.getLsbD i := by
  show (m.cr0 ||| BitVec.twoPow 32 bitPe ||| BitVec.twoPow 32 bitPg).getLsbD i = _
  rw [Bits.getLsbD_set (by decide), Bits.getLsbD_set (by decide)]

theorem getLsbD_cr4 (i : ℕ) :
    (longModeState m pml4Addr regs segs).cr4.getLsbD i =
      if i = bitPae then true else m.cr4.getLsbD i := by
  show (m.cr4 ||| BitVec.twoPow 32 bitPae).getLsbD i = _
  rw [Bits.getLsbD_set (by decide)]

theorem getLsbD_efer (i : ℕ) :
    (longModeState m pml4Addr regs segs).efer.getLsbD i =
      if i = bitLma then true else if i = bitLme then true else m.efer.getLsbD i := by
  show (setLma (setLma (setLma m.efer false ||| BitVec.twoPow 64 bitLme) _) true).getLsbD i = _
  rw [getLsbD_setLma, getLsbD_setLma, Bits.getLsbD_set (by decide)]
  by_cases hi : i = bitLma
  · simp [hi]
  · simp [hi, getLsbD_setLma]

/-- The page table is the only thing that can be wrong. -/
theorem inLongMode_iff (h : Prepared m.mem pml4Addr) :
    InLongMode m (longModeState m pml4Addr regs segs) pml4Addr ↔ pml4Addr.toNat < 2 ^ 32 := by
  have hcr3 : (longModeState m pml4Addr regs segs).cr3 = (pml4Addr.setWidth 32).setWidth 64 := rfl
  constructor
  · intro hlong
    have hlow := (pml4Addr.setWidth 32).isLt
    have hsame := congrArg BitVec.toNat hlong.cr3
    rw [hcr3, BitVec.toNat_setWidth, Nat.mod_eq_of_lt (by omega)] at hsame
    omega
  · intro hlt
    have hpe : (longModeState m pml4Addr regs segs).cr0.getLsbD bitPe = true := by
      rw [getLsbD_cr0, if_neg (by decide), if_pos rfl]
    have hgdt : GdtLoaded (longModeState m pml4Addr regs segs) pml4Addr := ⟨hpe, rfl, rfl, h⟩
    constructor
    case interrupts => rfl
    case pe => exact hpe
    case pg => rw [getLsbD_cr0, if_pos rfl]
    case cr0 =>
      intro i hne hne'
      rw [getLsbD_cr0, if_neg hne', if_neg hne]
    case pae => rw [getLsbD_cr4, if_pos rfl]
    case cr4 =>
      intro i hne
      rw [getLsbD_cr4, if_neg hne]
    case lme => rw [getLsbD_efer, if_neg (by decide), if_pos rfl]
    case efer =>
      intro i hne hne'
      rw [getLsbD_efer, if_neg hne', if_neg hne]
    case cr3 =>
      apply BitVec.eq_of_toNat_eq
      rw [hcr3, BitVec.toNat_setWidth, BitVec.toNat_setWidth, Nat.mod_eq_of_lt hlt,
        Nat.mod_eq_of_lt pml4Addr.isLt]
    case size => rfl
    case cs => rfl
    case gdt => exact ⟨h.gdtr.1.symm, h.gdtr.2.2.symm⟩
    case descriptor =>
      exact ⟨_, hgdt.descriptor_64, by decide, by decide, by decide, by decide, by decide⟩

end

/-- **When the mode switch is correct.** Whatever the registers, CR4 and EFER are
at the startup IPI, the AP gets from there to 64-bit mode as it should exactly if
the page table is below 4 GiB. -/
theorem switches_mode_iff (m : Machine) (pml4Addr stackTop entryPoint : BitVec 64)
    (cpuIndex : BitVec 32) (hpe : m.cr0.getLsbD bitPe = false)
    (hpg : m.cr0.getLsbD bitPg = false) :
    SwitchesMode m pml4Addr stackTop entryPoint cpuIndex ↔ pml4Addr.toNat < 2 ^ 32 := by
  have h := prepared_install m.mem pml4Addr stackTop entryPoint cpuIndex
  obtain ⟨regs, segs, hreaches⟩ := reaches_longMode pml4Addr stackTop entryPoint cpuIndex hpe hpg
  constructor
  · rintro ⟨after, hafter, hlong, -⟩
    obtain rfl := (hreaches after).mp hafter
    exact (inLongMode_iff _ _ _ _ h).mp hlong
  · intro hlt
    exact ⟨_, (hreaches _).mpr rfl, (inLongMode_iff _ _ _ _ h).mpr hlt,
      jumpsAligned (m := startup m pml4Addr stackTop entryPoint cpuIndex) h⟩

/-- An AP after INIT, in memory that is all zero. -/
def apAfterInit : Machine where
  regs _ := 0
  ip := 0
  cs := ⟨0x0800, 0x8000⟩
  size := .bits16
  segs _ := ⟨0, 0⟩
  interrupts := false
  cr0 := 0x60000010
  cr3 := 0
  cr4 := 0
  efer := 0
  gdtLimit := 0xFFFF
  gdtBase := 0
  mem _ := 0

theorem switches_mode_below_4g : SwitchesMode apAfterInit 0x1000 0x90000 0x100000 1 :=
  (switches_mode_iff apAfterInit 0x1000 0x90000 0x100000 1 (by decide) (by decide)).mpr (by decide)

/-- With its page table at 4 GiB, an AP enters 64-bit mode with CR3 = 0. -/
theorem page_table_truncated :
    (∃ m', Reaches longModePhys (startup apAfterInit 0x100000000 0x90000 0x100000 1) m' ∧
      m'.size = .bits64 ∧ m'.cr3 = 0) ∧
    ¬ SwitchesMode apAfterInit 0x100000000 0x90000 0x100000 1 := by
  have h := prepared_install apAfterInit.mem 0x100000000 0x90000 0x100000 1
  obtain ⟨regs, segs, hreaches⟩ := reaches_longMode (m := apAfterInit) 0x100000000 0x90000
    0x100000 1 (by decide) (by decide)
  have hcr3 : ((0x100000000 : BitVec 64).setWidth 32).setWidth 64 = 0 := by decide
  refine ⟨⟨_, (hreaches _).mpr rfl, rfl, hcr3⟩, ?_⟩
  rintro ⟨after, hafter, hlong, -⟩
  obtain rfl := (hreaches after).mp hafter
  exact absurd ((inLongMode_iff _ _ _ _ h).mp hlong) (by decide)

end

end SmpNostd.Trampoline
