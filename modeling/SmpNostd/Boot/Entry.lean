import SmpNostd.Boot.Trampoline

/-!
The 64-bit part of the trampoline, up to the call of the entry point.

It was written for a mailbox whose index is at offset 0x14 and whose ready flag
is at offset 0x18. But the entry point takes up 8 bytes, so the index is at 0x18
and the flag at 0x1C. So the signal overwrites the index and leaves the flag
alone, and the index that is passed on is made up of the upper half of the entry
point and the signal.
-/

namespace SmpNostd.Trampoline

open Memory X86

/-- The address of the `call rax`. -/
def callPhys : ℕ := 0x8094

/-- A processor about to run the 64-bit part, with the code as it was authored
at its place and the mailbox filled in. Everything else is as in `m`. -/
def start64 (m : Machine) (pml4Addr stackTop entryPoint : BitVec 64) (cpuIndex : BitVec 32) :
    Machine :=
  { m with
    ip := 0x8060
    cs := ⟨0x18, 0⟩
    size := .bits64
    mem := setApData (copy m.mem trampolinePhys trampolineCode) pml4Addr stackTop entryPoint
      cpuIndex }

/-- What is to hold when the AP calls its entry point. -/
structure Enters (m : Machine) (pml4Addr stackTop entryPoint : BitVec 64) (cpuIndex : BitVec 32) :
    Prop where
  call : (decode m.size fun k => m.mem (m.linearIp + k)) = some (.call rax, 2)
  rsp : m.regs rsp = stackTop
  rdi : m.regs rdi = cpuIndex.setWidth 64
  target : m.regs rax = entryPoint
  ready : isApReady m.mem = true
  mailbox : Contains m.mem pml4Addr stackTop entryPoint cpuIndex 1

/-- The 64-bit part reads the mailbox that `set_ap_data` wrote. -/
def ReadsMailbox (m : Machine) (pml4Addr stackTop entryPoint : BitVec 64) (cpuIndex : BitVec 32) :
    Prop :=
  ∃ m', Reaches callPhys (start64 m pml4Addr stackTop entryPoint cpuIndex) m' ∧
    Enters m' pml4Addr stackTop entryPoint cpuIndex

variable {m m' : Machine}

/-- The last of the instructions before the signal loads the stack pointer. -/
theorem execBlock_code64Stack (h : execBlock code64Stack m = some m') :
    m'.regs rsp = load 64 m.mem 0x8F08 := by
  have hsplit : code64Stack = code64Stack.take 7 ++ [(.load64 rsp 0x8F08, 8)] := rfl
  rw [hsplit, execBlock_append] at h
  obtain ⟨m₀, hsegments, hload⟩ := Option.bind_eq_some_iff.mp h
  have hmem : m₀.mem = m.mem := (execBlock_straight (by decide) hsegments).1
  obtain rfl := Option.some.inj hload
  rw [← hmem]
  rfl

/-- The effect of the signal. -/
def afterSignal (m : Machine) : Machine :=
  { m with ip := m.ip + 11, mem := store m.mem 0x8F18 (1 : BitVec 32) }

/-- The effect of the signal and of what comes after it. -/
def afterArgs (m : Machine) : Machine :=
  { afterSignal m with
    ip := m.ip + 27
    regs := Function.update (Function.update m.regs rdi (load 64 (afterSignal m).mem 0x8F14)) rax
      (load 64 (afterSignal m).mem 0x8F10) }

/-- The signal is not written over the code. -/
theorem CodeUpTo.afterSignal (hcode : CodeUpTo 154 m.mem) :
    CodeUpTo 154 (Trampoline.afterSignal m).mem := by
  intro k hk
  have hbelow : trampolinePhys + k < 0x8F18 := by
    simp only [trampolinePhys]
    omega
  show store m.mem 0x8F18 (1 : BitVec 32) (trampolinePhys + k) = codeByte k
  rw [store, overlay_outside (.inl hbelow), hcode k hk]

theorem reaches_call_of_stack (hcode : CodeUpTo 154 m.mem)
    (hip : m.linearIp = trampolinePhys + 0x79) (hsize : m.size = .bits64) :
    Reaches callPhys m m' ↔ m' = afterArgs m := by
  have hsignal : exec (.store32 0x8F18 1) { m with ip := m.ip + 11 } = some (afterSignal m) := rfl
  have hargs : execBlock code64Args (afterSignal m) = some (afterArgs m) := rfl
  have hip₁ : (afterSignal m).linearIp = trampolinePhys + 0x84 := by
    rw [Machine.linearIp, afterSignal, ← Nat.add_assoc]
    exact congrArg (· + 11) hip
  have hip₂ : (afterArgs m).linearIp = callPhys := by
    rw [Machine.linearIp, afterArgs, ← Nat.add_assoc]
    exact congrArg (· + 27) hip
  rw [hcode.reaches_step disassemble_code64Signal hsize hip (by decide), hsignal]
  simp only [Option.some.injEq, exists_eq_left']
  rw [hcode.afterSignal.reaches_block disassemble_code64Args hsize hip₁ (by decide) (by decide),
    hargs]
  simp only [Option.some.injEq, exists_eq_left']
  exact reaches_iff_of_eq hip₂

/-- How the AP gets to the call. -/
theorem reaches_call_iff (hcode : CodeUpTo 154 m.mem) (hip : m.linearIp = trampolinePhys + 0x60)
    (hsize : m.size = .bits64) :
    Reaches callPhys m m' ↔ ∃ m₁, execBlock code64Stack m = some m₁ ∧ m' = afterArgs m₁ := by
  rw [hcode.reaches_block disassemble_code64Stack hsize hip (by decide) (by decide)]
  apply exists_congr
  intro m₁
  apply and_congr_right
  intro hstack
  obtain ⟨hmem₁, hcs₁, hsize₁, hip₁⟩ := execBlock_straight (by decide) hstack
  have hcode₁ : CodeUpTo 154 m₁.mem := hmem₁ ▸ hcode
  refine reaches_call_of_stack hcode₁ ?_ (hsize₁.trans hsize)
  rw [Machine.linearIp, hcs₁, hip₁, ← Nat.add_assoc]
  exact congrArg (· + 25) hip

/-- Eight bytes that lie across the entry point and the signal. -/
theorem toNat_load_across {mem : Mem} {entryPoint : BitVec 64}
    (hentry : load 64 mem 0x8F10 = entryPoint) (hsignal : load 32 mem 0x8F18 = 1) :
    (load 64 mem 0x8F14).toNat = entryPoint.toNat / 2 ^ 32 + 2 ^ 32 := by
  have hentry₁ : readNat mem 0x8F10 8 = entryPoint.toNat := by
    rw [← hentry]
    exact (toNat_load (w := 64) (by decide) mem 0x8F10).symm
  have hsignal₁ : readNat mem 0x8F18 4 = 1 := by
    rw [← show (load 32 mem 0x8F18).toNat = 1 by rw [hsignal]; rfl]
    exact (toNat_load (w := 32) (by decide) mem 0x8F18).symm
  have hread : (load 64 mem 0x8F14).toNat = readNat mem 0x8F14 8 :=
    toNat_load (by decide) mem 0x8F14
  have hlow := readNat_lt mem 0x8F10 4
  have hsplit := readNat_add mem 0x8F10 4 4
  have hacross := readNat_add mem 0x8F14 4 4
  norm_num at hlow hsplit hacross
  omega

section

variable {pml4Addr stackTop entryPoint : BitVec 64} {cpuIndex : BitVec 32}

theorem codeUpTo_start64 :
    CodeUpTo 154 (start64 m pml4Addr stackTop entryPoint cpuIndex).mem := by
  intro k hk
  have hbelow : trampolinePhys + k < trampolineDataPhys :=
    Nat.add_lt_add_left (by rw [trampolineDataOffset]; omega) _
  show setApData _ _ _ _ _ _ = _
  rw [setApData_of_lt _ _ _ _ _ hbelow, holds_copy _ _ _ k (by rwa [length_trampolineCode])]
  rfl

theorem linearIp_start64 :
    (start64 m pml4Addr stackTop entryPoint cpuIndex).linearIp = trampolinePhys + 0x60 := by
  simp [Machine.linearIp, start64, trampolinePhys]

/-- The signal is where the index was. -/
theorem Contains.afterSignal (h : Contains m.mem pml4Addr stackTop entryPoint cpuIndex 0) :
    Contains (Trampoline.afterSignal m).mem pml4Addr stackTop entryPoint 1 0 where
  pml4Addr := (load_store_disjoint (by decide)).trans h.pml4Addr
  stackTop := (load_store_disjoint (by decide)).trans h.stackTop
  entryPoint := (load_store_disjoint (by decide)).trans h.entryPoint
  cpuIndex := load_store_self (by decide) _
  apReady := (load_store_disjoint (by decide)).trans h.apReady

/-- What the AP has when it gets to the call: the stack and the entry point are
right, the index is the upper half of the entry point with the signal in front of
it, and in the mailbox the index has been overwritten, not the flag. -/
theorem mailbox_at_call
    (h : Reaches callPhys (start64 m pml4Addr stackTop entryPoint cpuIndex) m') :
    m'.regs rsp = stackTop ∧ m'.regs rax = entryPoint ∧
      (m'.regs rdi).toNat = entryPoint.toNat / 2 ^ 32 + 2 ^ 32 ∧
      Contains m'.mem pml4Addr stackTop entryPoint 1 0 := by
  obtain ⟨m₁, hstack, rfl⟩ := (reaches_call_iff codeUpTo_start64 linearIp_start64 rfl).mp h
  have hbefore : Contains m₁.mem pml4Addr stackTop entryPoint cpuIndex 0 := by
    rw [(execBlock_straight (by decide) hstack).1]
    exact contains_setApData _ _ _ _ _
  have hafter := hbefore.afterSignal
  have hstackTop := (contains_setApData (copy m.mem trampolinePhys trampolineCode) pml4Addr
    stackTop entryPoint cpuIndex).stackTop
  have hentry := hafter.entryPoint
  have hindex := hafter.cpuIndex
  rw [addr_stackTop] at hstackTop
  rw [addr_entryPoint] at hentry
  rw [addr_cpuIndex] at hindex
  have hrsp : (afterArgs m₁).regs rsp = m₁.regs rsp := rfl
  have hrdi : (afterArgs m₁).regs rdi = load 64 (afterSignal m₁).mem 0x8F14 := rfl
  have hrax : (afterArgs m₁).regs rax = load 64 (afterSignal m₁).mem 0x8F10 := rfl
  refine ⟨?_, hrax.trans hentry, ?_, hafter⟩
  · rw [hrsp, execBlock_code64Stack hstack]
    exact hstackTop
  · -- the eight bytes read lie across the entry point and the index
    rw [hrdi]
    exact toNat_load_across hentry hindex

/-- The bytes at the call. The ones behind the trampoline are not looked at. -/
theorem decode_call_rax {b : ℕ → Byte} (h₀ : b 0 = 0xFF) (h₁ : b 1 = 0xD0) :
    decode .bits64 b = some (.call rax, 2) := by
  rw [decode, h₀, h₁]
  rfl

/-- The AP gets to a call, in a segment that begins at 0. -/
theorem call_at_end (h : Reaches callPhys (start64 m pml4Addr stackTop entryPoint cpuIndex) m') :
    m'.cs.base = 0 ∧ (decode m'.size fun k => m'.mem (m'.linearIp + k)) = some (.call rax, 2) := by
  have hip := h.linearIp_eq
  obtain ⟨m₁, hstack, rfl⟩ := (reaches_call_iff codeUpTo_start64 linearIp_start64 rfl).mp h
  obtain ⟨hmem₁, hcs₁, hsize₁, -⟩ := execBlock_straight (by decide) hstack
  have hcode₁ : CodeUpTo 154 m₁.mem := hmem₁ ▸ codeUpTo_start64
  have hcode : CodeUpTo 154 (afterArgs m₁).mem := hcode₁.afterSignal
  have hsize : (afterArgs m₁).size = .bits64 := hsize₁
  refine ⟨congrArg Segment.base hcs₁, ?_⟩
  rw [hip, hsize]
  exact decode_call_rax (hcode 0x94 (by decide)) (hcode 0x95 (by decide))

end

/-- **The mailbox is misread.** Whatever the page table, the stack, the entry
point and the index are, and in whatever state the processor is, the 64-bit part
does not read the mailbox that `set_ap_data` wrote. -/
theorem mailbox_never_read (m : Machine) (pml4Addr stackTop entryPoint : BitVec 64)
    (cpuIndex : BitVec 32) : ¬ ReadsMailbox m pml4Addr stackTop entryPoint cpuIndex := by
  rintro ⟨m', hreaches, henters⟩
  obtain ⟨-, -, hrdi, -⟩ := mailbox_at_call hreaches
  have hindex := congrArg BitVec.toNat henters.rdi
  have hlt := cpuIndex.isLt
  rw [hrdi, BitVec.toNat_setWidth, Nat.mod_eq_of_lt (by omega)] at hindex
  omega

/-- An AP in 64-bit mode, with a copy of the GDT at 0x9000. -/
def apIn64 : Machine where
  regs _ := 0
  ip := 0x8060
  cs := ⟨0x18, 0⟩
  size := .bits64
  segs _ := ⟨0x10, 0⟩
  interrupts := false
  cr0 := 0x80000001
  cr3 := 0x1000
  cr4 := 0x20
  efer := 0x500
  gdtLimit := 0x27
  gdtBase := 0x9000
  mem := copy (fun _ => 0) 0x9000 trampolineGdt

theorem apIn64_reaches :
    ∃ m', Reaches callPhys (start64 apIn64 0x1000 0x90000 0x100000 2) m' := by
  have hsome :
      (execBlock code64Stack (start64 apIn64 0x1000 0x90000 0x100000 2)).isSome = true := by
    decide +kernel
  obtain ⟨m₁, hstack⟩ := Option.isSome_iff_exists.mp hsome
  exact ⟨_, (reaches_call_iff codeUpTo_start64 linearIp_start64 rfl).mpr ⟨m₁, hstack, rfl⟩⟩

/-- The AP with index 2 gets to the call of its entry point at 0x100000. It is
not seen to be ready, and takes itself for number 0x100000000. -/
theorem mailbox_misread :
    (∃ m', Reaches callPhys (start64 apIn64 0x1000 0x90000 0x100000 2) m' ∧
      m'.regs rdi = 0x100000000 ∧ isApReady m'.mem = false ∧
      load 32 m'.mem Field.cpuIndex.addr = 1) ∧
    ¬ ReadsMailbox apIn64 0x1000 0x90000 0x100000 2 := by
  obtain ⟨m', hreaches⟩ := apIn64_reaches
  obtain ⟨-, -, hrdi, hmailbox⟩ := mailbox_at_call hreaches
  have hrdi : m'.regs rdi = 0x100000000 := BitVec.eq_of_toNat_eq hrdi
  refine ⟨⟨_, hreaches, hrdi, ?_, hmailbox.cpuIndex⟩, ?_⟩
  · rw [isApReady, hmailbox.apReady]
    rfl
  · rintro ⟨m', h, henters⟩
    obtain ⟨-, -, hrdi', -⟩ := mailbox_at_call h
    rw [henters.rdi] at hrdi'
    exact absurd hrdi' (by decide)

end SmpNostd.Trampoline
