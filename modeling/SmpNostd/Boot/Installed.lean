import SmpNostd.Boot.LongMode
import SmpNostd.Lib.Interference

/-!
The trampoline as `install` leaves it, executed by an AP while the BSP and other
APs go on writing to the mailbox.

The GDT descriptor and the GDT lie over the end of the code, so what is executed
there is not what was written. The signal still goes to the word that the AP takes
for the ready flag, but its operand is made up of the descriptor's bytes; the bytes
behind it happen to be instructions that change nothing, up to one at offset 0x90
that is no instruction at all. There an AP stops, before it has loaded its arguments
and before the call; or it stops at the first of the instructions in between, which
writes to an address that the page tables may have no page for. The ready flag itself
is never written.
-/

namespace SmpNostd.Trampoline

open Memory X86 Interference

/-- The bytes of the page as `install` leaves them, by their offset. What is
copied later lies on top. -/
def pageByte (k : ℕ) : Byte :=
  if 0x88 ≤ k ∧ k < 0xB0 then trampolineGdt.getD (k - 0x88) 0
  else if 0x80 ≤ k ∧ k < 0x86 then trampolineGdtDesc.getD (k - 0x80) 0
  else codeByte k

/-- What was in the page before is not left. -/
theorem install_eq_pageByte (mem : Mem) {k : ℕ} (hk : k < pageSize) :
    install mem (trampolinePhys + k) = pageByte k := by
  have hcode : trampolineCode.length = 154 := length_trampolineCode
  unfold pageByte
  split
  · rename_i h
    have hgdt := install_gdt mem (k - 0x88) (show k - 0x88 < 40 by omega)
    rwa [Nat.add_assoc, Nat.add_sub_cancel' h.1] at hgdt
  split
  · rename_i h
    have hdesc := install_gdtDesc mem (k - 0x80) (show k - 0x80 < 6 by omega)
    rwa [Nat.add_assoc, Nat.add_sub_cancel' h.1] at hdesc
  · rename_i hgdt hdesc
    have hgdt' : trampolinePhys + k < trampolinePhys + 0x88 ∨
        trampolinePhys + 0x88 + trampolineGdt.length ≤ trampolinePhys + k := by
      show _ ∨ trampolinePhys + 0x88 + 40 ≤ _
      omega
    have hdesc' : trampolinePhys + k < trampolinePhys + 0x80 ∨
        trampolinePhys + 0x80 + trampolineGdtDesc.length ≤ trampolinePhys + k := by
      show _ ∨ trampolinePhys + 0x80 + 6 ≤ _
      omega
    simp only [install, copy]
    rw [overlay_outside hgdt', overlay_outside hdesc']
    by_cases hlt : k < 154
    · exact overlay_inside (hcode ▸ hlt)
    · rw [overlay_outside (.inr (by omega)), codeByte, List.getD_eq_getElem?_getD,
        List.getElem?_eq_none (by omega)]
      exact overlay_inside hk

/-! ### The listing of what is there -/

/-- The signal, with the descriptor over its operand. -/
def damagedSignal : Instr × ℕ := (.store32 0x8F18 0x80880027, 11)

theorem disassemble_page16 : disassemble .bits16 pageByte 0x00 9 = some code16 := rfl

theorem disassemble_pageJump16 : disassemble .bits16 pageByte 0x16 3 = some jump16 := rfl

theorem disassemble_page32 : disassemble .bits32 pageByte 0x20 18 = some code32 := rfl

theorem disassemble_pageJump32 : disassemble .bits32 pageByte 0x58 2 = some jump32 := rfl

theorem disassemble_page64 : disassemble .bits64 pageByte 0x60 8 = some code64Stack := rfl

theorem disassemble_damagedSignal :
    disassemble .bits64 pageByte 0x79 1 = some [damagedSignal] := rfl

/-- From offset 0x84: the end of the descriptor, two bytes of code, and the null
descriptor of the GDT. -/
def stray : List (ByteInstr × ℕ) :=
  [(.addAl rax, 2), (.cmpAl 0x25, 2), (.addAl rax, 2), (.addAl rax, 2), (.addAl rax, 2),
    (.addAl rax, 2)]

/-- Each of the instructions is two bytes long. -/
theorem decode_stray : ∀ k < 6, (decode .bits64 fun j => pageByte (0x84 + 2 * k + j)) = none ∧
    (decodeByte .bits64 fun j => pageByte (0x84 + 2 * k + j)) = stray[k]? := by
  decide

/-! ### What nobody changes -/

/-- The page up to the mailbox is as `install` left it, and the ready flag is
clear. -/
structure Quiet (mem : Mem) : Prop where
  page : ∀ k < trampolineDataOffset, mem (trampolinePhys + k) = pageByte k
  notReady : load 32 mem Field.apReady.addr = 0

theorem quiet_install (mem : Mem) : Quiet (install mem) where
  page k hk := install_eq_pageByte mem (hk.trans (by decide))
  notReady := by
    have hzero : load 32 (install mem) Field.apReady.addr = load 32 (fun _ => 0) 0 := by
      apply load_congr
      intro k hk
      have hlt : k < 4 := hk
      have hinside : 0xF1C + k < pageSize := by
        rw [pageSize]
        omega
      have hdata := install_data mem (k := 0xF1C + k) (Nat.le_add_right_of_le (by decide)) hinside
      rwa [← Nat.add_assoc] at hdata
    rw [hzero]
    rfl

/-- A store into the mailbox that misses the flag. -/
theorem Quiet.store {w : ℕ} {mem : Mem} (h : Quiet mem) {a : ℕ} (v : BitVec w)
    (hbelow : trampolineDataPhys ≤ a)
    (hmiss : a + w / 8 ≤ Field.apReady.addr ∨ Field.apReady.addr + 4 ≤ a) :
    Quiet (store mem a v) where
  page k hk := by
    have hlt : trampolinePhys + k < a :=
      Nat.lt_of_lt_of_le (Nat.add_lt_add_left hk _) hbelow
    rw [store_outside (.inl hlt)]
    exact h.page k hk
  notReady := by
    rw [load_store_disjoint hmiss.symm]
    exact h.notReady

/-- The flag is cleared again. -/
theorem Quiet.clear {mem : Mem} (h : Quiet mem) :
    Quiet (Memory.store mem Field.apReady.addr (0 : BitVec 32)) where
  page k hk := by
    have hlt : trampolinePhys + k < Field.apReady.addr :=
      Nat.lt_of_lt_of_le (Nat.add_lt_add_left hk _) (by decide)
    rw [store_outside (.inl hlt)]
    exact h.page k hk
  notReady := load_store_self (by decide) _

theorem Quiet.isApReady {mem : Mem} (h : Quiet mem) : isApReady mem = false := by
  rw [Trampoline.isApReady, h.notReady]
  rfl

/-- The bytes of the page are those that `install` writes into empty memory. -/
theorem Quiet.page_eq {mem : Mem} (h : Quiet mem) {k : ℕ} (hk : k < trampolineDataOffset) :
    mem (trampolinePhys + k) = install (fun _ => 0) (trampolinePhys + k) :=
  (h.page k hk).trans (install_eq_pageByte _ (hk.trans (by decide))).symm

theorem Quiet.prepared {mem : Mem} (h : Quiet mem) : Prepared mem (load 64 mem 0x8F00) where
  code k hk := by
    rw [h.page_eq (hk.trans (by decide))]
    exact install_code _ hk
  gdtDesc k hk := by
    have hlt : k < 6 := hk
    rw [Nat.add_assoc, h.page_eq (by rw [trampolineDataOffset]; omega), ← Nat.add_assoc]
    exact install_gdtDesc _ k hk
  gdt k hk := by
    have hlt : k < 40 := hk
    rw [Nat.add_assoc, h.page_eq (by rw [trampolineDataOffset]; omega), ← Nat.add_assoc]
    exact install_gdt _ k hk
  pml4Addr := rfl

theorem Quiet.disassemble {mem : Mem} (h : Quiet mem) {size : Size} {o n : ℕ}
    {block : List (Instr × ℕ)} (hblock : disassemble size pageByte o n = some block)
    (hfits : ∀ start ∈ starts o block, start + window ≤ trampolineDataOffset) :
    X86.disassemble size (fun k => mem (trampolinePhys + k)) o n = some block :=
  disassemble_congr h.page hblock hfits

/-- The first instruction of a block of the listing. -/
theorem Quiet.decode {mem : Mem} (h : Quiet mem) {m : Machine} {size : Size} {o n len : ℕ}
    {i : Instr} {block : List (Instr × ℕ)}
    (hblock : X86.disassemble size pageByte o n = some ((i, len) :: block))
    (hfits : o + window ≤ trampolineDataOffset) (hsize : m.size = size)
    (hip : m.linearIp = trampolinePhys + o) :
    (X86.decode m.size fun k => mem (m.linearIp + k)) = some (i, len) := by
  rw [hsize, hip, ← decode_of_disassemble hblock]
  apply decode_congr
  intro k hk
  rw [Nat.add_assoc]
  exact h.page (o + k) (by omega)

theorem exists_quiet : ∃ mem, Quiet mem := ⟨_, quiet_install fun _ => 0⟩

/-! ### The parts of the code, one after the other

The registers and segments that a part leaves are only of interest where a later
part relies on them. -/

section

variable {m : Machine} {Q : Machine → Prop}

/-- The processor is in protected mode, with the GDT of the page. -/
structure Protected (m : Machine) : Prop where
  pe : m.cr0.getLsbD bitPe = true
  limit : m.gdtLimit = 0x27
  base : m.gdtBase = 0x8088

theorem Protected.gdtLoaded (h : Protected m) {mem : Mem} (hmem : Quiet mem) :
    GdtLoaded { m with mem := mem } (load 64 mem 0x8F00) :=
  ⟨h.pe, h.limit, h.base, hmem.prepared⟩

theorem blockRuns_code16 (hpe : m.cr0.getLsbD bitPe = false) (hpg : m.cr0.getLsbD bitPg = false)
    (mem : Mem) :
    BlockRuns Quiet (fun m' => Protected m' ∧ m'.cr0.getLsbD bitPg = false) code16
      { m with mem := mem } := by
  have hsplit : code16 = [(.cli, 1), (.xor16 rax rax, 2)] ++
      (([.ds, .es, .ss].map fun seg => (.movSeg seg rax, 2)) ++
        ((.lgdt 0x8080, 5) :: [(.movFromCr rax .cr0, 3), (.orAl 1, 2), (.movToCr .cr0 rax, 3)])) :=
    rfl
  rw [hsplit]
  let m₁ : Machine := ({ m with ip := m.ip + 3, interrupts := false } : Machine).setReg16 rax
    (m.reg16 rax ^^^ m.reg16 rax)
  have hax : m₁.reg16 rax = 0 := by
    rw [Machine.reg16_setReg16, BitVec.xor_self]
    rfl
  refine BlockRuns.append (blockRuns_onRegisters (w := m₁) (by decide) rfl (fun mem₁ => ?_) mem)
  -- in real mode a segment begins at 16 times its selector
  have hload : ∀ mem, Quiet mem → ∀ seg ∈ [DataSeg.ds, .es, .ss],
      Machine.loadData { m₁ with mem := mem } seg (m₁.reg16 rax) = some ⟨0, 0⟩ := by
    intro mem _ seg _
    rw [hax]
    exact if_pos hpe
  refine BlockRuns.append (blockRuns_movSegs (m := m₁) _ hload (fun mem₂ => ?_) mem₁)
  intro mem₃ hmem₃
  obtain ⟨hlimit, hbase, -⟩ := hmem₃.prepared.gdtr
  have hlimit' : readNat mem₃ (0 + (0x8080 : BitVec 16).toNat) 2 = 0x27 := hlimit
  have hbase' : readNat mem₃ (0 + (0x8080 : BitVec 16).toNat + 2) 3 = 0x8088 := hbase
  refine ⟨_, rfl, ?_⟩
  simp only [if_true, List.mem_cons, true_or, hlimit', hbase']
  -- the last three set CR0.PE
  have hcr0 : (m.cr0.setWidth 64 ||| (1 : Byte).setWidth 64).setWidth 32 = m.cr0 ||| 1 := by
    simp
  have hpg' : (m.cr0 ||| 1).getLsbD bitPg = false := by
    rw [BitVec.getLsbD_or, hpg]
    rfl
  have hpe' : (m.cr0 ||| 1).getLsbD bitPe = true := by
    rw [BitVec.getLsbD_or, show (1 : BitVec 32).getLsbD bitPe = true from rfl, Bool.or_true]
  have hblock : ∀ m₂ : Machine, m₂.cr0 = m.cr0 →
      execBlock [(.movFromCr rax .cr0, 3), (.orAl 1, 2), (.movToCr .cr0 rax, 3)] m₂ =
        some { m₂ with
          ip := m₂.ip + 8
          regs := Function.update (Function.update m₂.regs rax (m.cr0.setWidth 64)) rax
            (m.cr0.setWidth 64 ||| (1 : Byte).setWidth 64)
          cr0 := m.cr0 ||| 1
          efer := setLma m₂.efer false } := by
    rintro m₂ h₂
    simp only [execBlock, exec, Option.bind_some, Machine.setReg, Machine.setReg32, Machine.readCr,
      Machine.writeCr, Machine.reg32, Function.update_self, h₂, hcr0, hpg', Bool.false_eq_true,
      false_and, if_false, Bool.false_and]
  exact blockRuns_onRegisters (m := { m₁ with
      ip := m₁.ip + 2 * 3 + 5
      segs := _
      gdtLimit := 0x27
      gdtBase := 0x8088 }) (by decide) (hblock _ rfl) (fun _ => ⟨⟨hpe', rfl, rfl⟩, hpg'⟩) mem₃

theorem Protected.blockRuns_code32Segments (h : Protected m)
    (hQ : ∀ regs segs mem, Q { m with ip := m.ip + 14, regs := regs, segs := segs, mem := mem })
    (mem : Mem) : BlockRuns Quiet Q code32Segments { m with mem := mem } := by
  have hblock : code32Segments = [(.movImm16 rax 0x10, 4)] ++
      [.ds, .es, .fs, .gs, .ss].map fun seg => (.movSeg seg rax, 2) := rfl
  let m₁ : Machine := ({ m with ip := m.ip + 4 } : Machine).setReg16 rax 0x10
  have h₁ : Protected m₁ := ⟨h.pe, h.limit, h.base⟩
  have hload : ∀ mem, Quiet mem → ∀ seg ∈ [DataSeg.ds, .es, .fs, .gs, .ss],
      Machine.loadData { m₁ with mem := mem } seg (m₁.reg16 rax) = some ⟨0x10, 0⟩ := by
    intro mem hmem seg _
    rw [Machine.reg16_setReg16]
    exact (h₁.gdtLoaded hmem).loadData_flat seg
  rw [hblock]
  exact BlockRuns.append (blockRuns_onRegisters (w := m₁) (by decide) rfl
    (blockRuns_movSegs (m := m₁) _ hload fun mem₁ => hQ m₁.regs _ mem₁) mem)

/-- The page table that is loaded may be that of another AP. -/
theorem blockRuns_code32Cr3
    (hQ : ∀ regs cr3 mem, Q { m with ip := m.ip + 8, regs := regs, cr3 := cr3, mem := mem })
    (mem : Mem) : BlockRuns Quiet Q code32Cr3 { m with mem := mem } :=
  fun _ _ => ⟨_, rfl, fun _ _ => ⟨_, rfl, hQ _ _ _⟩⟩

theorem Protected.blockRuns_code32 (h : Protected m) (hpg : m.cr0.getLsbD bitPg = false)
    (mem : Mem) :
    BlockRuns Quiet (fun m' => Protected m' ∧ m'.efer.getLsbD bitLma = true) code32
      { m with mem := mem } := by
  have hpae : (m.cr4 ||| 0x20).getLsbD bitPae = true := by
    rw [BitVec.getLsbD_or, show (0x20 : BitVec 32).getLsbD bitPae = true from rfl, Bool.or_true]
  have hlme : (setLma (m.efer ||| 0x100) (m.efer.getLsbD bitLma)).getLsbD bitLme = true := by
    rw [getLsbD_setLma, if_neg (by decide), BitVec.getLsbD_or,
      show (0x100 : BitVec 64).getLsbD bitLme = true from rfl, Bool.or_true]
  have hpe : (m.cr0 ||| 0x80000000).getLsbD bitPe = true := by
    rw [BitVec.getLsbD_or, h.pe, Bool.true_or]
  rw [code32]
  refine BlockRuns.append (h.blockRuns_code32Segments (fun regs₁ segs mem₁ => ?_) mem)
  let m₁ : Machine := { m with ip := m.ip + 14, regs := regs₁, segs := segs }
  obtain ⟨regs₂, hblock₂⟩ := execBlock_code32Pae m₁
  let m₂ : Machine := { m₁ with ip := m₁.ip + 9, regs := regs₂, cr4 := m.cr4 ||| 0x20 }
  refine BlockRuns.append (blockRuns_onRegisters (m := m₁) (w := m₂) (by decide) hblock₂
    (fun mem₂ => ?_) mem₁)
  refine BlockRuns.append (blockRuns_code32Cr3 (m := m₂) (fun regs₃ cr3 mem₃ => ?_) mem₂)
  let m₃ : Machine := { m₂ with ip := m₂.ip + 8, regs := regs₃, cr3 := cr3 }
  obtain ⟨regs₄, hblock₄⟩ := execBlock_code32Lme (m := m₃) hpg
  let m₄ : Machine := { m₃ with
    ip := m₃.ip + 14, regs := regs₄
    efer := setLma (m.efer ||| 0x100) (m.efer.getLsbD bitLma) }
  refine BlockRuns.append (blockRuns_onRegisters (m := m₃) (w := m₄) (by decide) hblock₄
    (fun mem₄ => ?_) mem₃)
  obtain ⟨regs₅, hblock₅⟩ := execBlock_code32Pg (m := m₄) h.pe hpae hlme
  let m₅ : Machine := { m₄ with
    ip := m₄.ip + 11, regs := regs₅, cr0 := m.cr0 ||| 0x80000000, efer := setLma m₄.efer true }
  refine blockRuns_onRegisters (m := m₄) (w := m₅) (by decide) hblock₅
    (fun mem₅ => ⟨⟨hpe, h.limit, h.base⟩, ?_⟩) mem₄
  exact (getLsbD_setLma m₄.efer true bitLma).trans (if_pos rfl)

/-- The first half of the segments: a descriptor of the GDT. -/
theorem Protected.blockRuns_code64Data (h : Protected m)
    (hQ : ∀ regs segs mem, Q { m with ip := m.ip + 10, regs := regs, segs := segs, mem := mem })
    (mem : Mem) :
    BlockRuns Quiet Q ([(.movImm16 rax 0x20, 4)] ++ [.ds, .es, .ss].map fun seg => (.movSeg seg rax, 2))
      { m with mem := mem } := by
  let m₁ : Machine := ({ m with ip := m.ip + 4 } : Machine).setReg16 rax 0x20
  have h₁ : Protected m₁ := ⟨h.pe, h.limit, h.base⟩
  have hload : ∀ mem, Quiet mem → ∀ seg ∈ [DataSeg.ds, .es, .ss],
      Machine.loadData { m₁ with mem := mem } seg (m₁.reg16 rax) = some ⟨0x20, 0⟩ := by
    intro mem hmem seg _
    have hdescriptor : Machine.descriptor { m₁ with mem := mem } 0x20 = some ⟨0x0000920000000000⟩ :=
      (h₁.gdtLoaded hmem).descriptor_eq (by decide) (by decide)
    rw [Machine.reg16_setReg16, Machine.loadData, (h₁.gdtLoaded hmem).pe, if_neg (by decide),
      if_neg (by decide), hdescriptor, Option.bind_some]
    cases seg <;> rfl
  exact BlockRuns.append (blockRuns_onRegisters (m := m) (w := m₁) (by decide) rfl
    (blockRuns_movSegs (m := m₁) _ hload fun mem₁ => hQ m₁.regs _ mem₁) mem)

/-- The second half: null selectors. -/
theorem Protected.blockRuns_code64Null (h : Protected m) (hsize : m.size = .bits64)
    (hQ : ∀ regs segs mem, (regs rax).setWidth 16 = (0 : BitVec 16) →
      Q { m with ip := m.ip + 7, regs := regs, segs := segs, mem := mem })
    (mem : Mem) :
    BlockRuns Quiet Q ([(.xor16 rax rax, 3)] ++ [.fs, .gs].map fun seg => (.movSeg seg rax, 2))
      { m with mem := mem } := by
  let m₁ : Machine := ({ m with ip := m.ip + 3 } : Machine).setReg16 rax
    (m.reg16 rax ^^^ m.reg16 rax)
  have hax : m₁.reg16 rax = 0 := by
    rw [Machine.reg16_setReg16, BitVec.xor_self]
    rfl
  have hload : ∀ mem, Quiet mem → ∀ seg ∈ [DataSeg.fs, .gs],
      Machine.loadData { m₁ with mem := mem } seg (m₁.reg16 rax) = some ⟨0, 0⟩ := by
    intro mem _ seg _
    have hnull : ¬(seg = DataSeg.ss ∧ m₁.size ≠ .bits64) := fun hss => hss.2 hsize
    rw [hax, Machine.loadData, show m₁.cr0.getLsbD bitPe = true from h.pe, if_neg (by decide),
      if_pos (by decide), if_neg hnull]
  exact BlockRuns.append (blockRuns_onRegisters (m := m) (w := m₁) (by decide) rfl
    (blockRuns_movSegs (m := m₁) _ hload fun mem₁ => hQ m₁.regs _ mem₁ hax) mem)

/-- The stack may be that of another AP. -/
theorem blockRuns_loadStack (hax : (m.regs rax).setWidth 16 = (0 : BitVec 16)) (mem : Mem) :
    BlockRuns Quiet (fun m' => (m'.regs rax).setWidth 16 = (0 : BitVec 16))
      [(.load64 rsp 0x8F08, 8)] { m with mem := mem } := by
  intro mem₁ _
  refine ⟨_, rfl, ?_⟩
  have hne : rax ≠ rsp := by decide
  simpa only [BlockRuns, Machine.setReg, Function.update_of_ne hne] using hax

/-- At the end AX is 0. -/
theorem Protected.blockRuns_code64Stack (h : Protected m) (hsize : m.size = .bits64) (mem : Mem) :
    BlockRuns Quiet (fun m' => (m'.regs rax).setWidth 16 = (0 : BitVec 16)) code64Stack
      { m with mem := mem } := by
  have hblock : code64Stack =
      ([(.movImm16 rax 0x20, 4)] ++ [.ds, .es, .ss].map fun seg => (.movSeg seg rax, 2)) ++
        (([(.xor16 rax rax, 3)] ++ [.fs, .gs].map fun seg => (.movSeg seg rax, 2)) ++
          [(.load64 rsp 0x8F08, 8)]) := rfl
  rw [hblock]
  refine BlockRuns.append (h.blockRuns_code64Data (fun regs₁ segs₁ mem₁ => ?_) mem)
  let m₁ : Machine := { m with ip := m.ip + 10, regs := regs₁, segs := segs₁ }
  have h₁ : Protected m₁ := ⟨h.pe, h.limit, h.base⟩
  refine BlockRuns.append (h₁.blockRuns_code64Null hsize (fun regs₂ segs₂ mem₂ hax => ?_) mem₁)
  exact blockRuns_loadStack (m := { m₁ with ip := m₁.ip + 7, regs := regs₂, segs := segs₂ }) hax mem₂

/-! ### The whole run -/

section

variable {translate : ℕ → Option ℕ}

/-- The processor is in the trampoline, in front of the bytes that are no
instruction. -/
def InTrampoline (m : Machine) : Prop :=
  trampolinePhys ≤ m.linearIp ∧ m.linearIp < trampolinePhys + 0x90

theorem inTrampoline_of_eq {o : ℕ} (h : m.linearIp = trampolinePhys + o) (ho : o < 0x90) :
    InTrampoline m := by
  rw [InTrampoline, h]
  omega

theorem inTrampoline_block {starts : List ℕ} (h : ∀ start ∈ starts, start < 0x90) :
    ∀ start ∈ starts, ∀ m : Machine, m.linearIp = trampolinePhys + start → InTrampoline m :=
  fun start hstart _ hip => inTrampoline_of_eq hip (h start hstart)

/-- The 16-bit part, with the far jump at its end. -/
theorem runs_part16 (hpe : m.cr0.getLsbD bitPe = false) (hpg : m.cr0.getLsbD bitPg = false)
    (hcs : m.cs.base = trampolinePhys) (hip : m.ip = 0) (hsize : m.size = .bits16) :
    Runs (stepIn translate) Quiet InTrampoline (fun m' => Protected m' ∧
      m'.cr0.getLsbD bitPg = false ∧ m'.size = .bits32 ∧ m'.cs.base = 0 ∧ m'.ip = 0x8020)
        (9 + 1) m := by
  have hstart : m.linearIp = trampolinePhys + 0 := by
    rw [Machine.linearIp, hcs, hip]
  refine (runs_block (fun mem hmem => hmem.disassemble disassemble_page16 (by decide)) exists_quiet
    hsize hstart (inTrampoline_block (by decide)) (by decide)
    (blockRuns_code16 hpe hpg m.mem)).trans ?_
  rintro m₁ ⟨⟨hprotected, hpg₁⟩, hsize₁, hcs₁, hip₁⟩
  have hend : m₁.linearIp = trampolinePhys + 0x16 := by
    rw [Machine.linearIp, hcs₁, hcs, hip₁, hip]
    rfl
  refine runs_instr (inTrampoline_of_eq hend (by decide))
    (fun mem hmem => hmem.decode disassemble_pageJump16 (by decide) hsize₁ hend)
    fun mem hmem => ?_
  have hload : Machine.loadCode { m₁ with mem := mem } 0x08 0x8020 = some (⟨0x08, 0⟩, .bits32) :=
    (hprotected.gdtLoaded hmem).loadCode_32
  have hjump : exec (.jmpFar 0x08 0x8020) { m₁ with ip := m₁.ip + 8, mem := mem } =
      some { m₁ with ip := 0x8020, cs := ⟨0x08, 0⟩, size := .bits32, mem := mem } := by
    show (Machine.loadCode { m₁ with mem := mem } 0x08 0x8020).map _ = _
    rw [hload]
    rfl
  exact ⟨_, hjump, hmem, ⟨hprotected.pe, hprotected.limit, hprotected.base⟩, hpg₁, rfl, rfl, rfl⟩

/-- The 32-bit part, with the far jump at its end. -/
theorem Protected.runs_part32 (h : Protected m) (hpg : m.cr0.getLsbD bitPg = false)
    (hsize : m.size = .bits32) (hcs : m.cs.base = 0) (hip : m.ip = 0x8020) :
    Runs (stepIn translate) Quiet InTrampoline (fun m' => Protected m' ∧ m'.size = .bits64 ∧
      m'.cs.base = 0 ∧ m'.ip = 0x8060) (18 + 1) m := by
  have hstart : m.linearIp = trampolinePhys + 0x20 := by
    rw [Machine.linearIp, hcs, hip, trampolinePhys]
  refine (runs_block (fun mem hmem => hmem.disassemble disassemble_page32 (by decide)) exists_quiet
    hsize hstart (inTrampoline_block (by decide)) (by decide)
    (h.blockRuns_code32 hpg m.mem)).trans ?_
  rintro m₁ ⟨⟨hprotected, hlma⟩, hsize₁, hcs₁, hip₁⟩
  have hend : m₁.linearIp = trampolinePhys + 0x58 := by
    rw [Machine.linearIp, hcs₁, hcs, hip₁, hip]
    rfl
  refine runs_instr (inTrampoline_of_eq hend (by decide))
    (fun mem hmem => hmem.decode disassemble_pageJump32 (by decide) hsize₁ hend)
    fun mem hmem => ?_
  have hload : Machine.loadCode { m₁ with mem := mem } 0x18 0x8060 = some (⟨0x18, 0⟩, .bits64) :=
    (hprotected.gdtLoaded hmem).loadCode_64 hlma
  have hjump : exec (.jmpFar 0x18 0x8060) { m₁ with ip := m₁.ip + 7, mem := mem } =
      some { m₁ with ip := 0x8060, cs := ⟨0x18, 0⟩, size := .bits64, mem := mem } := by
    show (Machine.loadCode { m₁ with mem := mem } 0x18 0x8060).map _ = _
    rw [hload]
    rfl
  exact ⟨_, hjump, hmem, ⟨hprotected.pe, hprotected.limit, hprotected.base⟩, rfl, rfl, rfl⟩

/-- Instruction `k` of the stray ones is next, and AX is 0. -/
structure AtStray (k : ℕ) (m : Machine) : Prop where
  size : m.size = .bits64
  ip : m.linearIp = trampolinePhys + (0x84 + 2 * k)
  ax : (m.regs rax).setWidth 16 = (0 : BitVec 16)

variable (translate) in
/-- Nothing can be executed any more: the stray instructions are over, or the first
of them has no page to write to. -/
def Stopped (m : Machine) : Prop :=
  AtStray 6 m ∨ AtStray 0 m ∧ physAddr translate m (m.regs rax).toNat = none

/-- The 64-bit part, up to the signal. -/
theorem Protected.runs_part64 (h : Protected m) (hsize : m.size = .bits64) (hcs : m.cs.base = 0)
    (hip : m.ip = 0x8060) : Runs (stepIn translate) Quiet InTrampoline (AtStray 0) (8 + 1) m := by
  have hstart : m.linearIp = trampolinePhys + 0x60 := by
    rw [Machine.linearIp, hcs, hip, trampolinePhys]
  refine (runs_block (fun mem hmem => hmem.disassemble disassemble_page64 (by decide)) exists_quiet
    hsize hstart (inTrampoline_block (by decide)) (by decide)
    (h.blockRuns_code64Stack hsize m.mem)).trans ?_
  rintro m₁ ⟨hax, hsize₁, hcs₁, hip₁⟩
  have hend : m₁.linearIp = trampolinePhys + 0x79 := by
    rw [Machine.linearIp, hcs₁, hcs, hip₁, hip]
    rfl
  refine runs_instr (inTrampoline_of_eq hend (by decide))
    (fun mem hmem => hmem.decode disassemble_damagedSignal (by decide) hsize₁ hend)
    fun mem hmem => ⟨_, rfl, ?_, hsize₁, ?_, hax⟩
  · -- the signal goes to the word in front of the flag
    exact hmem.store _ (by decide) (by decide)
  · show m₁.cs.base + (m₁.ip + 11) = _
    rw [← Nat.add_assoc]
    exact congrArg (· + 11) hend

/-- A stray instruction writes back what it has read. -/
theorem execByte_stray {i : ByteInstr} {len a : ℕ} (hi : (i, len) ∈ stray)
    (hax : (m.regs rax).setWidth 16 = (0 : BitVec 16))
    (hmapped : physAddr translate m (m.regs rax).toNat = some a) :
    execByte translate i m = some m ∧ len = 2 := by
  have hal : (m.regs rax).setWidth 8 = (0 : BitVec 8) := by
    have hlow := congrArg (BitVec.setWidth 8) hax
    rwa [BitVec.setWidth_setWidth_of_le _ (by decide)] at hlow
  have hadd : execByte translate (.addAl rax) m = some m := by
    have hbyte : m.mem a + (m.regs rax).setWidth 8 = m.mem a := by
      rw [hal]
      exact BitVec.add_zero _
    simp only [execByte, hmapped, Option.map_some, hbyte, Function.update_eq_self]
  simp only [stray, List.mem_cons, Prod.mk.injEq, List.not_mem_nil, or_false] at hi
  rcases hi with ⟨rfl, rfl⟩ | ⟨rfl, rfl⟩ | ⟨rfl, rfl⟩ | ⟨rfl, rfl⟩ | ⟨rfl, rfl⟩ | ⟨rfl, rfl⟩
  case inr.inl => exact ⟨rfl, rfl⟩
  all_goals exact ⟨hadd, rfl⟩

/-- What is at the instruction pointer. -/
theorem AtStray.bytes {k : ℕ} (h : AtStray k m) (hk : k ≤ 6) {mem : Mem} (hmem : Quiet mem) :
    ∀ j < window, mem (m.linearIp + j) = pageByte (0x84 + 2 * k + j) := by
  intro j hj
  simp only [window] at hj
  rw [h.ip, Nat.add_assoc]
  exact hmem.page _ (by rw [trampolineDataOffset]; omega)

/-- The stray instructions are executed as they are listed. -/
theorem AtStray.decode {k : ℕ} (h : AtStray k m) (hk : k < 6) {mem : Mem} (hmem : Quiet mem) :
    (X86.decode m.size fun j => mem (m.linearIp + j)) = none ∧
      (decodeByte m.size fun j => mem (m.linearIp + j)) = stray[k]? := by
  obtain ⟨hnone, hsome⟩ := decode_stray k hk
  have hbytes := h.bytes (Nat.le_of_lt hk) hmem
  refine ⟨?_, ?_⟩
  · rw [h.size, decode_congr .bits64 hbytes, hnone]
  · rw [h.size, ← hsome]
    simp only [decodeByte, hbytes 0 (by decide), hbytes 1 (by decide)]

theorem AtStray.runs {k n a : ℕ} (h : AtStray k m)
    (hmapped : physAddr translate m (m.regs rax).toNat = some a) (hk : k + n = 6) :
    Runs (stepIn translate) Quiet InTrampoline (Stopped translate) n m := by
  induction n generalizing k m with
  | zero =>
      obtain rfl : k = 6 := hk
      exact .inl h
  | succ n ih =>
      have hlt : k < 6 := by omega
      obtain ⟨⟨i, len⟩, hstray⟩ : ∃ x, stray[k]? = some x :=
        ⟨_, List.getElem?_eq_getElem (show k < stray.length from hlt)⟩
      refine runs_byteInstr (i := i) (l := len) (inTrampoline_of_eq h.ip (by omega))
        (fun mem hquiet => hstray ▸ h.decode hlt hquiet) fun mem hquiet => ?_
      obtain ⟨hexec, rfl⟩ := execByte_stray (m := { m with ip := m.ip + len, mem := mem })
        (List.mem_of_getElem? hstray) h.ax hmapped
      refine ⟨_, hexec, hquiet, ih (k := k + 1) ⟨h.size, ?_, h.ax⟩ hmapped (by omega)⟩
      show m.cs.base + (m.ip + 2) = _
      rw [← Nat.add_assoc]
      exact congrArg (· + 2) h.ip

/-- **What an AP does on the page as it is installed.** From the startup IPI on it
goes through 44 instructions at most, in memory in which others may write to the
mailbox between any two of them. It leaves the ready flag alone, does not get past
offset 0x90, and stops there or, for want of a page, at offset 0x84. -/
theorem runs_installed (hpe : m.cr0.getLsbD bitPe = false) (hpg : m.cr0.getLsbD bitPg = false)
    (hcs : m.cs.base = trampolinePhys) (hip : m.ip = 0) (hsize : m.size = .bits16) :
    Runs (stepIn translate) Quiet InTrampoline (Stopped translate) 44 m := by
  refine Runs.trans (n := 10) (l := 34) (runs_part16 hpe hpg hcs hip hsize) ?_
  rintro m₁ ⟨h₁, hpg₁, hsize₁, hcs₁, hip₁⟩
  refine Runs.trans (n := 19) (l := 15) (h₁.runs_part32 hpg₁ hsize₁ hcs₁ hip₁) ?_
  rintro m₂ ⟨h₂, hsize₂, hcs₂, hip₂⟩
  refine Runs.trans (n := 9) (l := 6) (h₂.runs_part64 hsize₂ hcs₂ hip₂) ?_
  intro m₃ h₃
  cases hmapped : physAddr translate m₃ (m₃.regs rax).toNat with
  | none => exact .of_end (.inr ⟨h₃, hmapped⟩)
  | some a => exact h₃.runs hmapped (Nat.zero_add 6)

/-- Behind the stray instructions there is none. -/
theorem AtStray.isUndefined (h : AtStray 6 m) {mem : Mem} (hmem : Quiet mem) :
    (Interference.isUndefined fun k => mem (m.linearIp + k)) = true := by
  have hbytes := h.bytes le_rfl hmem
  simp only [Interference.isUndefined, hbytes 0 (by decide), hbytes 1 (by decide)]
  rfl

theorem AtStray.stepIn (h : AtStray 6 m) {mem : Mem} (hmem : Quiet mem) :
    Interference.stepIn translate m mem = none := by
  have hbytes := h.bytes le_rfl hmem
  have hnone : (X86.decode m.size fun k => mem (m.linearIp + k)) = none := by
    rw [h.size, decode_congr .bits64 hbytes]
    rfl
  have hnone' : (decodeByte m.size fun k => mem (m.linearIp + k)) = none := by
    rw [h.size]
    simp only [decodeByte, hbytes 0 (by decide), hbytes 1 (by decide)]
    rfl
  simp only [Interference.stepIn, hnone, hnone', Option.bind_none]

theorem AtStray.pageFaults (h : AtStray 0 m)
    (hfault : physAddr translate m (m.regs rax).toNat = none) {mem : Mem} (hmem : Quiet mem) :
    PageFaults translate m mem := by
  obtain ⟨hnone, hbyte⟩ := h.decode (by decide) hmem
  exact ⟨hnone, rax, 2, hbyte, hfault⟩

/-- Where an AP stops there is no instruction, or one that faults. -/
theorem Stopped.cases (h : Stopped translate m) {mem : Mem} (hmem : Quiet mem) :
    (m.linearIp = trampolinePhys + 0x90 ∧ (isUndefined fun k => mem (m.linearIp + k)) = true) ∨
      (m.linearIp = trampolinePhys + 0x84 ∧ PageFaults translate m mem) := by
  obtain h | ⟨h, hfault⟩ := h
  · exact .inl ⟨h.ip, h.isUndefined hmem⟩
  · exact .inr ⟨h.ip, h.pageFaults hfault hmem⟩

theorem Stopped.stepIn (h : Stopped translate m) {mem : Mem} (hmem : Quiet mem) :
    Interference.stepIn translate m mem = none := by
  obtain h | ⟨h, hfault⟩ := h
  · exact h.stepIn hmem
  · exact (h.pageFaults hfault hmem).stepIn

end

end

end SmpNostd.Trampoline
