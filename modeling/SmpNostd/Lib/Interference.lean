import SmpNostd.Lib.X86

/-!
Code that runs while others write to the memory that it runs in.

The judgment `Runs step I P Q n k` is about one processor: in the local state `k`
it takes at most `n` more steps, each from a state with `P`, and is then in a state
with `Q`, whatever the memory is before each of the steps as long as it has the
property `I`; and it keeps `I` itself. Nothing is said about who else writes to the
memory, so a number of processors can run next to each other if each keeps `I`, and
what holds of one of them needs no other invariant than the judgment itself: a step
of its own takes one off the count, and a step of another one leaves it as it is.

The second half is about x86 processors that share a memory. The local state is
the machine, and what its field `mem` holds between two of its steps is of no
importance.
-/

namespace SmpNostd.Interference

/-! ### The judgment -/

section

variable {κ μ : Type*}

/-- The processor takes at most `n` more steps, through states with `P` to one with
`Q`, in memory with `I`. -/
def Runs (step : κ → μ → Option (κ × μ)) (I : μ → Prop) (P Q : κ → Prop) : ℕ → κ → Prop
  | 0, k => Q k
  | n + 1, k => Q k ∨ P k ∧ ∀ mem, I mem →
      ∃ k' mem', step k mem = some (k', mem') ∧ I mem' ∧ Runs step I P Q n k'

variable {step : κ → μ → Option (κ × μ)} {I : μ → Prop} {P Q R : κ → Prop}

theorem Runs.of_end {n : ℕ} {k : κ} (h : Q k) : Runs step I P Q n k := by
  cases n with
  | zero => exact h
  | succ n => exact .inl h

/-- A step of the processor itself, if it cannot take one where it is to end. -/
theorem Runs.next {n : ℕ} {k k' : κ} {mem mem' : μ} (h : Runs step I P Q (n + 1) k) (hI : I mem)
    (hend : Q k → step k mem = none) (hstep : step k mem = some (k', mem')) :
    I mem' ∧ Runs step I P Q n k' := by
  obtain hQ | ⟨-, hgo⟩ := h
  · rw [hend hQ] at hstep
    cases hstep
  · obtain ⟨k₁, mem₁, hstep₁, hmem₁, hrest⟩ := hgo mem hI
    rw [hstep₁] at hstep
    obtain ⟨rfl, rfl⟩ := Prod.mk.inj (Option.some.inj hstep)
    exact ⟨hmem₁, hrest⟩

theorem Runs.of_le {n l : ℕ} {k : κ} (h : Runs step I P Q n k) (hle : n ≤ l) :
    Runs step I P Q l k := by
  induction n generalizing k l with
  | zero => exact .of_end h
  | succ n ih =>
      obtain ⟨l, rfl⟩ : ∃ l', l = l' + 1 := ⟨l - 1, by omega⟩
      obtain hQ | ⟨hP, hgo⟩ := h
      · exact .inl hQ
      · refine .inr ⟨hP, fun mem hI => ?_⟩
        obtain ⟨k', mem', hstep, hmem', hrest⟩ := hgo mem hI
        exact ⟨k', mem', hstep, hmem', ih hrest (Nat.le_of_succ_le_succ hle)⟩

/-- Two stretches, one after the other. -/
theorem Runs.trans {n l : ℕ} {k : κ} (h : Runs step I P Q n k)
    (hnext : ∀ k', Q k' → Runs step I P R l k') : Runs step I P R (n + l) k := by
  induction n generalizing k with
  | zero =>
      rw [Nat.zero_add]
      exact hnext k h
  | succ n ih =>
      obtain hQ | ⟨hP, hgo⟩ := h
      · exact (hnext k hQ).of_le (Nat.le_add_left l (n + 1))
      · rw [Nat.add_right_comm]
        refine .inr ⟨hP, fun mem hI => ?_⟩
        obtain ⟨k', mem', hstep, hmem', hrest⟩ := hgo mem hI
        exact ⟨k', mem', hstep, hmem', ih hrest⟩

theorem Runs.mono {n : ℕ} {k : κ} (h : Runs step I P Q n k) (hQ : ∀ k', Q k' → R k') :
    Runs step I P R n k :=
  h.trans (l := 0) hQ

end

/-! ### Processors that share a memory -/

open Memory X86

/-- Instructions that work on single bytes. -/
inductive ByteInstr
  /-- Add AL to the byte that a register points to. -/
  | addAl (ptr : Reg)
  /-- Compare AL with a constant, which sets flags only. -/
  | cmpAl (imm : Byte)
  deriving DecidableEq, Repr

def decodeByte (size : Size) (b : ℕ → Byte) : Option (ByteInstr × ℕ) :=
  match b 0 with
  | 0x00 =>
      -- 4 and 5 stand for other ways to address memory
      if size = .bits64 ∧ modOf (b 1) = 0 ∧ regOf (b 1) = 0 ∧ rmOf (b 1) ≠ 4 ∧ rmOf (b 1) ≠ 5 then
        some (.addAl (rmOf (b 1)), 2)
      else none
  | 0x3C => some (.cmpAl (b 1), 2)
  | _ => none

/-- The encoding 0xFF /7 is reserved: the processor raises an invalid-opcode
exception. -/
def isUndefined (b : ℕ → Byte) : Bool := b 0 == 0xFF && regOf (b 1) == 7

section

-- what the page tables make of a linear address that is written to
variable (translate : ℕ → Option ℕ)

/-- The address in memory that is meant by a linear address. There are page tables
once CR0.PG is set, and `none` is a page fault. -/
def physAddr (m : Machine) (a : ℕ) : Option ℕ :=
  if m.cr0.getLsbD bitPg then translate a else some a

/-- An instruction on single bytes, which may go to any address. What the other
instructions read and write, and the code itself, is in pages that the tables are
taken to map to themselves; so the accesses of `exec` and the fetch of the code are
not translated. -/
def execByte : ByteInstr → Machine → Option Machine
  | .addAl ptr, m => (physAddr translate m (m.regs ptr).toNat).map fun a =>
      { m with mem := Function.update m.mem a (m.mem a + (m.regs rax).setWidth 8) }
  | .cmpAl _, m => some m

/-- The instruction at the instruction pointer, in the shared memory. -/
def stepIn (m : Machine) (mem : Mem) : Option (Machine × Mem) :=
  let m' := { m with mem := mem }
  let b k := mem (m.linearIp + k)
  match decode m.size b with
  | some (i, len) => (exec i { m' with ip := m.ip + len }).map fun m => (m, m.mem)
  | none => (decodeByte m.size b).bind fun (i, len) =>
      (execByte translate i { m' with ip := m.ip + len }).map fun m => (m, m.mem)

/-- The instruction is one on single bytes, and its address is not mapped. -/
def PageFaults (m : Machine) (mem : Mem) : Prop :=
  (decode m.size fun k => mem (m.linearIp + k)) = none ∧ ∃ ptr len,
    (decodeByte m.size fun k => mem (m.linearIp + k)) = some (.addAl ptr, len) ∧
      physAddr translate m (m.regs ptr).toNat = none

end

variable {translate : ℕ → Option ℕ} {I : Mem → Prop} {P Q : Machine → Prop} {m m' : Machine}

theorem PageFaults.stepIn {mem : Mem} (h : PageFaults translate m mem) :
    stepIn translate m mem = none := by
  obtain ⟨hnone, ptr, len, hbyte, haddr⟩ := h
  have haddr' : physAddr translate { m with ip := m.ip + len, mem := mem }
      (m.regs ptr).toNat = none := haddr
  simp only [Interference.stepIn, hnone, hbyte, Option.bind_some, execByte, haddr',
    Option.map_none]

/-- A single instruction, in whatever memory it is executed. -/
theorem runs_instr {n l : ℕ} {i : Instr} (hP : P m)
    (hdecode : ∀ mem, I mem → (decode m.size fun k => mem (m.linearIp + k)) = some (i, l))
    (h : ∀ mem, I mem → ∃ m', exec i { m with ip := m.ip + l, mem := mem } = some m' ∧
      I m'.mem ∧ Runs (stepIn translate) I P Q n m') :
    Runs (stepIn translate) I P Q (n + 1) m := by
  refine .inr ⟨hP, fun mem hI => ?_⟩
  obtain ⟨m', hexec, hmem', hrest⟩ := h mem hI
  refine ⟨m', m'.mem, ?_, hmem', hrest⟩
  simp only [stepIn, hdecode mem hI, hexec, Option.map_some]

/-- The same for an instruction on single bytes. -/
theorem runs_byteInstr {n l : ℕ} {i : ByteInstr} (hP : P m)
    (hdecode : ∀ mem, I mem → (decode m.size fun k => mem (m.linearIp + k)) = none ∧
      (decodeByte m.size fun k => mem (m.linearIp + k)) = some (i, l))
    (h : ∀ mem, I mem → ∃ m', execByte translate i { m with ip := m.ip + l, mem := mem } = some m' ∧
      I m'.mem ∧ Runs (stepIn translate) I P Q n m') :
    Runs (stepIn translate) I P Q (n + 1) m := by
  refine .inr ⟨hP, fun mem hI => ?_⟩
  obtain ⟨hnone, hbyte⟩ := hdecode mem hI
  obtain ⟨m', hexec, hmem', hrest⟩ := h mem hI
  refine ⟨m', m'.mem, ?_, hmem', hrest⟩
  simp only [stepIn, hnone, hbyte, hexec, Option.bind_some, Option.map_some]

/-! ### Blocks -/

/-- A block of straight-line code goes through to a state with `Q`, with other
memory before each of its instructions. -/
def BlockRuns (I : Mem → Prop) (Q : Machine → Prop) : List (Instr × ℕ) → Machine → Prop
  | [], m => Q m
  | (i, len) :: block, m => ∀ mem, I mem →
      ∃ m', exec i { m with ip := m.ip + len, mem := mem } = some m' ∧ BlockRuns I Q block m'

/-- A block is executed where its bytes are. -/
theorem runs_block {size : Size} {base o n : ℕ} {block : List (Instr × ℕ)}
    (hblock : ∀ mem, I mem → disassemble size (fun k => mem (base + k)) o n = some block)
    (hne : ∃ mem, I mem) (hsize : m.size = size) (hip : m.linearIp = base + o)
    (hP : ∀ start ∈ starts o block, ∀ m : Machine, m.linearIp = base + start → P m)
    (hstraight : ∀ x ∈ block, x.1.isStraight = true) (h : BlockRuns I Q block m) :
    Runs (stepIn translate) I P (fun m' => Q m' ∧ m'.size = size ∧ m'.cs = m.cs ∧
      m'.ip = m.ip + (block.map Prod.snd).sum) n m := by
  induction n generalizing m o block with
  | zero =>
      obtain ⟨mem, hI⟩ := hne
      obtain rfl := Option.some.inj (hblock mem hI)
      exact ⟨h, hsize, rfl, rfl⟩
  | succ n ih =>
      obtain ⟨mem₀, hI₀⟩ := hne
      obtain ⟨⟨i, len⟩, -, hmap⟩ := Option.bind_eq_some_iff.mp (hblock mem₀ hI₀)
      obtain ⟨rest, -, rfl⟩ := Option.map_eq_some_iff.mp hmap
      obtain ⟨hi, hstraight⟩ := List.forall_mem_cons.mp hstraight
      obtain ⟨hfirst, hP⟩ := List.forall_mem_cons.mp hP
      -- the bytes are the same in every memory
      have hbytes : ∀ mem, I mem →
          (decode size fun k => mem (base + (o + k))) = some (i, len) ∧
            disassemble size (fun k => mem (base + k)) (o + len) n = some rest := by
        intro mem hI
        obtain ⟨⟨i', len'⟩, hdecode, hmap⟩ := Option.bind_eq_some_iff.mp (hblock mem hI)
        obtain ⟨rest', hrest, heq⟩ := Option.map_eq_some_iff.mp hmap
        obtain ⟨hfirst, rfl⟩ := List.cons.inj heq
        obtain ⟨rfl, rfl⟩ := Prod.mk.inj hfirst
        exact ⟨hdecode, hrest⟩
      refine runs_instr (i := i) (l := len) (hfirst m hip) (fun mem hI => ?_) (fun mem hI => ?_)
      · rw [hsize, hip]
        simp only [Nat.add_assoc]
        exact (hbytes mem hI).1
      · obtain ⟨m', hexec, hrest⟩ := h mem hI
        obtain ⟨hmem, hcs, hsize', hip'⟩ := exec_straight hi hexec
        have hlinear : m'.linearIp = base + (o + len) := by
          simp only [Machine.linearIp] at hip ⊢
          rw [hcs, hip', ← Nat.add_assoc, ← Nat.add_assoc]
          exact congrArg (· + len) hip
        have hruns := ih (fun mem hI => (hbytes mem hI).2) (hsize'.trans hsize) hlinear hP
          hstraight hrest
        refine ⟨m', hexec, hmem ▸ hI, hruns.mono ?_⟩
        rintro m₂ ⟨hQ, hsize₂, hcs₂, hip₂⟩
        refine ⟨hQ, hsize₂, hcs₂.trans hcs, ?_⟩
        rw [hip₂, hip', List.map_cons, List.sum_cons, Nat.add_assoc]

theorem BlockRuns.append {block block' : List (Instr × ℕ)}
    (h : BlockRuns I (BlockRuns I Q block') block m) : BlockRuns I Q (block ++ block') m := by
  induction block generalizing m with
  | nil => exact h
  | cons x block ih =>
      intro mem hI
      obtain ⟨m', hexec, hrest⟩ := h mem hI
      exact ⟨m', hexec, ih hrest⟩

/-- The instruction looks at the registers only. -/
def onRegisters : Instr → Bool
  | .nop | .cli | .xor16 .. | .movFromCr .. | .movToCr .. | .orAl .. | .or32 .. | .movImm16 ..
  | .movImm32 .. | .rdmsr | .wrmsr => true
  | _ => false

theorem exec_onRegisters {i : Instr} (hi : onRegisters i = true) (h : exec i m = some m')
    (mem : Mem) : exec i { m with mem := mem } = some { m' with mem := mem } := by
  cases i with
  | nop | cli | xor16 | movFromCr | orAl | or32 | movImm16 | movImm32 =>
      obtain rfl := Option.some.inj h
      rfl
  | movToCr dst src =>
      cases dst with
      | cr0 | cr4 =>
          obtain ⟨hok, h⟩ := Option.ite_none_left_eq_some.mp h
          obtain rfl := Option.some.inj h
          exact if_neg hok
      | cr3 =>
          obtain rfl := Option.some.inj h
          rfl
  | rdmsr =>
      obtain ⟨hecx, h⟩ := Option.ite_none_right_eq_some.mp h
      obtain rfl := Option.some.inj h
      exact if_pos hecx
  | wrmsr =>
      obtain ⟨hecx, h⟩ := Option.ite_none_right_eq_some.mp h
      obtain ⟨hok, h⟩ := Option.ite_none_left_eq_some.mp h
      obtain rfl := Option.some.inj h
      exact (if_pos hecx).trans (if_neg hok)
  | movSeg | lgdt | loadEax | jmpFar | load64 | store32 | call => cases hi

/-- A block that looks at the registers only is executed as if it were alone. -/
theorem blockRuns_onRegisters {block : List (Instr × ℕ)} {w : Machine}
    (hblock : ∀ x ∈ block, onRegisters x.1 = true) (h : execBlock block m = some w)
    (hQ : ∀ mem, Q { w with mem := mem }) (mem : Mem) :
    BlockRuns I Q block { m with mem := mem } := by
  induction block generalizing m mem with
  | nil =>
      obtain rfl := Option.some.inj h
      exact hQ mem
  | cons x block ih =>
      obtain ⟨i, len⟩ := x
      obtain ⟨hi, hblock⟩ := List.forall_mem_cons.mp hblock
      obtain ⟨m₁, hexec, hrest⟩ := Option.bind_eq_some_iff.mp h
      intro mem' _
      exact ⟨{ m₁ with mem := mem' }, exec_onRegisters hi hexec mem', ih hblock hrest mem'⟩

/-- Load several segment registers from one register. -/
theorem blockRuns_movSegs {r : Reg} {segment : Segment} (segs : List DataSeg)
    (hload : ∀ mem, I mem → ∀ seg ∈ segs,
      Machine.loadData { m with mem := mem } seg (m.reg16 r) = some segment)
    (hQ : ∀ mem, Q { m with
      ip := m.ip + 2 * segs.length
      segs := fun seg => if seg ∈ segs then segment else m.segs seg
      mem := mem }) (mem : Mem) :
    BlockRuns I Q (segs.map fun seg => (.movSeg seg r, 2)) { m with mem := mem } := by
  induction segs generalizing m mem with
  | nil => simpa [BlockRuns] using hQ mem
  | cons seg segs ih =>
      intro mem' hI
      let m₁ : Machine := { m with ip := m.ip + 2, segs := Function.update m.segs seg segment }
      have hexec : exec (.movSeg seg r) { m with ip := m.ip + 2, mem := mem' } =
          some { m₁ with mem := mem' } := by
        show (Machine.loadData { m with mem := mem' } seg (m.reg16 r)).map _ = _
        rw [hload mem' hI seg List.mem_cons_self, Option.map_some]
      refine ⟨_, hexec, ih (m := m₁) ?_ ?_ mem'⟩
      · intro mem₂ hI₂ seg' hseg'
        exact hload mem₂ hI₂ seg' (List.mem_cons_of_mem _ hseg')
      · intro mem₂
        have hip : m₁.ip + 2 * segs.length = m.ip + 2 * (seg :: segs).length := by
          rw [List.length_cons]
          show m.ip + 2 + 2 * segs.length = _
          omega
        have hsegs : (fun seg' => if seg' ∈ segs then segment else m₁.segs seg') =
            fun seg' => if seg' ∈ seg :: segs then segment else m.segs seg' := by
          funext seg'
          by_cases hmem : seg' ∈ segs
          · simp [hmem]
          · by_cases heq : seg' = seg <;> simp [m₁, hmem, heq]
        rw [hip, hsegs]
        exact hQ mem₂

end SmpNostd.Interference
