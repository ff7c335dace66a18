import SmpNostd.Lib.Asm
import SmpNostd.Lib.Machine
import SmpNostd.Scheduler.Task

/-!
The context switch (`context_switch` in `scheduler.rs`).

A context that is switched away from keeps what it has been given until it is
switched to again, as it is written by nobody in between. What the switch then
restores is what the switch away from it has saved.
-/

namespace SmpNostd.ContextSwitch

open Machine Memory Asm

/-! ### The code -/

/-- The registers that the compiler has put the two pointers in, neither of which
the block writes before it last uses it, and the address of label 2. -/
structure Compiled where
  old : Reg
  new : Reg
  label2 : BitVec 64
  old_kept : old ∉ [.rax, .rsp]
  new_kept : new ∉ [.rax, .rsp, .rbp, .rbx, .r12, .r13, .r14, .r15, .rdi]

/-- The block of assembly. -/
def contextSwitch (code : Compiled) : List Instr :=
  -- Save callee-saved registers
  [.store code.old 0x00 .rsp,
    .store code.old 0x08 .rbp,
    .store code.old 0x10 .rbx,
    .store code.old 0x18 .r12,
    .store code.old 0x20 .r13,
    .store code.old 0x28 .r14,
    .store code.old 0x30 .r15,
    -- Save return address (rip) -- the address after this asm block
    .lea .rax code.label2,
    .store code.old 0x38 .rax,
    -- Save rflags
    .pushfq,
    .pop .rax,
    .store code.old 0x40 .rax,
    -- Restore callee-saved registers from new context
    .load .rsp code.new 0x00,
    .load .rbp code.new 0x08,
    .load .rbx code.new 0x10,
    .load .r12 code.new 0x18,
    .load .r13 code.new 0x20,
    .load .r14 code.new 0x28,
    .load .r15 code.new 0x30,
    -- Restore rflags
    .load .rax code.new 0x40,
    .push .rax,
    .popfq,
    -- Restore rdi (first argument for new tasks)
    .load .rdi code.new 0x68,
    -- Jump to new context's rip
    .load .rax code.new 0x38,
    .jmp .rax]

/-- The callee-saved registers, with their fields. -/
def calleeSaved : List Field :=
  [(0x00, .rsp), (0x08, .rbp), (0x10, .rbx), (0x18, .r12), (0x20, .r13), (0x28, .r14),
    (0x30, .r15)]

/-- The size of a context. -/
def size : ℕ := 0xA0

/-- The context at an address, laid out as `repr(C)` says. -/
def contextAt (mem : Mem) (a : ℕ) : CpuContext where
  rsp := load 64 mem (a + 0x00)
  rbp := load 64 mem (a + 0x08)
  rbx := load 64 mem (a + 0x10)
  r12 := load 64 mem (a + 0x18)
  r13 := load 64 mem (a + 0x20)
  r14 := load 64 mem (a + 0x28)
  r15 := load 64 mem (a + 0x30)
  rip := load 64 mem (a + 0x38)
  rflags := load 64 mem (a + 0x40)
  rax := load 64 mem (a + 0x48)
  rcx := load 64 mem (a + 0x50)
  rdx := load 64 mem (a + 0x58)
  rsi := load 64 mem (a + 0x60)
  rdi := load 64 mem (a + 0x68)
  r8 := load 64 mem (a + 0x70)
  r9 := load 64 mem (a + 0x78)
  r10 := load 64 mem (a + 0x80)
  r11 := load 64 mem (a + 0x88)
  cs := load 64 mem (a + 0x90)
  ss := load 64 mem (a + 0x98)

/-! ### Switching back and forth -/

/-- The addresses of the contexts, which do not overlap. -/
structure Layout where
  contexts : List (BitVec 64)
  fits : ∀ c ∈ contexts, c.toNat + size ≤ 2 ^ 64
  apart : ∀ c ∈ contexts, ∀ d ∈ contexts, c ≠ d →
    c.toNat + size ≤ d.toNat ∨ d.toNat + size ≤ c.toNat

structure State where
  cpu : Asm.State
  /-- The context of the task that runs. -/
  running : BitVec 64

inductive Label
  /-- The task that runs goes on for a while. -/
  | work (regs : Reg → BitVec 64) (flags : Flags) (rip : BitVec 64) (stores : List (ℕ × Byte))
  /-- It calls `context_switch` with its own context and another one. -/
  | switch (new : BitVec 64)

/-- The `n` bytes from `a` on are in no context. -/
def Layout.Outside (layout : Layout) (a n : ℕ) : Prop :=
  ∀ c ∈ layout.contexts, a + n ≤ c.toNat ∨ c.toNat + size ≤ a

instance (layout : Layout) (a n : ℕ) : Decidable (layout.Outside a n) :=
  List.decidableBAll (fun c : BitVec 64 => a + n ≤ c.toNat ∨ c.toNat + size ≤ a) layout.contexts

/-- When `context_switch` is called: the pointers are in their registers, and the
stacks, of which the block uses one word each, do not overlap the contexts. -/
structure CanSwitch (code : Compiled) (layout : Layout) (s : State) (new : BitVec 64) : Prop where
  running_mem : s.running ∈ layout.contexts
  new_mem : new ∈ layout.contexts
  ne : new ≠ s.running
  oldReg : s.cpu.regs code.old = s.running
  newReg : s.cpu.regs code.new = new
  oldStack : layout.Outside s.cpu.slot 8
  newStack : layout.Outside (load 64 s.cpu.mem (new.toNat + 0x00) - 8).toNat 8

instance (code : Compiled) (layout : Layout) (s : State) (new : BitVec 64) :
    Decidable (CanSwitch code layout s new) :=
  decidable_of_iff (s.running ∈ layout.contexts ∧ new ∈ layout.contexts ∧ new ≠ s.running ∧
      s.cpu.regs code.old = s.running ∧ s.cpu.regs code.new = new ∧
      layout.Outside s.cpu.slot 8 ∧
      layout.Outside (load 64 s.cpu.mem (new.toNat + 0x00) - 8).toNat 8)
    ⟨fun ⟨h₁, h₂, h₃, h₄, h₅, h₆, h₇⟩ => ⟨h₁, h₂, h₃, h₄, h₅, h₆, h₇⟩,
      fun ⟨h₁, h₂, h₃, h₄, h₅, h₆, h₇⟩ => ⟨h₁, h₂, h₃, h₄, h₅, h₆, h₇⟩⟩

/-- Store some bytes one after the other. -/
def storeAll (mem : Mem) (stores : List (ℕ × Byte)) : Mem :=
  stores.foldl (fun mem x => Function.update mem x.1 x.2) mem

def step (code : Compiled) (layout : Layout) (s : State) : Label → Option State
  | .work regs flags rip stores =>
      if ∀ x ∈ stores, layout.Outside x.1 1 then
        some { s with cpu := ⟨regs, flags, rip, storeAll s.cpu.mem stores⟩ }
      else none
  | .switch new =>
      if CanSwitch code layout s new then
        some { cpu := execAll s.cpu (contextSwitch code), running := new }
      else none

/-! ### What the block does -/

/-- The rest of what is saved. -/
def saveRest (code : Compiled) : List Instr :=
  [.lea .rax code.label2, .store code.old 0x38 .rax, .pushfq, .pop .rax, .store code.old 0x40 .rax]

/-- The rest of what is restored. -/
def restoreRest (code : Compiled) : List Instr :=
  [.load .rax code.new 0x40, .push .rax, .popfq, .load .rdi code.new 0x68, .load .rax code.new 0x38,
    .jmp .rax]

theorem contextSwitch_eq (code : Compiled) : contextSwitch code =
    saves code.old calleeSaved ++ saveRest code ++
      (restores code.new calleeSaved ++ restoreRest code) := rfl

variable {code : Compiled} {layout : Layout} {s t m : State} {new c : BitVec 64}

theorem calleeSaved_le {f : Field} (hf : f ∈ calleeSaved) : f.1 + 8 ≤ 0x38 := by
  have hall : ∀ f ∈ calleeSaved, f.1 + 8 ≤ 0x38 := by decide
  exact hall f hf

theorem calleeSaved_fits {a : ℕ} (hfits : a + size ≤ 2 ^ 64) {f : Field}
    (hf : f ∈ calleeSaved) : a + f.1 < 2 ^ 64 := by
  have hle := calleeSaved_le hf
  unfold size at hfits
  omega

/-- The pointer to the new context is still there when the registers have been
restored. -/
theorem calleeSaved_ne_new (code : Compiled) : ∀ f ∈ calleeSaved, f.2 ≠ code.new := by
  have hin : ∀ f ∈ calleeSaved, f.2 ∈
      [Reg.rax, .rsp, .rbp, .rbx, .r12, .r13, .r14, .r15, .rdi] := by decide
  intro f hf heq
  exact code.new_kept (heq ▸ hin f hf)

theorem loadFields_rsp (mem : Mem) (a : ℕ) (regs : Reg → BitVec 64) :
    loadFields mem a regs calleeSaved .rsp = load 64 mem (a + 0x00) :=
  loadFields_of_mem (f := (0x00, .rsp)) (by decide) (by decide)

/-- The block reaches fields of a context without wrapping around. -/
theorem addr_field {s : Asm.State} {base : Reg} {disp : ℕ}
    (hfits : (s.regs base).toNat + size ≤ 2 ^ 64) (hdisp : disp < size) :
    s.addr base disp = (s.regs base).toNat + disp :=
  addr_eq (by omega)

theorem execAll_saveRest (code : Compiled) (s : Asm.State)
    (hfits : (s.regs code.old).toNat + size ≤ 2 ^ 64) :
    execAll s (saveRest code) = { s.set .rax s.flags.pushed with
      mem := store (store (store s.mem ((s.regs code.old).toNat + 0x38) code.label2)
        s.slot s.flags.pushed) ((s.regs code.old).toNat + 0x40) s.flags.pushed } := by
  have hkept := code.old_kept
  simp only [List.mem_cons, List.not_mem_nil, or_false, not_or] at hkept
  have hrip : (s.set .rax code.label2).addr code.old 0x38 = (s.regs code.old).toNat + 0x38 :=
    (set_addr_of_ne hkept.1 _).trans (addr_field hfits (by decide))
  have hrflags : (s.set .rax s.flags.pushed).addr code.old 0x40 =
      (s.regs code.old).toNat + 0x40 :=
    (set_addr_of_ne hkept.1 _).trans (addr_field hfits (by decide))
  have hslot : (s.set .rax code.label2).slot = s.slot := set_slot_of_ne (by decide) _
  have htwice : Function.update (Function.update s.regs .rax code.label2) .rax s.flags.pushed =
      Function.update s.regs .rax s.flags.pushed := Function.update_idem ..
  rw [saveRest, execAll_cons, execAll_cons, execAll_cons, execAll_cons, exec_pushfq_pop,
    execAll_cons, execAll_nil]
  simp only [exec, hrip, set_regs_self]
  simp only [Asm.State.addr, Asm.State.slot, Asm.State.set] at hrflags hslot ⊢
  simp only [htwice, hslot, hrflags]

theorem execAll_restoreRest (code : Compiled) (s : Asm.State)
    (hfits : (s.regs code.new).toNat + size ≤ 2 ^ 64) :
    let b := (s.regs code.new).toNat
    let mem := store s.mem s.slot (load 64 s.mem (b + 0x40))
    execAll s (restoreRest code) =
      { regs := ((s.set .rdi (load 64 mem (b + 0x68))).set .rax (load 64 mem (b + 0x38))).regs
        flags := .popped (load 64 s.mem (b + 0x40))
        rip := load 64 mem (b + 0x38)
        mem := mem } := by
  intro b mem
  have hkept := code.new_kept
  simp only [List.mem_cons, List.not_mem_nil, or_false, not_or] at hkept
  obtain ⟨hrax, -, -, -, -, -, -, -, hrdi⟩ := hkept
  have hrflags : s.addr code.new 0x40 = b + 0x40 := addr_field hfits (by decide)
  have harg : ∀ v, (s.set .rax v).addr code.new 0x68 = b + 0x68 := by
    intro v
    rw [set_addr_of_ne hrax, addr_field hfits (by decide)]
  have hrip : ∀ v w, ((s.set .rax v).set .rdi w).addr code.new 0x38 = b + 0x38 := by
    intro v w
    rw [set_addr_of_ne hrdi, set_addr_of_ne hrax, addr_field hfits (by decide)]
  have hslot : ∀ v, (s.set .rax v).slot = s.slot := set_slot_of_ne (by decide)
  have hregs : ∀ u v w, Function.update (Function.update (Function.update s.regs .rax u) .rdi v)
      .rax w = Function.update (Function.update s.regs .rdi v) .rax w := by
    intro u v w
    rw [Function.update_comm (show Reg.rdi ≠ .rax by decide), Function.update_idem,
      Function.update_comm (by decide)]
  rw [restoreRest, execAll_cons, execAll_cons, execAll_cons, exec_push_popfq]
  simp only [exec, hrflags, set_regs_self, execAll_cons, execAll_nil]
  simp only [Asm.State.addr, Asm.State.slot, Asm.State.set] at harg hrip hslot ⊢
  simp only [hslot, harg, hrip, hregs, mem, Asm.State.slot]

/-- The memory after the first half of the block. -/
def savedMem (code : Compiled) (s : Asm.State) : Mem :=
  store (store (store (storeFields s.mem (s.regs code.old).toNat s.regs calleeSaved)
    ((s.regs code.old).toNat + 0x38) code.label2) s.slot s.flags.pushed)
    ((s.regs code.old).toNat + 0x40) s.flags.pushed

theorem execAll_save (code : Compiled) (s : Asm.State)
    (hfits : (s.regs code.old).toNat + size ≤ 2 ^ 64) :
    execAll s (saves code.old calleeSaved ++ saveRest code) =
      { s.set .rax s.flags.pushed with mem := savedMem code s } := by
  rw [execAll_append, execAll_saves fun _ => calleeSaved_fits hfits]
  exact execAll_saveRest code _ hfits

theorem execAll_restore (code : Compiled) (s : Asm.State)
    (hfits : (s.regs code.new).toNat + size ≤ 2 ^ 64) :
    let b := (s.regs code.new).toNat
    let slot := (load 64 s.mem (b + 0x00) - 8).toNat
    let mem := store s.mem slot (load 64 s.mem (b + 0x40))
    let regs := loadFields s.mem b s.regs calleeSaved
    execAll s (restores code.new calleeSaved ++ restoreRest code) =
      { regs := Function.update (Function.update regs .rdi (load 64 mem (b + 0x68))) .rax
          (load 64 mem (b + 0x38))
        flags := .popped (load 64 s.mem (b + 0x40))
        rip := load 64 mem (b + 0x38)
        mem := mem } := by
  intro b slot mem regs
  have hbase := calleeSaved_ne_new code
  have hnew : regs code.new = s.regs code.new := loadFields_of_notMem hbase
  have hrsp : regs .rsp = load 64 s.mem (b + 0x00) := loadFields_rsp s.mem b s.regs
  have hstill : (regs code.new).toNat + size ≤ 2 ^ 64 := by rwa [hnew]
  have hrest := execAll_restoreRest code { s with regs := regs } hstill
  simp only [Asm.State.slot, Asm.State.set, hnew, hrsp] at hrest
  rw [execAll_append, execAll_restores (fun _ => calleeSaved_fits hfits) hbase]
  exact hrest

/-! ### What becomes of the contexts -/

section

variable {k x disp : ℕ} {mem mem' : Mem} {v : BitVec 64} {f : Field}

theorem Layout.Outside.store_byte (h : layout.Outside x 8) (hc : c ∈ layout.contexts)
    (hk : k < size) : store mem x v (c.toNat + k) = mem (c.toNat + k) := by
  have hout := h c hc
  exact store_outside (by omega)

/-- A field of a context depends on the bytes of the context. -/
theorem load_field (h : ∀ k < size, mem (c.toNat + k) = mem' (c.toNat + k))
    (hdisp : disp + 8 ≤ size) : load 64 mem (c.toNat + disp) = load 64 mem' (c.toNat + disp) := by
  refine load_congr fun k hk => ?_
  rw [Nat.add_assoc]
  exact h (disp + k) (by omega)

theorem contextAt_congr (h : ∀ k < size, mem (c.toNat + k) = mem' (c.toNat + k)) :
    contextAt mem c.toNat = contextAt mem' c.toNat := by
  have hfield : ∀ disp, disp + 8 ≤ size →
      load 64 mem (c.toNat + disp) = load 64 mem' (c.toNat + disp) := fun _ => load_field h
  simp (disch := decide) only [contextAt, hfield]

/-- The memory after the block. -/
def switchedMem (code : Compiled) (s : State) (new : BitVec 64) : Mem :=
  store (savedMem code s.cpu) (load 64 s.cpu.mem (new.toNat + 0x00) - 8).toNat
    (load 64 s.cpu.mem (new.toNat + 0x40))

variable (h : CanSwitch code layout s new)
include h

theorem CanSwitch.old_fits : (s.cpu.regs code.old).toNat + size ≤ 2 ^ 64 := by
  rw [h.oldReg]
  exact layout.fits s.running h.running_mem

/-- The first half of the block leaves the pointer to the new context alone. -/
theorem CanSwitch.new_after_save :
    (s.cpu.set .rax s.cpu.flags.pushed).regs code.new = new := by
  have hrax : code.new ≠ .rax := fun heq => code.new_kept (heq ▸ List.mem_cons_self)
  rw [set_regs_of_ne hrax, h.newReg]

/-- The first half of the block writes to the context of the task that runs and
below its stack. -/
theorem savedMem_other (hc : c ∈ layout.contexts) (hne : c ≠ s.running) (hk : k < size) :
    savedMem code s.cpu (c.toNat + k) = s.cpu.mem (c.toNat + k) := by
  have hapart := layout.apart c hc s.running h.running_mem hne
  unfold size at hapart hk
  rw [savedMem, h.oldReg, store_outside (by omega), h.oldStack.store_byte hc hk,
    store_outside (by omega)]
  refine storeFields_outside fun f hf => ?_
  have hle := calleeSaved_le hf
  omega

/-- The second half writes below the new stack only. -/
theorem switchedMem_kept (hc : c ∈ layout.contexts) (hk : k < size) :
    switchedMem code s new (c.toNat + k) = savedMem code s.cpu (c.toNat + k) :=
  h.newStack.store_byte hc hk

theorem switchedMem_other (hc : c ∈ layout.contexts) (hne : c ≠ s.running) (hk : k < size) :
    switchedMem code s new (c.toNat + k) = s.cpu.mem (c.toNat + k) :=
  (switchedMem_kept h hc hk).trans (savedMem_other h hc hne hk)

theorem load_switchedMem (hdisp : disp + 8 ≤ size) :
    load 64 (switchedMem code s new) (s.running.toNat + disp) =
      load 64 (savedMem code s.cpu) (s.running.toNat + disp) :=
  load_field (fun _ => switchedMem_kept h h.running_mem) hdisp

theorem load_savedMem (hf : f ∈ calleeSaved) :
    load 64 (savedMem code s.cpu) (s.running.toNat + f.1) = s.cpu.regs f.2 := by
  have hout := h.oldStack s.running h.running_mem
  have hle := calleeSaved_le hf
  unfold size at hout
  rw [savedMem, h.oldReg, load_store_disjoint (by omega), load_store_disjoint (by omega),
    load_store_disjoint (by omega)]
  exact load_storeFields (by decide) hf

theorem load_savedMem_rip :
    load 64 (savedMem code s.cpu) (s.running.toNat + 0x38) = code.label2 := by
  have hout := h.oldStack s.running h.running_mem
  unfold size at hout
  rw [savedMem, h.oldReg, load_store_disjoint (by omega), load_store_disjoint (by omega),
    load_store_self (by decide)]

theorem load_savedMem_rflags :
    load 64 (savedMem code s.cpu) (s.running.toNat + 0x40) = s.cpu.flags.pushed := by
  rw [savedMem, h.oldReg, load_store_self (by decide)]

end

/-- The block saves everything to the context of the task that runs, restores
everything from the new one, and leaves all contexts but the first as they are. -/
structure Switched (code : Compiled) (layout : Layout) (s : State) (new : BitVec 64)
    (t : Asm.State) : Prop where
  saved : ∀ f ∈ calleeSaved, load 64 t.mem (s.running.toNat + f.1) = s.cpu.regs f.2
  saved_rip : load 64 t.mem (s.running.toNat + 0x38) = code.label2
  saved_rflags : load 64 t.mem (s.running.toNat + 0x40) = s.cpu.flags.pushed
  restored : ∀ f ∈ calleeSaved, t.regs f.2 = load 64 s.cpu.mem (new.toNat + f.1)
  arg : t.regs .rdi = load 64 s.cpu.mem (new.toNat + 0x68)
  rip : t.rip = load 64 s.cpu.mem (new.toNat + 0x38)
  flags : t.flags = .popped (load 64 s.cpu.mem (new.toNat + 0x40))
  others : ∀ c ∈ layout.contexts, c ≠ s.running →
    ∀ k < size, t.mem (c.toNat + k) = s.cpu.mem (c.toNat + k)

theorem execAll_contextSwitch (h : CanSwitch code layout s new) :
    let b := new.toNat
    let saved := savedMem code s.cpu
    let mem := switchedMem code s new
    let regs := loadFields saved b (Function.update s.cpu.regs .rax s.cpu.flags.pushed) calleeSaved
    execAll s.cpu (contextSwitch code) =
      { regs := Function.update (Function.update regs .rdi (load 64 mem (b + 0x68))) .rax
          (load 64 mem (b + 0x38))
        flags := .popped (load 64 s.cpu.mem (b + 0x40))
        rip := load 64 mem (b + 0x38)
        mem := mem } := by
  have hnew := h.new_after_save
  have hfits : ((s.cpu.set .rax s.cpu.flags.pushed).regs code.new).toNat + size ≤ 2 ^ 64 := by
    rw [hnew]
    exact layout.fits new h.new_mem
  have hfield : ∀ disp, disp + 8 ≤ size → load 64 (savedMem code s.cpu) (new.toNat + disp) =
      load 64 s.cpu.mem (new.toNat + disp) :=
    fun _ => load_field fun _ => savedMem_other h h.new_mem h.ne
  have hrest := execAll_restore code
    { s.cpu.set .rax s.cpu.flags.pushed with mem := savedMem code s.cpu } hfits
  simp only [hnew] at hrest
  rw [hfield 0x00 (by decide), hfield 0x40 (by decide)] at hrest
  rw [contextSwitch_eq, execAll_append, execAll_save code s.cpu h.old_fits]
  exact hrest

theorem switched (h : CanSwitch code layout s new) :
    Switched code layout s new (execAll s.cpu (contextSwitch code)) := by
  have hsize : ∀ f ∈ calleeSaved, f.1 + 8 ≤ size :=
    fun f hf => (calleeSaved_le hf).trans (by decide)
  have hnew : ∀ disp, disp + 8 ≤ size → load 64 (switchedMem code s new) (new.toNat + disp) =
      load 64 s.cpu.mem (new.toNat + disp) :=
    fun _ => load_field fun _ => switchedMem_other h h.new_mem h.ne
  generalize ht : execAll s.cpu (contextSwitch code) = t
  rw [execAll_contextSwitch h] at ht
  have hregs : t.regs = Function.update (Function.update (loadFields (savedMem code s.cpu) new.toNat
      (Function.update s.cpu.regs .rax s.cpu.flags.pushed) calleeSaved)
      .rdi (load 64 (switchedMem code s new) (new.toNat + 0x68)))
      .rax (load 64 (switchedMem code s new) (new.toNat + 0x38)) := by rw [← ht]
  have hmem : t.mem = switchedMem code s new := by rw [← ht]
  have hrip : t.rip = load 64 (switchedMem code s new) (new.toNat + 0x38) := by rw [← ht]
  constructor
  case saved =>
    intro f hf
    rw [hmem, load_switchedMem h (hsize f hf), load_savedMem h hf]
  case saved_rip => rw [hmem, load_switchedMem h (by decide), load_savedMem_rip h]
  case saved_rflags => rw [hmem, load_switchedMem h (by decide), load_savedMem_rflags h]
  case restored =>
    intro f hf
    have hrax : ∀ f ∈ calleeSaved, f.2 ≠ .rax := by decide
    have hrdi : ∀ f ∈ calleeSaved, f.2 ≠ .rdi := by decide
    rw [hregs, Function.update_of_ne (hrax f hf), Function.update_of_ne (hrdi f hf),
      loadFields_of_mem (by decide) hf]
    exact load_field (fun _ => savedMem_other h h.new_mem h.ne) (hsize f hf)
  case arg =>
    rw [hregs, Function.update_of_ne (by decide), Function.update_self, hnew 0x68 (by decide)]
  case rip => rw [hrip, hnew 0x38 (by decide)]
  case flags => rw [← ht]
  case others =>
    intro c hc hne k hk
    rw [hmem, switchedMem_other h hc hne hk]

/-! ### Any schedule -/

variable {s₁ : State} {as : List Label} {a : Label} {k : ℕ}

theorem step_switch (hcan : CanSwitch code layout s new) :
    step code layout s (.switch new) = some ⟨execAll s.cpu (contextSwitch code), new⟩ :=
  if_pos hcan

theorem canSwitch_of_step (hstep : step code layout s (.switch new) = some t) :
    CanSwitch code layout s new ∧ t = ⟨execAll s.cpu (contextSwitch code), new⟩ := by
  by_cases hcan : CanSwitch code layout s new
  · rw [step_switch hcan] at hstep
    exact ⟨hcan, (Option.some.inj hstep).symm⟩
  · rw [step, if_neg hcan] at hstep
    cases hstep

theorem step_work {regs : Reg → BitVec 64} {flags : Flags} {rip : BitVec 64}
    {stores : List (ℕ × Byte)} (hstep : step code layout s (.work regs flags rip stores) = some t) :
    (∀ x ∈ stores, layout.Outside x.1 1) ∧
      t = { s with cpu := ⟨regs, flags, rip, storeAll s.cpu.mem stores⟩ } := by
  by_cases hout : ∀ x ∈ stores, layout.Outside x.1 1
  · rw [step, if_pos hout] at hstep
    exact ⟨hout, (Option.some.inj hstep).symm⟩
  · rw [step, if_neg hout] at hstep
    cases hstep

theorem step_switched (hstep : step code layout s (.switch new) = some t) :
    Switched code layout s new t.cpu := by
  obtain ⟨hcan, rfl⟩ := canSwitch_of_step hstep
  exact switched hcan

theorem storeAll_outside {mem : Mem} {stores : List (ℕ × Byte)} {x : ℕ}
    (h : ∀ y ∈ stores, x ≠ y.1) : storeAll mem stores x = mem x := by
  induction stores generalizing mem with
  | nil => rfl
  | cons y stores ih =>
      obtain ⟨hy, hstores⟩ := List.forall_mem_cons.mp h
      exact (ih hstores).trans (Function.update_of_ne hy ..)

/-- Only a switch away from a context writes to it. -/
theorem step_kept (hstep : step code layout s a = some t) (hc : c ∈ layout.contexts)
    (hne : c ≠ s.running) (hk : k < size) :
    t.cpu.mem (c.toNat + k) = s.cpu.mem (c.toNat + k) := by
  cases a with
  | work regs flags rip stores =>
      obtain ⟨hout, rfl⟩ := step_work hstep
      refine storeAll_outside fun x hx => ?_
      have hx := hout x hx c hc
      omega
  | switch new => exact (step_switched hstep).others c hc hne k hk

theorem step_running_ne (hstep : step code layout s a = some t) (hne : c ≠ s.running)
    (ha : .switch c ≠ a) : c ≠ t.running := by
  cases a with
  | work regs flags rip stores =>
      obtain ⟨-, rfl⟩ := step_work hstep
      exact hne
  | switch new =>
      obtain ⟨-, rfl⟩ := canSwitch_of_step hstep
      exact fun heq => ha (congrArg Label.switch heq)

/-- A context stays as it is until it is switched to. -/
theorem run_kept (hrun : run (step code layout) s as = some t) (hc : c ∈ layout.contexts)
    (hne : c ≠ s.running) (has : .switch c ∉ as) (hk : k < size) :
    t.cpu.mem (c.toNat + k) = s.cpu.mem (c.toNat + k) := by
  induction as generalizing s with
  | nil =>
      obtain rfl := Option.some.inj hrun
      rfl
  | cons a as ih =>
      obtain ⟨m, hm, hrest⟩ := run_cons_eq_some.mp hrun
      obtain ⟨ha, has⟩ := not_or.mp (mt List.mem_cons.mpr has)
      rw [ih hrest (step_running_ne hm hne ha) has, step_kept hm hc hne hk]

/-- A suspended task goes on at label 2 with the registers and the flags that it
had. -/
theorem resumed (hstep : step code layout s (.switch new) = some s₁)
    (hrun : run (step code layout) s₁ as = some m) (has : .switch s.running ∉ as)
    (hback : step code layout m (.switch s.running) = some t) :
    t.cpu.rip = code.label2 ∧ t.cpu.flags = s.cpu.flags ∧
      ∀ f ∈ calleeSaved, t.cpu.regs f.2 = s.cpu.regs f.2 := by
  have haway := step_switched hstep
  have hto := step_switched hback
  obtain ⟨hcan, hs₁⟩ := canSwitch_of_step hstep
  have hne : s.running ≠ s₁.running := by
    rw [hs₁]
    exact hcan.ne.symm
  have hfield : ∀ disp, disp + 8 ≤ size → load 64 m.cpu.mem (s.running.toNat + disp) =
      load 64 s₁.cpu.mem (s.running.toNat + disp) :=
    fun _ => load_field fun _ => run_kept hrun hcan.running_mem hne has
  refine ⟨?_, ?_, fun f hf => ?_⟩
  · rw [hto.rip, hfield 0x38 (by decide), haway.saved_rip]
  · rw [hto.flags, hfield 0x40 (by decide), haway.saved_rflags, Flags.popped_pushed]
  · rw [hto.restored f hf, hfield f.1 ((calleeSaved_le hf).trans (by decide)), haway.saved f hf]

/-- What a task starts from when its context is switched to for the first time. -/
theorem started {entry stackTop arg : BitVec 64}
    (hfresh : contextAt s.cpu.mem c.toNat = .newTask entry stackTop arg) (hne : c ≠ s.running)
    (hrun : run (step code layout) s as = some m) (has : .switch c ∉ as)
    (hstart : step code layout m (.switch c) = some t) :
    t.cpu.rip = entry ∧ t.cpu.regs .rsp = stackTop ∧ t.cpu.regs .rbp = stackTop ∧
      t.cpu.regs .rdi = arg ∧ t.cpu.flags.bits = 0x200 ∧
      ∀ r ∈ [Reg.rbx, .r12, .r13, .r14, .r15], t.cpu.regs r = 0 := by
  have hto := step_switched hstart
  obtain ⟨hcan, -⟩ := canSwitch_of_step hstart
  have hm : contextAt m.cpu.mem c.toNat = .newTask entry stackTop arg := by
    rw [contextAt_congr fun _ => run_kept hrun hcan.new_mem hne has, hfresh]
  simp only [contextAt, CpuContext.newTask, CpuContext.zeroed, CpuContext.mk.injEq] at hm
  obtain ⟨hrsp, hrbp, hrbx, hr12, hr13, hr14, hr15, hrip, hrflags, -, -, -, -, hrdi, -⟩ := hm
  refine ⟨hto.rip.trans hrip, (hto.restored (0x00, .rsp) (by decide)).trans hrsp,
    (hto.restored (0x08, .rbp) (by decide)).trans hrbp, hto.arg.trans hrdi, ?_, ?_⟩
  · rw [hto.flags, hrflags]
    decide
  · rw [List.forall_mem_cons, List.forall_mem_cons, List.forall_mem_cons, List.forall_mem_cons,
      List.forall_mem_singleton]
    exact ⟨(hto.restored (0x10, .rbx) (by decide)).trans hrbx,
      (hto.restored (0x18, .r12) (by decide)).trans hr12,
      (hto.restored (0x20, .r13) (by decide)).trans hr13,
      (hto.restored (0x28, .r14) (by decide)).trans hr14,
      (hto.restored (0x30, .r15) (by decide)).trans hr15⟩

/-- Along any schedule, a suspended task is resumed with what it had, and a new
one is started from what it has been given, as a switch modifies no context but
the one that it switches away from. -/
theorem preserved_over_schedules (code : Compiled) (layout : Layout) :
    (∀ (s s₁ m t : State) (new : BitVec 64) (as : List Label),
      step code layout s (.switch new) = some s₁ → run (step code layout) s₁ as = some m →
      .switch s.running ∉ as → step code layout m (.switch s.running) = some t →
      t.cpu.rip = code.label2 ∧ t.cpu.flags = s.cpu.flags ∧
        ∀ r ∈ [Reg.rsp, .rbp, .rbx, .r12, .r13, .r14, .r15], t.cpu.regs r = s.cpu.regs r) ∧
    (∀ (s m t : State) (c entry stackTop arg : BitVec 64) (as : List Label),
      contextAt s.cpu.mem c.toNat = .newTask entry stackTop arg → c ≠ s.running →
      run (step code layout) s as = some m → .switch c ∉ as →
      step code layout m (.switch c) = some t →
      t.cpu.rip = entry ∧ t.cpu.regs .rsp = stackTop ∧ t.cpu.regs .rbp = stackTop ∧
        t.cpu.regs .rdi = arg ∧ t.cpu.flags.bits = 0x200 ∧
        ∀ r ∈ [Reg.rbx, .r12, .r13, .r14, .r15], t.cpu.regs r = 0) ∧
    ∀ (s t : State) (new : BitVec 64), step code layout s (.switch new) = some t →
      ∀ c ∈ layout.contexts, c ≠ s.running →
        (∀ k < size, t.cpu.mem (c.toNat + k) = s.cpu.mem (c.toNat + k)) ∧
          contextAt t.cpu.mem c.toNat = contextAt s.cpu.mem c.toNat := by
  refine ⟨?_, ?_, ?_⟩
  · intro s s₁ m t new as hstep hrun has hback
    obtain ⟨hrip, hflags, hregs⟩ := resumed hstep hrun has hback
    have hall : ∀ r ∈ calleeSaved.map Prod.snd, t.cpu.regs r = s.cpu.regs r :=
      List.forall_mem_map.mpr hregs
    exact ⟨hrip, hflags, hall⟩
  · intro s m t c entry stackTop arg as hfresh hne hrun has hstart
    exact started hfresh hne hrun has hstart
  · intro s t new hstep c hc hne
    have hbytes := (step_switched hstep).others c hc hne
    exact ⟨hbytes, contextAt_congr hbytes⟩

/-- A task at 0x1000 switches to a new one at 0x2000, which switches back. -/
def pairCode : Compiled where
  old := .rcx
  new := .rdx
  label2 := 0x4000
  old_kept := by decide
  new_kept := by decide

def pairLayout : Layout where
  contexts := [0x1000, 0x2000]
  fits := by simp [size]
  apart := by simp [size]

def pairRegs (old new stack : BitVec 64) : Reg → BitVec 64
  | .rcx => old
  | .rdx => new
  | .rsp => stack
  | .rbx => 11
  | _ => 5

def pairMem : Mem :=
  [(0x2000, 0x8000), (0x2008, 0x8000), (0x2038, 0x5000), (0x2040, 0x200), (0x2068, 7),
    (0x2090, 0x08), (0x2098, 0x10)].foldl
    (fun mem x => store mem x.1 (BitVec.ofNat 64 x.2)) fun _ => 0

def pairStart : State where
  cpu :=
    { regs := pairRegs 0x1000 0x2000 0x9000
      flags := ⟨0x44, by decide⟩
      rip := 0x4444
      mem := pairMem }
  running := 0x1000

def pairSwitched : State where
  cpu := execAll pairStart.cpu (contextSwitch pairCode)
  running := 0x2000

/-- The new task pushes something and is about to switch back. -/
def pairWork : Label :=
  .work (pairRegs 0x2000 0x1000 0x7ff8) ⟨0x200, by decide⟩ 0x5555 [(0x7ff8, 1)]

def pairBusy : State where
  cpu := ⟨pairRegs 0x2000 0x1000 0x7ff8, ⟨0x200, by decide⟩, 0x5555,
    storeAll pairSwitched.cpu.mem [(0x7ff8, 1)]⟩
  running := 0x2000

def pairBack : State where
  cpu := execAll pairBusy.cpu (contextSwitch pairCode)
  running := 0x1000

theorem preserved_over_schedules_pair :
    (pairBack.cpu.rip = 0x4000 ∧ pairBack.cpu.flags = pairStart.cpu.flags ∧
      ∀ r ∈ [Reg.rsp, .rbp, .rbx, .r12, .r13, .r14, .r15],
        pairBack.cpu.regs r = pairStart.cpu.regs r) ∧
    (pairSwitched.cpu.rip = 0x5000 ∧ pairSwitched.cpu.regs .rsp = 0x8000 ∧
      pairSwitched.cpu.regs .rbp = 0x8000 ∧ pairSwitched.cpu.regs .rdi = 7 ∧
      pairSwitched.cpu.flags.bits = 0x200 ∧
      ∀ r ∈ [Reg.rbx, .r12, .r13, .r14, .r15], pairSwitched.cpu.regs r = 0) ∧
    contextAt pairSwitched.cpu.mem (0x2000 : BitVec 64).toNat =
      contextAt pairStart.cpu.mem (0x2000 : BitVec 64).toNat := by
  obtain ⟨hresumed, hstarted, hothers⟩ := preserved_over_schedules pairCode pairLayout
  have haway : step pairCode pairLayout pairStart (.switch 0x2000) = some pairSwitched :=
    step_switch (by decide +kernel)
  have hstores : ∀ x ∈ [(0x7ff8, (1 : Byte))], pairLayout.Outside x.1 1 := by decide +kernel
  have hwork : run (step pairCode pairLayout) pairSwitched [pairWork] = some pairBusy := by
    rw [run_singleton, pairWork, step, if_pos hstores]
    rfl
  have hback : step pairCode pairLayout pairBusy (.switch 0x1000) = some pairBack :=
    step_switch (by decide +kernel)
  have hnot : Label.switch pairStart.running ∉ [pairWork] := by
    simp [pairWork]
  have hfresh : contextAt pairStart.cpu.mem (0x2000 : BitVec 64).toNat =
      .newTask 0x5000 0x8000 7 := by
    decide +kernel
  exact ⟨hresumed _ _ _ _ _ _ haway hwork hnot hback,
    hstarted _ _ _ _ _ _ _ [] hfresh (by decide) rfl List.not_mem_nil haway,
    (hothers _ _ _ haway 0x2000 (by decide) (by decide)).2⟩

end SmpNostd.ContextSwitch
