import SmpNostd.Boot.Entry
import SmpNostd.Boot.RaceFree
import SmpNostd.Scheduler.ContextSwitch

/-!
The stack on which a function is entered for the first time (`Task::new` and
`context_switch` in `scheduler.rs`; `boot_aps` in `driver.rs` and the end of the
trampoline).

Both kinds of stacks begin at the end of an allocation, rounded down to 16 bytes.
But the calling convention wants the stack pointer to be 8 bytes below such an
address when a function is entered, as the return address is there then. The
trampoline calls `ap_entry`, so it is; the context switch jumps to the function of
a task, so it is not.
-/

namespace SmpNostd.StackEntry

open Memory

/-! ### The rule -/

/-- A function at its first instruction. -/
structure Arrival where
  ip : ℕ
  rsp : BitVec 64
  /-- The addresses of the words that have been pushed on the stack so far. -/
  pushed : List ℕ

namespace Arrival

/-- There is room for a return address above the stack pointer, and the address
above that is a multiple of 16. -/
def Aligned (a : Arrival) : Prop := (a.rsp.toNat + 8) % 16 = 0

/-- Nothing of the stack is outside of the allocation. -/
structure Inside (a : Arrival) (stackPtr stackSize : BitVec 64) : Prop where
  above : stackPtr.toNat ≤ a.rsp.toNat
  below : a.rsp.toNat ≤ stackPtr.toNat + stackSize.toNat
  pushed : ∀ slot ∈ a.pushed,
    stackPtr.toNat ≤ slot ∧ slot + 8 ≤ stackPtr.toNat + stackSize.toNat

end Arrival

/-! ### The two ways in -/

/-- `stack_top_aligned`, in `Task::new` and in `boot_aps`. -/
def stackTopAligned (stackPtr stackSize : BitVec 64) : BitVec 64 :=
  (stackPtr + stackSize) &&& ~~~0xF

/-- The two kinds of functions that are entered. -/
inductive Kind
  /-- The function of a task. -/
  | task
  /-- The entry point of an AP. -/
  | ap
  deriving DecidableEq, Repr

/-- A function is entered for the first time, on a stack of its own. -/
inductive Entered (stackPtr stackSize : BitVec 64) : Kind → BitVec 64 → Arrival → Prop
  /-- A new task waits at `c`, and is then switched to for the first time. What has
  been pushed before its stack was loaded is on the stack of another task. -/
  | task {code : ContextSwitch.Compiled} {layout : ContextSwitch.Layout}
      {s m t : ContextSwitch.State} {as : List ContextSwitch.Label} {c entry arg : BitVec 64}
      {id : ℕ} {name : String}
      (hnew : ContextSwitch.contextAt s.cpu.mem c.toNat =
        (Task.new id stackPtr name entry arg stackSize).context)
      (hne : c ≠ s.running) (hrun : Machine.run (ContextSwitch.step code layout) s as = some m)
      (hwaits : .switch c ∉ as) (hstep : ContextSwitch.step code layout m (.switch c) = some t) :
      Entered stackPtr stackSize .task entry
        { ip := t.cpu.rip.toNat
          rsp := t.cpu.regs .rsp
          pushed := Asm.pushed
            (Asm.execAll m.cpu (Asm.saves code.old ContextSwitch.calleeSaved ++
              ContextSwitch.saveRest code))
            (Asm.restores code.new ContextSwitch.calleeSaved ++ ContextSwitch.restoreRest code) }
  /-- An AP gets to the call at the end of the trampoline, the first instruction there
  that pushes anything, and executes it. -/
  | ap {m m' m'' : X86.Machine} {pml4Addr entry : BitVec 64} {cpuIndex : BitVec 32}
      (hreaches : X86.Reaches Trampoline.callPhys (Trampoline.start64 m pml4Addr
        (stackTopAligned stackPtr stackSize) entry cpuIndex) m')
      (hstep : X86.step m' = some m'') :
      Entered stackPtr stackSize .ap entry
        { ip := m''.linearIp
          rsp := m''.regs X86.rsp
          pushed := m'.pushed }

variable {stackPtr stackSize : BitVec 64}

/-! ### The end of the allocation -/

theorem toNat_stackTopAligned (hfits : stackPtr.toNat + stackSize.toNat < 2 ^ 64) :
    (stackTopAligned stackPtr stackSize).toNat = (stackPtr.toNat + stackSize.toNat) / 16 * 16 := by
  have hsum : (stackPtr + stackSize).toNat = stackPtr.toNat + stackSize.toNat := by
    rw [BitVec.toNat_add, Nat.mod_eq_of_lt hfits]
  rw [← hsum]
  exact Bits.toNat_alignDown _ 4

/-- The stack pointer that a task has been given is where its stack ends. -/
theorem context_new (id : ℕ) (name : String) (entry arg : BitVec 64) :
    (Task.new id stackPtr name entry arg stackSize).context =
      .newTask entry (stackTopAligned stackPtr stackSize) arg := rfl

/-- And so is the one of an AP. -/
theorem stackTop_eq (env : Handoff.BootEnv) (i : ℕ) :
    env.stackTop i = stackTopAligned (BitVec.ofNat 64 (env.stackBase i))
      (BitVec.ofNat 64 Handoff.apStackSize) := rfl

/-! ### By the context switch -/

section

open Asm ContextSwitch

variable {code : Compiled} {layout : Layout} {s m t : ContextSwitch.State} {c : BitVec 64}

/-- The second half of the block pushes one word, below the stack pointer that it
has loaded. -/
theorem pushed_restore (s : Asm.State) (hfits : (s.regs code.new).toNat + size ≤ 2 ^ 64) :
    pushed s (restores code.new calleeSaved ++ restoreRest code) =
      [(load 64 s.mem ((s.regs code.new).toNat + 0x00) - 8).toNat] := by
  have hrestores : pushed s (restores code.new calleeSaved) = [] := by
    refine pushed_eq_nil fun i hi => ?_
    obtain ⟨f, -, rfl⟩ := List.mem_map.mp hi
    rfl
  have hrsp := loadFields_rsp s.mem (s.regs code.new).toNat s.regs
  rw [pushed_append, hrestores, List.nil_append,
    execAll_restores (fun _ => calleeSaved_fits hfits) (calleeSaved_ne_new code)]
  simp only [restoreRest, pushed, Instr.pushes, exec, if_true, Bool.false_eq_true, if_false,
    List.nil_append, List.append_nil]
  rw [set_slot_of_ne (by decide)]
  exact congrArg (fun rsp => [(rsp - 8).toNat]) hrsp

/-- A switch pushes one word on the stack that it has switched to. -/
theorem pushed_switch (hstep : step code layout m (.switch c) = some t) :
    pushed (execAll m.cpu (saves code.old calleeSaved ++ saveRest code))
        (restores code.new calleeSaved ++ restoreRest code) = [(t.cpu.regs .rsp - 8).toNat] := by
  have hto := (step_switched hstep).restored (0x00, .rsp) (by decide)
  obtain ⟨hcan, -⟩ := canSwitch_of_step hstep
  have hnew := hcan.new_after_save
  have hfits := layout.fits c hcan.new_mem
  have hrsp : load 64 (savedMem code m.cpu) (c.toNat + 0x00) = load 64 m.cpu.mem (c.toNat + 0x00) :=
    load_field (fun _ => savedMem_other hcan hcan.new_mem hcan.ne) (by decide)
  rw [execAll_save code m.cpu hcan.old_fits, pushed_restore _ (by simpa only [hnew]), hnew, hrsp,
    ← hto]

end

/-! ### Both ways in -/

/-- How far below the end of the stack a function is entered. -/
def Kind.depth : Kind → BitVec 64
  | .task => 0
  | .ap => 8

/-- In both cases one word has been pushed at the end of the stack. Only after a
call is it still there. -/
theorem Entered.eq {kind : Kind} {entry : BitVec 64} {arrival : Arrival}
    (h : Entered stackPtr stackSize kind entry arrival) :
    arrival =
      { ip := entry.toNat
        rsp := stackTopAligned stackPtr stackSize - kind.depth
        pushed := [(stackTopAligned stackPtr stackSize - 8).toNat] } := by
  cases h with
  | task hnew hne hrun hwaits hstep =>
      rw [context_new] at hnew
      obtain ⟨hrip, hrsp, -⟩ := ContextSwitch.started hnew hne hrun hwaits hstep
      rw [pushed_switch hstep, hrip, hrsp]
      simp [Kind.depth]
  | ap hreaches hstep =>
      obtain ⟨hrsp, hrax, -⟩ := Trampoline.mailbox_at_call hreaches
      obtain ⟨hbase, hdecode⟩ := Trampoline.call_at_end hreaches
      obtain ⟨hcs, hip, htop, hpushed⟩ := X86.step_call hdecode hstep
      rw [X86.Machine.linearIp, hcs, hbase, hip, htop, hpushed, hrax, hrsp, Nat.zero_add]
      rfl

/-! ### The rule, for both -/

/-- The stack ends in the allocation, with room for a word. -/
theorem stackTopAligned_inside (hsize : 32 ≤ stackSize.toNat)
    (hfits : stackPtr.toNat + stackSize.toNat < 2 ^ 64) :
    stackPtr.toNat + 8 ≤ (stackTopAligned stackPtr stackSize).toNat ∧
      (stackTopAligned stackPtr stackSize).toNat ≤ stackPtr.toNat + stackSize.toNat := by
  rw [toNat_stackTopAligned hfits]
  omega

theorem toNat_sub_depth {top : BitVec 64} (htop : 8 ≤ top.toNat) (kind : Kind) :
    (top - kind.depth).toNat = top.toNat - kind.depth.toNat := by
  refine BitVec.toNat_sub_of_le (BitVec.le_def.mpr ?_)
  cases kind with
  | task => exact Nat.zero_le _
  | ap => exact htop

section

variable {kind : Kind} {entry : BitVec 64} {arrival : Arrival}

theorem Entered.inside (h : Entered stackPtr stackSize kind entry arrival)
    (hsize : 32 ≤ stackSize.toNat) (hfits : stackPtr.toNat + stackSize.toNat < 2 ^ 64) :
    arrival.Inside stackPtr stackSize := by
  obtain rfl := h.eq
  obtain ⟨hlow, hhigh⟩ := stackTopAligned_inside hsize hfits
  have hrsp := toNat_sub_depth (Nat.le_of_add_left_le hlow) kind
  have hslot : (stackTopAligned stackPtr stackSize - 8).toNat =
      (stackTopAligned stackPtr stackSize).toNat - 8 :=
    toNat_sub_depth (Nat.le_of_add_left_le hlow) .ap
  have hdepth : kind.depth.toNat ≤ 8 := by cases kind <;> decide
  constructor
  case above =>
    rw [hrsp]
    omega
  case below =>
    rw [hrsp]
    omega
  case pushed =>
    intro slot hmem
    rw [List.mem_singleton.mp hmem, hslot]
    omega

/-- The stack pointer is right after a call, and 8 bytes off after a jump. -/
theorem Entered.aligned_iff (h : Entered stackPtr stackSize kind entry arrival)
    (hsize : 32 ≤ stackSize.toNat) (hfits : stackPtr.toNat + stackSize.toNat < 2 ^ 64) :
    arrival.Aligned ↔ kind = .ap := by
  obtain rfl := h.eq
  obtain ⟨hlow, -⟩ := stackTopAligned_inside hsize hfits
  have hrsp := toNat_sub_depth (Nat.le_of_add_left_le hlow) kind
  have htop := toNat_stackTopAligned hfits
  rw [Arrival.Aligned, hrsp]
  cases kind with
  | task =>
      have hdepth : Kind.task.depth.toNat = 0 := rfl
      have hoff : ¬ ((stackTopAligned stackPtr stackSize).toNat - 0 + 8) % 16 = 0 := by omega
      rw [hdepth]
      exact iff_of_false hoff nofun
  | ap =>
      have hdepth : Kind.ap.depth.toNat = 8 := rfl
      have hon : ((stackTopAligned stackPtr stackSize).toNat - 8 + 8) % 16 = 0 := by omega
      rw [hdepth]
      exact iff_of_true hon rfl

end

/-- The APs of a boot enter their entry point on their own stacks, as the rule
says. -/
theorem boot_stack_rule (env : Handoff.BootEnv) {i : ℕ} (hi : i < env.aps.length)
    {m m' m'' : X86.Machine}
    (hreaches : X86.Reaches Trampoline.callPhys (Trampoline.start64 m env.cr3 (env.stackTop i)
      env.apEntry (Handoff.BootEnv.cpuIndex i)) m')
    (hstep : X86.step m' = some m'') :
    m''.linearIp = env.apEntry.toNat ∧ ((m''.regs X86.rsp).toNat + 8) % 16 = 0 ∧
      env.stackBase i ≤ (m''.regs X86.rsp).toNat ∧
      (m''.regs X86.rsp).toNat ≤ env.stackBase i + Handoff.apStackSize := by
  have hfits := env.stack_fits i hi
  have hbase : (BitVec.ofNat 64 (env.stackBase i)).toNat = env.stackBase i :=
    Nat.mod_eq_of_lt (Nat.lt_of_le_of_lt (Nat.le_add_right ..) hfits)
  have hsize : (BitVec.ofNat 64 Handoff.apStackSize).toNat = Handoff.apStackSize := by decide
  have hfits' : (BitVec.ofNat 64 (env.stackBase i)).toNat +
      (BitVec.ofNat 64 Handoff.apStackSize).toNat < 2 ^ 64 := by rwa [hbase, hsize]
  rw [stackTop_eq] at hreaches
  have hentered := Entered.ap hreaches hstep
  have haligned := (hentered.aligned_iff (by decide) hfits').mpr rfl
  have hinside := hentered.inside (by decide) hfits'
  have hip := congrArg Arrival.ip hentered.eq
  obtain ⟨habove, hbelow, -⟩ := hinside
  rw [hbase] at habove
  rw [hbase, hsize] at hbelow
  exact ⟨hip, haligned, habove, hbelow⟩

/-- **The stack rule.** Whatever the allocation, a function is entered with its stack
inside of it, but as the calling convention wants it only if it has been called: the
entry point of an AP is, the function of a task never is. -/
theorem stack_rule_iff (stackPtr stackSize : BitVec 64) (hsize : 32 ≤ stackSize.toNat)
    (hfits : stackPtr.toNat + stackSize.toNat < 2 ^ 64) {kind : Kind} {entry : BitVec 64}
    {arrival : Arrival} (h : Entered stackPtr stackSize kind entry arrival) :
    arrival.ip = entry.toNat ∧ arrival.Inside stackPtr stackSize ∧
      (arrival.Aligned ∧ arrival.Inside stackPtr stackSize ↔ kind = .ap) := by
  have hinside := h.inside hsize hfits
  have haligned := h.aligned_iff hsize hfits
  exact ⟨congrArg Arrival.ip h.eq, hinside, by rw [and_iff_left hinside, haligned]⟩

/-- An AP with its stack at 0x50000 enters its entry point at 0x100000. -/
theorem stack_rule_iff_ap : ∃ arrival, Entered 0x50000 0x40000 .ap 0x100000 arrival ∧
    arrival.ip = 0x100000 ∧ arrival.Inside 0x50000 0x40000 ∧ arrival.Aligned := by
  obtain ⟨m', hreaches⟩ := Trampoline.apIn64_reaches
  obtain ⟨-, hdecode⟩ := Trampoline.call_at_end hreaches
  have hcall : ∃ m'', X86.step m' = some m'' := by
    rw [X86.step, hdecode]
    exact ⟨_, rfl⟩
  obtain ⟨m'', hstep⟩ := hcall
  have hentered : Entered 0x50000 0x40000 .ap 0x100000 _ := .ap hreaches hstep
  obtain ⟨hip, hinside, hrule⟩ := stack_rule_iff 0x50000 0x40000 (by decide) (by decide) hentered
  exact ⟨_, hentered, hip, hinside, (hrule.mpr rfl).1⟩

open ContextSwitch in
/-- A task with its stack at 0x7000 is entered with the stack pointer at the end of
it, 0x8000, and no return address there. -/
theorem task_misaligned : ∃ arrival, Entered 0x7000 0x1000 .task 0x5000 arrival ∧
    arrival.rsp = 0x8000 ∧ arrival.pushed = [0x7FF8] ∧ ¬ arrival.Aligned := by
  have hnew : contextAt pairStart.cpu.mem (0x2000 : BitVec 64).toNat =
      (Task.new 1 0x7000 "a" 0x5000 7 0x1000).context := by
    decide +kernel
  have hstep : step pairCode pairLayout pairStart (.switch 0x2000) = some pairSwitched :=
    step_switch (by decide +kernel)
  have hentered : Entered 0x7000 0x1000 .task 0x5000 _ :=
    .task hnew (by decide) rfl List.not_mem_nil hstep
  have harrival := hentered.eq
  refine ⟨_, hentered, congrArg Arrival.rsp harrival, congrArg Arrival.pushed harrival, ?_⟩
  rw [harrival, Arrival.Aligned]
  decide

end SmpNostd.StackEntry
