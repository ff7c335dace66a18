import Mathlib.Algebra.Group.Nat.Defs
import SmpNostd.Boot.Madt
import SmpNostd.Lib.Machine

/-!
The boot of the application processors (`boot_aps` in `driver.rs`, with
`trampoline.rs`).

The boot processor (BSP) starts one AP after the other and tells each, through
one mailbox in low memory, which page table, stack, entry point and index are
its own. An AP runs the trampoline: it loads the fields one by one and, in
between, signals that it is ready. The BSP does not wait for more than the
signal, and not forever, so it may fill in the mailbox for the next AP while an
earlier one is still reading it.

Every access to a field of the mailbox is one step. The fields are accessed by
name; where they lie in memory is not modelled.
-/

namespace SmpNostd.Handoff

open Machine

/-! ### The mailbox -/

/-- The fields of `TrampolineData` that carry data to the AP. -/
inductive Field
  | pml4Addr
  | stackTop
  | entryPoint
  | cpuIndex
  deriving DecidableEq, Repr

def Field.width : Field → ℕ
  | .cpuIndex => 32
  | .pml4Addr | .stackTop | .entryPoint => 64

/-- The fields of `TrampolineData` that are in use. -/
structure Mailbox where
  data : (f : Field) → BitVec f.width
  apReady : BitVec 32

/-- `install` zeroes the page. -/
def Mailbox.zeroed : Mailbox where
  data _ := 0
  apReady := 0

/-! ### What the boot is given -/

/-- 256 KiB. -/
def apStackSize : ℕ := 256 * 1024

/-- The surroundings of `boot_aps`: the APs of the MADT, the page table in
`cr3`, the address of `ap_entry`, and what the allocator returns. The stacks
are never freed, so no two of them overlap. -/
structure BootEnv where
  madt : MadtInfo
  bspApicId : BitVec 32
  cr3 : BitVec 64
  apEntry : BitVec 64
  /-- The address of the stack allocated in iteration `i`. -/
  stackBase : ℕ → ℕ
  stack_fits : ∀ i < (madt.enabledAps bspApicId).length, stackBase i + apStackSize < 2 ^ 64
  stack_disjoint : ∀ i < (madt.enabledAps bspApicId).length,
    ∀ j < (madt.enabledAps bspApicId).length, i ≠ j →
      stackBase i + apStackSize ≤ stackBase j ∨ stackBase j + apStackSize ≤ stackBase i

namespace BootEnv

variable (env : BootEnv)

def aps : List MadtLocalApic := env.madt.enabledAps env.bspApicId

/-- `stack_top_aligned` of iteration `i`. -/
def stackTop (i : ℕ) : BitVec 64 :=
  (BitVec.ofNat 64 (env.stackBase i) + BitVec.ofNat 64 apStackSize) &&& ~~~0xF

/-- `cpu_index` of iteration `i`; the BSP is 0. -/
def cpuIndex (i : ℕ) : BitVec 32 := BitVec.ofNat 32 (i + 1)

theorem toNat_cpuIndex {i : ℕ} (hi : i + 1 < 2 ^ 32) : (cpuIndex i).toNat = i + 1 := by
  rw [cpuIndex, BitVec.toNat_ofNat, Nat.mod_eq_of_lt hi]

/-- What `set_ap_data` writes into a field in iteration `i`. -/
def value (i : ℕ) : (f : Field) → BitVec f.width
  | .pml4Addr => env.cr3
  | .stackTop => env.stackTop i
  | .entryPoint => env.apEntry
  | .cpuIndex => cpuIndex i

end BootEnv

/-! ### The APs -/

/-- The registers that the trampoline loads from the mailbox. -/
structure Regs where
  cr3 : BitVec 64
  rsp : BitVec 64
  rax : BitVec 64
  rdi : BitVec 64
  deriving DecidableEq, Repr

/-- The register a field is loaded into. -/
def Regs.get (regs : Regs) : Field → BitVec 64
  | .pml4Addr => regs.cr3
  | .stackTop => regs.rsp
  | .entryPoint => regs.rax
  | .cpuIndex => regs.rdi

/-- What a load of the field puts into the register. The page table is loaded
by 32-bit code, through `eax`. -/
def Field.extend : (f : Field) → BitVec f.width → BitVec 64
  | .pml4Addr, v => (BitVec.setWidth 32 v).setWidth 64
  | .stackTop, v | .entryPoint, v => v
  | .cpuIndex, v => BitVec.setWidth 64 v

def Regs.load (regs : Regs) : (f : Field) → BitVec f.width → Regs
  | .pml4Addr, v => { regs with cr3 := Field.extend .pml4Addr v }
  | .stackTop, v => { regs with rsp := Field.extend .stackTop v }
  | .entryPoint, v => { regs with rax := Field.extend .entryPoint v }
  | .cpuIndex, v => { regs with rdi := Field.extend .cpuIndex v }

/-- The steps of the trampoline that other processors can notice. -/
inductive Instr
  | load (f : Field)
  /-- `mov dword [ap_ready], 1`. -/
  | signalReady
  /-- `call rax`. -/
  | call
  deriving DecidableEq, Repr

/-- The trampoline (`TRAMPOLINE_CODE`), in code order. -/
def trampoline : List Instr :=
  [.load .pml4Addr, .load .stackTop, .signalReady, .load .cpuIndex, .load .entryPoint, .call]

/-- An AP: it waits to be started, runs the trampoline with some of it still
ahead, or has called the entry point. -/
inductive Ap
  | waitForSipi
  | running (regs : Regs) (rest : List Instr)
  | entered (regs : Regs)
  deriving DecidableEq, Repr

/-- The steps an AP still has ahead of it. -/
def Ap.ahead : Ap → List Instr
  | .running _ rest => rest
  | .waitForSipi | .entered _ => []

/-- The AP has been started and has written `ap_ready`. -/
def Ap.Signalled : Ap → Prop
  | .waitForSipi => False
  | .running _ rest => .signalReady ∉ rest
  | .entered _ => True

/-! ### The BSP -/

/-- Where the BSP is in an iteration of the loop of `boot_aps`. -/
inductive BspPc
  /-- `set_ap_data` is about to write the field. -/
  | write (f : Field)
  /-- `data.ap_ready.store(0)`. -/
  | clearReady
  | sendInit
  | sendStartup
  /-- `if !is_ap_ready()`. -/
  | checkReady
  | sendSecondStartup
  /-- `wait_ap_ready` with so many iterations done. -/
  | waitReady (i : ℕ)
  /-- The loop is over. -/
  | done
  deriving DecidableEq, Repr

/-- The `max_iterations` that `wait_ap_ready` is called with. -/
def maxIterations : ℕ := 100000000

structure State where
  mailbox : Mailbox
  /-- The APs, by the iteration that starts them. -/
  aps : ℕ → Ap
  iteration : ℕ
  pc : BspPc
  /-- `total_cores`, an `AtomicU32`. -/
  totalCores : BitVec 32
  /-- The iterations counted as booted. -/
  booted : List ℕ

inductive Label
  | bsp
  | ap (i : ℕ)
  deriving DecidableEq, Repr

section

variable (env : BootEnv)

/-- Where iteration `i` begins, if there is one. -/
def iterationStart (i : ℕ) : BspPc :=
  if i < env.aps.length then .write .pml4Addr else .done

/-- The trampoline is installed, and the BSP counts itself. -/
def init : State where
  mailbox := .zeroed
  aps _ := .waitForSipi
  iteration := 0
  pc := iterationStart env 0
  totalCores := 1
  booted := []

/-- The order in which `set_ap_data` writes the fields. -/
def afterWrite : Field → BspPc
  | .pml4Addr => .write .stackTop
  | .stackTop => .write .entryPoint
  | .entryPoint => .write .cpuIndex
  | .cpuIndex => .clearReady

def State.writeField (s : State) (f : Field) : State :=
  { s with mailbox :=
      { s.mailbox with data := Function.update s.mailbox.data f (env.value s.iteration f) } }

def State.setAp (s : State) (i : ℕ) (ap : Ap) : State :=
  { s with aps := Function.update s.aps i ap }

/-- `total_cores.fetch_add(1)`. -/
def State.countBooted (s : State) : State :=
  { s with totalCores := s.totalCores + 1, booted := s.booted ++ [s.iteration] }

def State.nextIteration (s : State) : State :=
  { s with iteration := s.iteration + 1, pc := iterationStart env (s.iteration + 1) }

/-- The registers at the start of the trampoline; it loads them all. -/
def Regs.zeroed : Regs := ⟨0, 0, 0, 0⟩

/-- A startup IPI has no effect on an AP that does not wait for one. -/
def Ap.startup : Ap → Ap
  | .waitForSipi => .running Regs.zeroed trampoline
  | ap => ap

/-- The next step of `boot_aps`. -/
def bspStep (s : State) : Option State :=
  match s.pc with
  | .write f => some { s.writeField env f with pc := afterWrite f }
  | .clearReady =>
      some { s with mailbox := { s.mailbox with apReady := 0 }, pc := .sendInit }
  | .sendInit => some { s.setAp s.iteration .waitForSipi with pc := .sendStartup }
  | .sendStartup =>
      some { s.setAp s.iteration (s.aps s.iteration).startup with pc := .checkReady }
  | .checkReady =>
      some { s with pc := if s.mailbox.apReady = 0 then .sendSecondStartup else .waitReady 0 }
  | .sendSecondStartup =>
      some { s.setAp s.iteration (s.aps s.iteration).startup with pc := .waitReady 0 }
  | .waitReady i =>
      if i < maxIterations then
        if s.mailbox.apReady = 0 then some { s with pc := .waitReady (i + 1) }
        else
          some (s.countBooted.nextIteration env)
      else some (s.nextIteration env)
  | .done => none

/-- The next step of an AP. -/
def apStep (s : State) (i : ℕ) : Option State :=
  match s.aps i with
  | .running regs (.load f :: rest) =>
      some (s.setAp i (.running (regs.load f (s.mailbox.data f)) rest))
  | .running regs (.signalReady :: rest) =>
      some { s.setAp i (.running regs rest) with mailbox := { s.mailbox with apReady := 1 } }
  | .running regs (.call :: _) => some (s.setAp i (.entered regs))
  | .running _ [] | .waitForSipi | .entered _ => none

def step (s : State) : Label → Option State
  | .bsp => bspStep env s
  | .ap i => apStep s i

end

/-! ### The loop of `boot_aps` -/

section

variable {env : BootEnv}

/-- What a step of the BSP does to its loop: it goes on with the iteration, or
ends it, counting the AP or not. -/
theorem bspStep_cases {s s' : State} (h : bspStep env s = some s') : s.pc ≠ .done ∧
    (s'.iteration = s.iteration ∧ s'.pc ≠ .done ∧ s'.booted = s.booted ∧
        s'.totalCores = s.totalCores ∨
      s' = s.nextIteration env ∨ s' = s.countBooted.nextIteration env) := by
  cases hpc : s.pc with
  | write f =>
      simp only [bspStep, hpc, Option.some.injEq] at h
      subst h
      cases f <;> exact ⟨nofun, .inl ⟨rfl, nofun, rfl, rfl⟩⟩
  | checkReady =>
      simp only [bspStep, hpc, Option.some.injEq] at h
      subst h
      refine ⟨nofun, .inl ⟨rfl, ?_, rfl, rfl⟩⟩
      dsimp only
      split <;> nofun
  | waitReady i =>
      simp only [bspStep, hpc] at h
      split at h
      · split at h <;> obtain rfl := Option.some.inj h
        · exact ⟨nofun, .inl ⟨rfl, nofun, rfl, rfl⟩⟩
        · exact ⟨nofun, .inr (.inr rfl)⟩
      · obtain rfl := Option.some.inj h
        exact ⟨nofun, .inr (.inl rfl)⟩
  | done => simp [bspStep, hpc] at h
  | clearReady | sendInit | sendStartup | sendSecondStartup =>
      simp only [bspStep, hpc, Option.some.injEq] at h
      subst h
      exact ⟨nofun, .inl ⟨rfl, nofun, rfl, rfl⟩⟩

variable (env) in
/-- The loop goes through the APs once, and `total_cores` counts those that
were found ready. -/
structure Loop (s : State) : Prop where
  bound : s.iteration < env.aps.length ∨ s.iteration = env.aps.length ∧ s.pc = .done
  booted : s.booted.Sublist (List.range s.iteration)
  total : s.totalCores = BitVec.ofNat 32 (1 + s.booted.length)

theorem iterationStart_bound {i : ℕ} (h : i ≤ env.aps.length) :
    i < env.aps.length ∨ i = env.aps.length ∧ iterationStart env i = .done := by
  obtain hlt | rfl := Nat.lt_or_eq_of_le h
  · exact .inl hlt
  · exact .inr ⟨rfl, if_neg (Nat.lt_irrefl _)⟩

theorem init_loop : Loop env (init env) where
  bound := iterationStart_bound (Nat.zero_le _)
  booted := List.Sublist.refl _
  total := rfl

theorem apStep_frame {s s' : State} {i : ℕ} (h : apStep s i = some s') :
    s'.iteration = s.iteration ∧ s'.pc = s.pc ∧ s'.booted = s.booted ∧
      s'.totalCores = s.totalCores := by
  unfold apStep at h
  split at h <;> cases h <;> exact ⟨rfl, rfl, rfl, rfl⟩

theorem Loop.step {s s' : State} {l : Label} (h : Loop env s)
    (hstep : Handoff.step env s l = some s') : Loop env s' := by
  cases l with
  | ap i =>
      obtain ⟨hi, hpc, hbooted, htotal⟩ := apStep_frame hstep
      exact ⟨by rw [hi, hpc]; exact h.bound, by rw [hi, hbooted]; exact h.booted,
        by rw [hbooted, htotal]; exact h.total⟩
  | bsp =>
      obtain ⟨hpc, hcases⟩ := bspStep_cases hstep
      have hlt : s.iteration < env.aps.length := h.bound.resolve_right fun hd => hpc hd.2
      have hrange : List.range (s.iteration + 1) = List.range s.iteration ++ [s.iteration] :=
        List.range_succ
      obtain ⟨hi, -, hbooted, htotal⟩ | rfl | rfl := hcases
      · exact ⟨.inl (hi ▸ hlt), by rw [hi, hbooted]; exact h.booted,
          by rw [hbooted, htotal]; exact h.total⟩
      · refine ⟨iterationStart_bound hlt, ?_, h.total⟩
        show s.booted.Sublist (List.range (s.iteration + 1))
        rw [hrange]
        exact h.booted.trans (List.sublist_append_left _ _)
      · refine ⟨iterationStart_bound hlt, ?_, ?_⟩
        · show (s.booted ++ [s.iteration]).Sublist (List.range (s.iteration + 1))
          rw [hrange]
          exact h.booted.append (List.Sublist.refl _)
        · show s.totalCores + 1 = BitVec.ofNat 32 (1 + (s.booted ++ [s.iteration]).length)
          rw [h.total, List.length_append, List.length_singleton, ← Nat.add_assoc]
          exact (BitVec.ofNat_add ..).symm

theorem loop_of_run {s : State} {as : List Label}
    (hrun : run (Handoff.step env) (init env) as = some s) : Loop env s :=
  run_invariant (fun _ _ _ h hstep => h.step hstep) init_loop hrun

end

end SmpNostd.Handoff
