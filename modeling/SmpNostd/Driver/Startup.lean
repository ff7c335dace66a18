import SmpNostd.Boot.Installed
import SmpNostd.Driver.Sending

/-!
`boot_aps` (`driver.rs`) with everything it drives: the IPIs on the bus, the
mailbox as bytes in memory, and the APs as processors that execute the installed
page.

The trampoline has two defects that each keep an AP from being seen: the word it
signals through is not the ready flag, and the end of its code is gone before it is
run. Here they are put together. Whatever the APs of the MADT are, and however
their instructions and the steps of the BSP are interleaved, no AP is ever counted:
the BSP sends each of them INIT and two startup IPIs, waits in vain as long as it
waits at most, and the controller ends up with the BSP as its only core. An AP goes
through 44 instructions at most, and what ends it depends on the page tables: they
map the page of the trampoline to itself, but need not map the address that an
instruction of the damaged code writes to.

An IPI takes effect when it is sent. What the BSP and the disabled processors do
besides is not modelled, only that they could be reset and started as well.
-/

namespace SmpNostd

/-! ### The IPIs -/

namespace LocalApic

/-- `ICR_INIT`. -/
def icrInit : BitVec 32 := 0b101 <<< 8

/-- `ICR_STARTUP`. -/
def icrStartup : BitVec 32 := 0b110 <<< 8

def icrDestPhysical : BitVec 32 := 0 <<< 11

def icrLevelAssert : BitVec 32 := 1 <<< 14

def icrTriggerLevel : BitVec 32 := 1 <<< 15

def icrNoShorthand : BitVec 32 := 0b00 <<< 18

/-- What `send_init_ipi` asks for. -/
def initIpi (destApicId : BitVec 32) : Ipi where
  dest := destApicId
  flags := icrInit ||| icrLevelAssert ||| icrTriggerLevel ||| icrDestPhysical ||| icrNoShorthand

/-- What `send_startup_ipi` asks for. -/
def startupIpi (destApicId : BitVec 32) (trampolinePage : BitVec 8) : Ipi where
  dest := destApicId
  flags := icrStartup ||| icrDestPhysical ||| icrNoShorthand ||| trampolinePage.setWidth 32

/-- The delivery mode of INIT. -/
def deliveryInit : BitVec 3 := 0b101

/-- The delivery mode of a startup IPI. -/
def deliveryStartup : BitVec 3 := 0b110

/-- The level bit of the command. -/
def Ipi.assert (ipi : Ipi) : Bool := ipi.flags.getLsbD 14

theorem flags_initIpi (dest : BitVec 32) : (initIpi dest).flags = 0xC500 := rfl

theorem isInit_initIpi (dest : BitVec 32) :
    (initIpi dest).deliveryMode = deliveryInit ∧ (initIpi dest).assert = true := by
  rw [Ipi.deliveryMode, Ipi.assert, flags_initIpi]
  decide

theorem flags_startupIpi (dest : BitVec 32) (page : BitVec 8) :
    (startupIpi dest page).flags = 0x600 ||| page.setWidth 32 := rfl

theorem deliveryMode_startupIpi (dest : BitVec 32) (page : BitVec 8) :
    (startupIpi dest page).deliveryMode = deliveryStartup := by
  have hpage : (page.setWidth 32).extractLsb' 8 3 = 0 := by
    ext i hi
    simp
  have hmode : (0x600 : BitVec 32).extractLsb' 8 3 = deliveryStartup := by decide
  rw [Ipi.deliveryMode, flags_startupIpi, BitVec.extractLsb'_or, hpage, hmode]
  exact BitVec.or_zero

theorem vector_startupIpi (dest : BitVec 32) (page : BitVec 8) :
    (startupIpi dest page).vector = page := by
  have hmode : (0x600 : BitVec 32).setWidth 8 = 0#8 := by decide
  rw [Ipi.vector, flags_startupIpi, BitVec.setWidth_or, hmode, BitVec.zero_or,
    BitVec.setWidth_setWidth_of_le _ (by decide), BitVec.setWidth_eq]

end LocalApic

namespace Startup

open Machine LocalApic Memory X86 Interference Trampoline
open Handoff (BootEnv BspPc afterWrite iterationStart maxIterations)

/-! ### The processors -/

/-- The processors as INIT leaves them: in real mode, without paging. `translate`
is what the page tables that they load make of an address outside the trampoline. -/
structure Processors where
  afterInit : BitVec 32 → X86.Machine
  translate : ℕ → Option ℕ
  pe : ∀ id, (afterInit id).cr0.getLsbD bitPe = false
  pg : ∀ id, (afterInit id).cr0.getLsbD bitPg = false

/-- A processor: it has not been reset by an IPI, waits for a startup IPI, or runs
from where one has sent it. -/
inductive Cpu
  | other
  | waitForSipi
  | running (m : X86.Machine)

/-- The vector of a startup IPI is the page where the processor starts, in real
mode. -/
def startAt (m : X86.Machine) (vector : BitVec 8) : X86.Machine :=
  { m with ip := 0, cs := ⟨vector.setWidth 16 <<< 8, vector.toNat * 4096⟩, size := .bits16 }

section

variable (procs : Processors)

/-- What an IPI does to the processor with its destination as APIC id. Only INIT,
asserted, and startup IPIs are looked at; a startup IPI has no effect on a
processor that does not wait for one. -/
def deliver (cpus : BitVec 32 → Cpu) (ipi : Ipi) : BitVec 32 → Cpu :=
  if ipi.deliveryMode = deliveryInit ∧ ipi.assert = true then
    Function.update cpus ipi.dest .waitForSipi
  else if ipi.deliveryMode = deliveryStartup then
    match cpus ipi.dest with
    | .waitForSipi =>
        Function.update cpus ipi.dest (.running (startAt (procs.afterInit ipi.dest) ipi.vector))
    | .other | .running _ => cpus
  else cpus

/-! ### The loop of `boot_aps` -/

structure State where
  mem : Mem
  icr : Icr
  /-- The processors, by their APIC ids. -/
  cpus : BitVec 32 → Cpu
  iteration : ℕ
  pc : BspPc
  /-- `total_cores`, an `AtomicU32`. -/
  totalCores : BitVec 32
  /-- The iterations counted as booted. -/
  booted : List ℕ
  /-- What the local APIC of the BSP has sent. -/
  sent : List Ipi

inductive Label
  | bsp
  | cpu (apicId : BitVec 32)
  deriving DecidableEq, Repr

/-- Where a field of the mailbox is. -/
def fieldAddr : Handoff.Field → ℕ
  | .pml4Addr => Field.pml4Addr.addr
  | .stackTop => Field.stackTop.addr
  | .entryPoint => Field.entryPoint.addr
  | .cpuIndex => Field.cpuIndex.addr

/-- `TRAMPOLINE_PAGE`. -/
def trampolinePage : BitVec 8 := 0x08

/-- `ap.apic_id as u32`. -/
def destOf (ap : MadtLocalApic) : BitVec 32 := ap.apicId.setWidth 32

/-- `send_ipi`, and what becomes of what it sends. -/
def State.send (s : State) (ipi : Ipi) : State :=
  let written := sendIpi s.icr ipi
  { s with
    icr := written.1
    cpus := written.2.foldl (deliver procs) s.cpus
    sent := s.sent ++ written.2 }

variable (env : BootEnv)

/-- The trampoline is installed, and the BSP counts itself. -/
def init (mem : Mem) (icr : Icr) : State where
  mem := install mem
  icr := icr
  cpus _ := .other
  iteration := 0
  pc := iterationStart env 0
  totalCores := 1
  booted := []
  sent := []

def State.nextIteration (s : State) : State :=
  { s with iteration := s.iteration + 1, pc := iterationStart env (s.iteration + 1) }

/-- `total_cores.fetch_add(1)`. -/
def State.countBooted (s : State) : State :=
  { s with totalCores := s.totalCores + 1, booted := s.booted ++ [s.iteration] }

/-- The next step of `boot_aps`, each access to the mailbox being one. -/
def bspStep (s : State) : Option State :=
  match s.pc with
  | .write f =>
      some { s with mem := store s.mem (fieldAddr f) (env.value s.iteration f), pc := afterWrite f }
  | .clearReady =>
      some { s with
        mem := store s.mem Field.apReady.addr (0 : BitVec 32)
        pc := .sendInit }
  | .sendInit => env.aps[s.iteration]?.map fun ap =>
      { s.send procs (initIpi (destOf ap)) with pc := .sendStartup }
  | .sendStartup => env.aps[s.iteration]?.map fun ap =>
      { s.send procs (startupIpi (destOf ap) trampolinePage) with pc := .checkReady }
  | .checkReady =>
      some { s with pc := if isApReady s.mem then .waitReady 0 else .sendSecondStartup }
  | .sendSecondStartup => env.aps[s.iteration]?.map fun ap =>
      { s.send procs (startupIpi (destOf ap) trampolinePage) with pc := .waitReady 0 }
  | .waitReady i =>
      if i < maxIterations then
        if isApReady s.mem then some (s.countBooted.nextIteration env)
        else some { s with pc := .waitReady (i + 1) }
      else some (s.nextIteration env)
  | .done => none

/-- The next instruction of a processor that has been started. -/
def cpuStep (s : State) (apicId : BitVec 32) : Option State :=
  match s.cpus apicId with
  | .running m => (stepIn procs.translate m s.mem).map fun (m', mem') =>
      { s with mem := mem', cpus := Function.update s.cpus apicId (.running m') }
  | .other | .waitForSipi => none

def step (s : State) : Label → Option State
  | .bsp => bspStep procs env s
  | .cpu apicId => cpuStep procs s apicId

end

/-! ### The IPIs of a round -/

/-- INIT, then two startup IPIs. -/
def bootIpis (ap : MadtLocalApic) : List Ipi :=
  [initIpi (destOf ap), startupIpi (destOf ap) trampolinePage,
    startupIpi (destOf ap) trampolinePage]

/-- How many of them have been sent. -/
def sentBefore : BspPc → ℕ
  | .write _ | .clearReady | .sendInit | .done => 0
  | .sendStartup => 1
  | .checkReady | .sendSecondStartup => 2
  | .waitReady _ => 3

/-- How many steps are left of a round in which the flag is never set. -/
def stepsLeft : BspPc → ℕ
  | .write .pml4Addr => maxIterations + 10
  | .write .stackTop => maxIterations + 9
  | .write .entryPoint => maxIterations + 8
  | .write .cpuIndex => maxIterations + 7
  | .clearReady => maxIterations + 6
  | .sendInit => maxIterations + 5
  | .sendStartup => maxIterations + 4
  | .checkReady => maxIterations + 3
  | .sendSecondStartup => maxIterations + 2
  | .waitReady i => maxIterations - i + 1
  | .done => 0

/-- How many steps the BSP has ahead of it. -/
def rank (env : BootEnv) (s : State) : ℕ :=
  (env.aps.length - (s.iteration + 1)) * (maxIterations + 10) + stepsLeft s.pc

/-- The APs that are still to be sent an INIT. -/
def apsLeft (env : BootEnv) (s : State) : List MadtLocalApic :=
  env.aps.drop (s.iteration + if sentBefore s.pc = 0 then 0 else 1)

/-- A processor that has been reset executes at most `n` more instructions before it
is reset again. -/
def Cpu.EndsIn (translate : ℕ → Option ℕ) (n : ℕ) : Cpu → Prop
  | .other => True
  | .waitForSipi => 44 ≤ n
  | .running m => Runs (stepIn translate) Quiet InTrampoline (Stopped translate) n m

/-- An id fits in the destination field. -/
theorem destOf_lt (ap : MadtLocalApic) : destOf ap < 256 := by
  rw [BitVec.lt_def, destOf, BitVec.toNat_setWidth]
  have hlt := ap.apicId.isLt
  simp only [BitVec.ofNat_eq_ofNat, BitVec.toNat_ofNat]
  omega

section

variable {procs : Processors} {env : BootEnv} {left : BitVec 32 → ℕ} {s t : State}

variable (procs) in
theorem send_init (s : State) (ap : MadtLocalApic) :
    ∃ icr, s.send procs (initIpi (destOf ap)) = { s with
      icr := icr
      cpus := Function.update s.cpus (destOf ap) .waitForSipi
      sent := s.sent ++ [initIpi (destOf ap)] } := by
  have hsend := sendIpi_of_lt s.icr (show (initIpi (destOf ap)).dest < 256 from destOf_lt ap)
  refine ⟨(sendIpi s.icr (initIpi (destOf ap))).1, ?_⟩
  simp only [State.send, hsend, List.foldl_cons, List.foldl_nil, deliver, if_pos (isInit_initIpi _)]
  rfl

variable (procs) in
/-- A startup IPI sends a processor that waits for it to the trampoline. -/
theorem send_startup (s : State) (ap : MadtLocalApic) :
    ∃ icr, s.send procs (startupIpi (destOf ap) trampolinePage) = { s with
      icr := icr
      cpus := match s.cpus (destOf ap) with
        | .waitForSipi => Function.update s.cpus (destOf ap)
            (.running (startAt (procs.afterInit (destOf ap)) trampolinePage))
        | .other | .running _ => s.cpus
      sent := s.sent ++ [startupIpi (destOf ap) trampolinePage] } := by
  have hsend := sendIpi_of_lt s.icr
    (show (startupIpi (destOf ap) trampolinePage).dest < 256 from destOf_lt ap)
  have hinit : ¬(deliveryStartup = deliveryInit ∧
      (startupIpi (destOf ap) trampolinePage).assert = true) := fun h => absurd h.1 (by decide)
  refine ⟨(sendIpi s.icr (startupIpi (destOf ap) trampolinePage)).1, ?_⟩
  simp only [State.send, hsend, List.foldl_cons, List.foldl_nil, deliver, deliveryMode_startupIpi,
    if_neg hinit, if_true, vector_startupIpi]
  rfl

/-! ### The invariant -/

variable (procs env) in
/-- Each processor executes at most `left` more instructions: those of the way that it
is on, and of one more for each INIT that is still to come. -/
def EndsWithin (left : BitVec 32 → ℕ) (s : State) : Prop :=
  ∀ apicId, ∃ n, (s.cpus apicId).EndsIn procs.translate n ∧
    n + 44 * (apsLeft env s).countP (destOf · = apicId) = left apicId

variable (procs env) in
structure Inv (left : BitVec 32 → ℕ) (s : State) : Prop where
  quiet : Quiet s.mem
  ends : EndsWithin procs env left s
  onlyAps : ∀ apicId, s.cpus apicId ≠ .other → ∃ ap ∈ env.aps, apicId = destOf ap
  bound : s.iteration ≤ env.aps.length
  last : s.pc = .done ↔ s.iteration = env.aps.length
  polls : ∀ i, s.pc = .waitReady i → i ≤ maxIterations
  counted : s.totalCores = 1 ∧ s.booted = []
  sent : s.sent = (env.aps.take s.iteration).flatMap bootIpis ++
    (env.aps[s.iteration]?.elim [] bootIpis).take (sentBefore s.pc)

theorem sentBefore_iterationStart (i : ℕ) : sentBefore (iterationStart env i) = 0 := by
  unfold iterationStart
  split <;> rfl

theorem iterationStart_eq_done {i : ℕ} (hi : i ≤ env.aps.length) :
    iterationStart env i = .done ↔ i = env.aps.length := by
  unfold iterationStart
  split <;> rename_i hlt
  · exact ⟨nofun, fun heq => absurd hlt (heq ▸ Nat.lt_irrefl _)⟩
  · exact ⟨fun _ => Nat.le_antisymm hi (Nat.le_of_not_lt hlt), fun _ => rfl⟩

theorem iterationStart_ne_waitReady (i j : ℕ) : iterationStart env i ≠ .waitReady j := by
  unfold iterationStart
  split <;> nofun

theorem apsLeft_init (mem : Mem) (icr : Icr) : apsLeft env (init env mem icr) = env.aps := by
  have hpc : (init env mem icr).pc = iterationStart env 0 := rfl
  have hiteration : (init env mem icr).iteration = 0 := rfl
  rw [apsLeft, hpc, sentBefore_iterationStart, if_pos rfl, hiteration]
  rfl

theorem init_inv (mem : Mem) (icr : Icr) :
    Inv procs env (fun apicId => 44 * env.aps.countP (destOf · = apicId))
      (init env mem icr) where
  quiet := quiet_install mem
  ends apicId := ⟨0, trivial, by rw [apsLeft_init, Nat.zero_add]⟩
  onlyAps _ h := absurd rfl h
  bound := Nat.zero_le _
  last := iterationStart_eq_done (Nat.zero_le _)
  polls i h := absurd h (iterationStart_ne_waitReady 0 i)
  counted := ⟨rfl, rfl⟩
  sent := by
    show [] = _ ++ List.take (sentBefore (iterationStart env 0)) _
    rw [sentBefore_iterationStart]
    rfl

/-- Until the loop is over, there is an AP to boot. -/
theorem Inv.exists_ap (h : Inv procs env left s) (hpc : s.pc ≠ .done) :
    ∃ ap, env.aps[s.iteration]? = some ap ∧ ap ∈ env.aps := by
  have hlt : s.iteration < env.aps.length :=
    Nat.lt_of_le_of_ne h.bound fun heq => hpc (h.last.mpr heq)
  exact ⟨_, List.getElem?_eq_getElem hlt, List.getElem_mem hlt⟩

/-- A step within a round. -/
theorem Inv.goOn (h : Inv procs env left s) (ipis : List Ipi) (hdone : s.pc ≠ .done)
    (hnot : t.pc ≠ .done) {ap : MadtLocalApic} (hap : env.aps[s.iteration]? = some ap)
    (hiteration : t.iteration = s.iteration)
    (hcounted : t.totalCores = s.totalCores ∧ t.booted = s.booted) (hquiet : Quiet t.mem)
    (hends : EndsWithin procs env left t)
    (honly : ∀ apicId, t.cpus apicId ≠ .other → ∃ ap ∈ env.aps, apicId = destOf ap)
    (hpolls : ∀ i, t.pc = .waitReady i → i ≤ maxIterations)
    (hsent : t.sent = s.sent ++ ipis)
    (hipis : (bootIpis ap).take (sentBefore t.pc) = (bootIpis ap).take (sentBefore s.pc) ++ ipis) :
    Inv procs env left t where
  quiet := hquiet
  ends := hends
  onlyAps := honly
  bound := hiteration ▸ h.bound
  last := by
    rw [hiteration]
    exact ⟨fun hd => absurd hd hnot, fun heq => absurd (h.last.mpr heq) hdone⟩
  polls := hpolls
  counted := ⟨hcounted.1.trans h.counted.1, hcounted.2.trans h.counted.2⟩
  sent := by
    rw [hsent, h.sent, hiteration, hap, List.append_assoc]
    exact congrArg _ hipis.symm

/-- The end of a round that has been waited out. -/
theorem Inv.nextIteration (h : Inv procs env left s) {i : ℕ} (hpc : s.pc = .waitReady i) :
    Inv procs env left (s.nextIteration env) := by
  obtain ⟨ap, hap, -⟩ := h.exists_ap (by rw [hpc]; nofun)
  obtain ⟨hlt, hget⟩ := List.getElem?_eq_some_iff.mp hap
  constructor
  case quiet => exact h.quiet
  case ends =>
    have hleft : apsLeft env (s.nextIteration env) = apsLeft env s := by
      have hpc' : (s.nextIteration env).pc = iterationStart env (s.iteration + 1) := rfl
      rw [apsLeft, apsLeft, hpc, hpc', sentBefore_iterationStart]
      rfl
    rw [EndsWithin, hleft]
    exact h.ends
  case onlyAps => exact h.onlyAps
  case bound => exact hlt
  case last => exact iterationStart_eq_done hlt
  case polls => exact fun j hj => absurd hj (iterationStart_ne_waitReady _ j)
  case counted => exact h.counted
  case sent =>
    show s.sent = (env.aps.take (s.iteration + 1)).flatMap bootIpis ++
      List.take (sentBefore (iterationStart env (s.iteration + 1))) _
    rw [h.sent, hpc, hap, sentBefore_iterationStart, List.take_zero, List.append_nil,
      List.take_add_one, hap, List.flatMap_append]
    rfl

theorem Inv.write (h : Inv procs env left s) (f : Handoff.Field) (hpc : s.pc = .write f) :
    Quiet (store s.mem (fieldAddr f) (env.value s.iteration f)) := by
  cases f <;> exact h.quiet.store _ (by decide) (by decide)

theorem sentBefore_afterWrite (f : Handoff.Field) : sentBefore (afterWrite f) = 0 := by
  cases f <;> rfl

/-- In a step of a round that is not the one that sends INIT, the processors are left
as much as they had. -/
theorem Inv.ends_goOn (h : Inv procs env left s) (hiteration : t.iteration = s.iteration)
    (hsent : sentBefore t.pc = 0 ↔ sentBefore s.pc = 0)
    (hcpus : ∀ apicId n, (s.cpus apicId).EndsIn procs.translate n →
      (t.cpus apicId).EndsIn procs.translate n) : EndsWithin procs env left t := by
  intro apicId
  obtain ⟨n, hn, hleft⟩ := h.ends apicId
  refine ⟨n, hcpus apicId n hn, ?_⟩
  simp only [apsLeft, hiteration, hsent]
  exact hleft

/-- What INIT does to the processors: one that is reset may go through the trampoline
once more. -/
theorem Inv.ends_reset (h : Inv procs env left s) {ap : MadtLocalApic}
    (hap : env.aps[s.iteration]? = some ap) (hiteration : t.iteration = s.iteration)
    (hs : sentBefore s.pc = 0) (ht : sentBefore t.pc ≠ 0)
    (hcpus : t.cpus = Function.update s.cpus (destOf ap) .waitForSipi) :
    EndsWithin procs env left t := by
  intro apicId
  obtain ⟨hlt, rfl⟩ := List.getElem?_eq_some_iff.mp hap
  have hdrop : apsLeft env s = env.aps[s.iteration] :: apsLeft env t := by
    rw [apsLeft, apsLeft, if_pos hs, if_neg ht, hiteration]
    exact List.drop_eq_getElem_cons hlt
  obtain ⟨n, hn, hleft⟩ := h.ends apicId
  rw [hdrop, List.countP_cons] at hleft
  by_cases heq : destOf env.aps[s.iteration] = apicId
  · subst heq
    rw [hcpus, Function.update_self]
    rw [decide_eq_true rfl, if_pos rfl] at hleft
    exact ⟨n + 44, Nat.le_add_left 44 n, by omega⟩
  · rw [hcpus, Function.update_of_ne (Ne.symm heq)]
    rw [decide_eq_false heq, if_neg (by decide)] at hleft
    exact ⟨n, hn, hleft⟩

theorem Inv.onlyAps_reset (h : Inv procs env left s) {ap : MadtLocalApic} (hap : ap ∈ env.aps)
    (apicId : BitVec 32)
    (hother : Function.update s.cpus (destOf ap) .waitForSipi apicId ≠ .other) :
    ∃ ap ∈ env.aps, apicId = destOf ap := by
  by_cases heq : apicId = destOf ap
  · exact ⟨ap, hap, heq⟩
  · rw [Function.update_of_ne heq] at hother
    exact h.onlyAps apicId hother

/-- An AP starts at the beginning of the trampoline. -/
theorem runs_startAt (procs : Processors) (apicId : BitVec 32) :
    Runs (stepIn procs.translate) Quiet InTrampoline (Stopped procs.translate) 44
      (startAt (procs.afterInit apicId) trampolinePage) :=
  runs_installed (procs.pe apicId) (procs.pg apicId)
    (show trampolinePage.toNat * 4096 = trampolinePhys by decide) rfl rfl

variable (procs) in
/-- What a startup IPI does to them. -/
theorem Inv.startup (h : Inv procs env left s) {ap : MadtLocalApic} (hap : ap ∈ env.aps)
    {cpus : BitVec 32 → Cpu}
    (hcpus : cpus = match s.cpus (destOf ap) with
      | .waitForSipi => Function.update s.cpus (destOf ap)
          (.running (startAt (procs.afterInit (destOf ap)) trampolinePage))
      | .other | .running _ => s.cpus) :
    (∀ apicId n, (s.cpus apicId).EndsIn procs.translate n →
      (cpus apicId).EndsIn procs.translate n) ∧
    (∀ apicId, cpus apicId ≠ .other → ∃ ap ∈ env.aps, apicId = destOf ap) := by
  cases hcpu : s.cpus (destOf ap) with
  | other | running m =>
      simp only [hcpu] at hcpus
      rw [hcpus]
      exact ⟨fun _ _ hn => hn, h.onlyAps⟩
  | waitForSipi =>
      simp only [hcpu] at hcpus
      rw [hcpus]
      constructor
      · intro apicId n hn
        by_cases heq : apicId = destOf ap
        · rw [heq, hcpu] at hn
          rw [heq, Function.update_self]
          exact (runs_startAt procs _).of_le hn
        · rwa [Function.update_of_ne heq]
      · intro apicId hother
        by_cases heq : apicId = destOf ap
        · exact ⟨ap, hap, heq⟩
        · rw [Function.update_of_ne heq] at hother
          exact h.onlyAps apicId hother

theorem rank_goOn (hiteration : t.iteration = s.iteration)
    (hleft : stepsLeft t.pc + 1 = stepsLeft s.pc) : rank env t + 1 = rank env s := by
  rw [rank, rank, hiteration]
  omega

/-- A round that is waited out is as long as it can be. -/
theorem rank_nextIteration (hlt : s.iteration < env.aps.length) (hleft : stepsLeft s.pc = 1) :
    rank env (s.nextIteration env) + 1 = rank env s := by
  have hstart : stepsLeft (s.nextIteration env).pc =
      if s.iteration + 1 < env.aps.length then maxIterations + 10 else 0 := by
    show stepsLeft (iterationStart env (s.iteration + 1)) = _
    unfold iterationStart
    split <;> rfl
  have hiteration : (s.nextIteration env).iteration = s.iteration + 1 := rfl
  rw [rank, rank, hstart, hiteration, hleft]
  obtain ⟨k, hk⟩ : ∃ k, env.aps.length = s.iteration + 1 + k := Nat.exists_eq_add_of_le hlt
  cases k with
  | zero =>
      rw [if_neg (by omega), hk, Nat.sub_eq_zero_of_le (by omega), Nat.zero_mul, Nat.sub_self,
        Nat.zero_mul]
  | succ k =>
      have hrest : env.aps.length - (s.iteration + 1 + 1) = k := by omega
      have hrest' : env.aps.length - (s.iteration + 1) = k + 1 := by omega
      rw [if_pos (by omega), hrest, hrest', Nat.succ_mul]

/-- A step of the BSP keeps the invariant, and is one of those that the rank
counts. -/
theorem Inv.bspStep (h : Inv procs env left s) (hstep : Startup.bspStep procs env s = some t) :
    Inv procs env left t ∧ rank env t + 1 = rank env s := by
  have hdone : s.pc ≠ .done := by
    intro hpc
    simp [Startup.bspStep, hpc] at hstep
  obtain ⟨ap, hap, hmem⟩ := h.exists_ap hdone
  have hsame : ∀ apicId n, (s.cpus apicId).EndsIn procs.translate n →
      (s.cpus apicId).EndsIn procs.translate n := fun _ _ hn => hn
  cases hpc : s.pc with
  | done => exact absurd hpc hdone
  | write f =>
      simp only [Startup.bspStep, hpc, Option.some.injEq] at hstep
      subst hstep
      refine ⟨h.goOn [] hdone ?_ hap rfl ⟨rfl, rfl⟩ (h.write f hpc) (h.ends_goOn rfl ?_ hsame)
        h.onlyAps ?_ (List.append_nil _).symm ?_, ?_⟩
      · cases f <;> nofun
      · rw [hpc]
        exact iff_of_true (sentBefore_afterWrite f) rfl
      · cases f <;> nofun
      · simp only [hpc, sentBefore_afterWrite, List.append_nil]
        rfl
      · refine rank_goOn rfl ?_
        rw [hpc]
        cases f <;> simp only [afterWrite, stepsLeft]
  | clearReady =>
      simp only [Startup.bspStep, hpc, Option.some.injEq] at hstep
      subst hstep
      refine ⟨h.goOn [] hdone nofun hap rfl ⟨rfl, rfl⟩ h.quiet.clear (h.ends_goOn rfl ?_ hsame)
        h.onlyAps nofun (List.append_nil _).symm ?_, ?_⟩
      · simp only [hpc, sentBefore]
      · rw [hpc]
        rfl
      · refine rank_goOn rfl ?_
        simp only [hpc, stepsLeft]
  | sendInit =>
      obtain ⟨icr, hsend⟩ := send_init procs s ap
      simp only [Startup.bspStep, hpc, hap, Option.map_some, hsend, Option.some.injEq] at hstep
      subst hstep
      refine ⟨h.goOn _ hdone nofun hap rfl ⟨rfl, rfl⟩ h.quiet (h.ends_reset hap rfl ?_ ?_ rfl)
        (h.onlyAps_reset hmem) nofun rfl ?_, ?_⟩
      · rw [hpc, sentBefore]
      · exact Nat.one_ne_zero
      · rw [hpc]
        rfl
      · refine rank_goOn rfl ?_
        simp only [hpc, stepsLeft]
  | sendStartup =>
      obtain ⟨icr, hsend⟩ := send_startup procs s ap
      simp only [Startup.bspStep, hpc, hap, Option.map_some, hsend, Option.some.injEq] at hstep
      subst hstep
      obtain ⟨hcpus, honly⟩ := h.startup procs hmem rfl
      refine ⟨h.goOn _ hdone nofun hap rfl ⟨rfl, rfl⟩ h.quiet (h.ends_goOn rfl ?_ hcpus) honly
        nofun rfl ?_, ?_⟩
      · simp [hpc, sentBefore]
      · rw [hpc]
        rfl
      · refine rank_goOn rfl ?_
        simp only [hpc, stepsLeft]
  | checkReady =>
      simp only [Startup.bspStep, hpc, h.quiet.isApReady, Option.some.injEq, Bool.false_eq_true,
        if_false] at hstep
      subst hstep
      refine ⟨h.goOn [] hdone nofun hap rfl ⟨rfl, rfl⟩ h.quiet (h.ends_goOn rfl ?_ hsame) h.onlyAps
        nofun (List.append_nil _).symm ?_, ?_⟩
      · simp only [hpc, sentBefore]
      · rw [hpc]
        rfl
      · refine rank_goOn rfl ?_
        simp only [hpc, stepsLeft]
  | sendSecondStartup =>
      obtain ⟨icr, hsend⟩ := send_startup procs s ap
      simp only [Startup.bspStep, hpc, hap, Option.map_some, hsend, Option.some.injEq] at hstep
      subst hstep
      obtain ⟨hcpus, honly⟩ := h.startup procs hmem rfl
      refine ⟨h.goOn _ hdone nofun hap rfl ⟨rfl, rfl⟩ h.quiet (h.ends_goOn rfl ?_ hcpus) honly
        ?_ rfl ?_, ?_⟩
      · simp [hpc, sentBefore]
      · intro i hi
        obtain rfl := BspPc.waitReady.inj hi
        exact Nat.zero_le _
      · rw [hpc]
        rfl
      · refine rank_goOn rfl ?_
        simp only [hpc, stepsLeft, Nat.sub_zero]
  | waitReady i =>
      have hle := h.polls i hpc
      simp only [Startup.bspStep, hpc, h.quiet.isApReady, Bool.false_eq_true, if_false] at hstep
      split at hstep <;> rename_i hlt <;> obtain rfl := Option.some.inj hstep
      · -- one more poll
        refine ⟨h.goOn [] hdone nofun hap rfl ⟨rfl, rfl⟩ h.quiet (h.ends_goOn rfl ?_ hsame)
          h.onlyAps ?_ (List.append_nil _).symm ?_, ?_⟩
        · simp only [hpc, sentBefore]
        · intro j hj
          obtain rfl := BspPc.waitReady.inj hj
          exact hlt
        · rw [hpc]
          rfl
        · refine rank_goOn rfl ?_
          simp only [hpc, stepsLeft]
          omega
      · -- the wait has timed out
        obtain ⟨hin, -⟩ := List.getElem?_eq_some_iff.mp hap
        refine ⟨h.nextIteration hpc, rank_nextIteration hin ?_⟩
        simp only [hpc, stepsLeft]
        omega

/-- A step of an AP is one of those that it may still take. -/
theorem Inv.cpuStep (h : Inv procs env left s) {apicId : BitVec 32}
    (hstep : Startup.cpuStep procs s apicId = some t) :
    ∃ n, left apicId = n + 1 ∧ Inv procs env (Function.update left apicId n) t ∧
      rank env t = rank env s := by
  cases hcpu : s.cpus apicId with
  | other | waitForSipi => simp [Startup.cpuStep, hcpu] at hstep
  | running m =>
      simp only [Startup.cpuStep, hcpu] at hstep
      obtain ⟨⟨m', mem'⟩, hin, rfl⟩ := Option.map_eq_some_iff.mp hstep
      obtain ⟨n, hruns, hleft⟩ := h.ends apicId
      rw [hcpu] at hruns
      cases n with
      | zero =>
          have hnone := Stopped.stepIn hruns h.quiet
          rw [hin] at hnone
          cases hnone
      | succ n =>
          obtain ⟨hquiet, hnext⟩ := Runs.next hruns h.quiet (fun hend => hend.stepIn h.quiet) hin
          refine ⟨n + 44 * (apsLeft env s).countP (destOf · = apicId), by omega, ?_, rfl⟩
          refine ⟨hquiet, ?_, ?_, h.bound, h.last, h.polls, h.counted, h.sent⟩
          · intro apicId'
            by_cases heq : apicId' = apicId
            · simp only [heq, Function.update_self]
              exact ⟨n, hnext, rfl⟩
            · simp only [Function.update_of_ne heq]
              exact h.ends apicId'
          · intro apicId' hother
            by_cases heq : apicId' = apicId
            · exact heq ▸ h.onlyAps apicId (by rw [hcpu]; nofun)
            · simp only [Function.update_of_ne heq] at hother
              exact h.onlyAps apicId' hother

theorem Inv.step (h : Inv procs env left s) {a : Label} (hstep : step procs env s a = some t) :
    ∃ left', Inv procs env left' t ∧ rank env t + (if a == .bsp then 1 else 0) = rank env s ∧
      ∀ apicId, left' apicId + (if a == .cpu apicId then 1 else 0) = left apicId := by
  cases a with
  | bsp =>
      obtain ⟨hinv, hrank⟩ := h.bspStep hstep
      exact ⟨left, hinv, by simpa using hrank, fun _ => rfl⟩
  | cpu apicId =>
      obtain ⟨n, hn, hinv, hrank⟩ := h.cpuStep hstep
      refine ⟨_, hinv, by simpa using hrank, fun apicId' => ?_⟩
      by_cases heq : apicId' = apicId
      · subst heq
        simp [hn]
      · simp [Function.update_of_ne heq, Ne.symm heq]

/-- Every step of the BSP and of each AP is counted, and the others cannot make it
take more of them. -/
theorem Inv.run {as : List Label} (h : Inv procs env left s)
    (hrun : run (Startup.step procs env) s as = some t) :
    (∃ left', Inv procs env left' t) ∧ rank env t + as.count .bsp = rank env s ∧
      ∀ apicId, as.count (.cpu apicId) ≤ left apicId := by
  have hbsp : ∀ s a t k, ((∃ left, Inv procs env left s) ∧ rank env s = k) →
      Startup.step procs env s a = some t →
        ∃ l, ((∃ left, Inv procs env left t) ∧ rank env t = l) ∧
          l + (if a == .bsp then 1 else 0) = k := by
    rintro s a t k ⟨⟨left, h⟩, rfl⟩ hstep
    obtain ⟨left', h', hrank, -⟩ := h.step hstep
    exact ⟨_, ⟨⟨left', h'⟩, rfl⟩, hrank⟩
  have hcpu : ∀ apicId s a t k, (∃ left, Inv procs env left s ∧ left apicId = k) →
      Startup.step procs env s a = some t →
        ∃ l, (∃ left, Inv procs env left t ∧ left apicId = l) ∧
          l + (if a == .cpu apicId then 1 else 0) = k := by
    rintro apicId s a t k ⟨left, h, rfl⟩ hstep
    obtain ⟨left', h', -, hleft⟩ := h.step hstep
    exact ⟨_, ⟨left', h', rfl⟩, hleft apicId⟩
  obtain ⟨_, ⟨ht, rfl⟩, hrank⟩ := run_countdown hbsp ⟨⟨left, h⟩, rfl⟩ hrun
  refine ⟨ht, hrank, fun apicId => ?_⟩
  obtain ⟨l, -, hleft⟩ := run_countdown (hcpu apicId) ⟨left, h, rfl⟩ hrun
  exact hleft ▸ Nat.le_add_left _ l

/-- The IPIs of the rounds before and of a part of this one. -/
theorem Inv.sent_prefix (h : Inv procs env left s) : s.sent <+: env.aps.flatMap bootIpis := by
  have hsplit : env.aps.flatMap bootIpis =
      (env.aps.take s.iteration).flatMap bootIpis ++ (env.aps.drop s.iteration).flatMap bootIpis := by
    rw [← List.flatMap_append, List.take_append_drop]
  rw [h.sent, hsplit, List.prefix_append_right_inj]
  cases hap : env.aps[s.iteration]? with
  | none =>
      show List.take _ [] <+: _
      rw [List.take_nil]
      exact List.nil_prefix
  | some ap =>
      obtain ⟨hlt, rfl⟩ := List.getElem?_eq_some_iff.mp hap
      rw [List.drop_eq_getElem_cons hlt, List.flatMap_cons]
      exact (List.take_prefix _ _).trans (List.prefix_append _ _)

/-! ### What comes of the boot -/

/-- Two processors and a disabled one. -/
def oneAp : BootEnv where
  madt := ⟨[⟨0, 0, true⟩, ⟨1, 1, true⟩, ⟨2, 2, false⟩]⟩
  bspApicId := 0
  cr3 := 0x1000
  apEntry := 0x100000
  stackBase i := 0x200000 + i * 0x40000
  stack_fits := by decide
  stack_disjoint := by decide

def processors (translate : ℕ → Option ℕ) : Processors where
  afterInit _ := apAfterInit
  translate := translate
  pe _ := by decide
  pg _ := by decide

/-- The only AP gets its startup IPI and goes through some instructions. -/
def afterInstrs (n : ℕ) : List Label := List.replicate 7 .bsp ++ List.replicate n (.cpu 1)

theorem isSome_afterInstrs :
    (Machine.run (step (processors some) oneAp) (init oneAp (fun _ => 0) ⟨0, 0⟩)
      (afterInstrs 44)).isSome = true := by
  decide +kernel

/-- **What the BSP puts on the bus.** INIT and two startup IPIs for each AP, in the
order of the MADT; each is addressed to one enabled processor that is not the BSP,
and sends it to the trampoline. No other processor is reset or started. -/
theorem boot_ipis_exact (procs : Processors) (env : BootEnv) (mem : Mem) (icr : Icr)
    {as : List Label} {s : State}
    (hrun : Machine.run (step procs env) (init env mem icr) as = some s) :
    s.sent <+: env.aps.flatMap bootIpis ∧ (s.pc = .done → s.sent = env.aps.flatMap bootIpis) ∧
      (∀ ipi ∈ s.sent, (∃ la ∈ env.madt.localApics, la.enabled = true ∧ ipi.dest = destOf la) ∧
        ipi.dest ≠ env.bspApicId ∧
        (ipi.deliveryMode = deliveryInit ∧ ipi.assert = true ∨
          ipi.deliveryMode = deliveryStartup ∧ ipi.vector.toNat * 4096 = trampolinePhys)) ∧
      ∀ apicId, s.cpus apicId ≠ .other → ∃ ap ∈ env.aps, apicId = destOf ap := by
  have hinit : Inv procs env _ (init env mem icr) := init_inv mem icr
  obtain ⟨⟨_, h⟩, -⟩ := hinit.run hrun
  have hsent := h.sent_prefix
  refine ⟨hsent, ?_, ?_, h.onlyAps⟩
  · intro hpc
    rw [h.sent, hpc, h.last.mp hpc, List.take_length]
    exact List.append_nil _
  · intro ipi hipi
    obtain ⟨ap, hap, hipi⟩ := List.mem_flatMap.mp (hsent.subset hipi)
    obtain ⟨hla, hkept⟩ := List.mem_filter.mp hap
    obtain ⟨henabled, hne⟩ := Bool.and_eq_true_iff.mp hkept
    have hdest : ipi.dest = destOf ap := by
      simp only [bootIpis, List.mem_cons, List.not_mem_nil, or_false] at hipi
      rcases hipi with rfl | rfl | rfl <;> rfl
    refine ⟨⟨ap, hla, henabled, hdest⟩, ?_, ?_⟩
    · rw [hdest]
      simpa [destOf] using hne
    · simp only [bootIpis, List.mem_cons, List.not_mem_nil, or_false] at hipi
      rcases hipi with rfl | rfl | rfl
      · exact .inl (isInit_initIpi _)
      all_goals
        refine .inr ⟨deliveryMode_startupIpi _ _, ?_⟩
        rw [vector_startupIpi]
        decide

theorem boot_ipis_exact_stopped :
    ∃ s, Machine.run (step (processors some) oneAp) (init oneAp (fun _ => 0) ⟨0, 0⟩)
        (afterInstrs 44) = some s ∧
      s.sent <+: [initIpi 1, startupIpi 1 0x08, startupIpi 1 0x08] := by
  obtain ⟨s, hrun⟩ := Option.isSome_iff_exists.mp isSome_afterInstrs
  exact ⟨s, hrun, (boot_ipis_exact (processors some) oneAp _ _ hrun).1⟩

end

end Startup

end SmpNostd
