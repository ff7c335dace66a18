import SmpNostd.Driver.Sending
import SmpNostd.Scheduler.Balance

/-!
The two ways to spawn a task through the controller (`spawn_on_core` and `spawn`
in `driver.rs`).

Both put a new task on a run queue; only `spawn_on_core` also wakes the core.
-/

namespace SmpNostd

open Machine LocalApic

/-! ### The model -/

/-- `DEFAULT_STACK_SIZE`. -/
def Task.defaultStackSize : BitVec 64 := 64 * 1024

/-- What the new task is to do, and where the allocator puts its stack. -/
structure TaskArgs where
  name : String
  entry : BitVec 64
  arg : BitVec 64
  stackPtr : BitVec 64
  deriving DecidableEq, Repr

namespace System

/-- The task that `Task::new` makes. -/
def newTask (s : System) (args : TaskArgs) : Task :=
  Task.new s.nextTaskId args.stackPtr args.name args.entry args.arg Task.defaultStackSize

/-- A new task is in the queues of `scheduler`. -/
def spawned (s : System) (scheduler : Scheduler Task) : System :=
  { s with
    ctrl := { s.ctrl with scheduler := some scheduler }
    nextTaskId := RunQueue.fetchAdd s.nextTaskId }

/-- Spawn a task on a specific core. What is returned is the id of the task;
nothing at all is returned if the scheduler's assertion fails. -/
def spawnOnCore (s : System) (coreId : ℕ) (args : TaskArgs) : Option (Option ℕ × System) :=
  match s.ctrl.scheduler with
  | some scheduler =>
      let task := s.newTask args
      (scheduler.spawnOnCore coreId task).map fun scheduler =>
        -- Send scheduling IPI to wake the target core
        (some task.id, (s.spawned scheduler).ipiSend coreId Scheduler.ipiScheduleVector)
  | none => some (none, s)

/-- Spawn a task on the least-loaded core. -/
def spawn (s : System) (args : TaskArgs) : Option (Option ℕ × System) :=
  match s.ctrl.scheduler with
  | some scheduler =>
      let task := s.newTask args
      (scheduler.spawn task).map fun scheduler => (some task.id, s.spawned scheduler)
  | none => some (none, s)

inductive Call
  | spawn (args : TaskArgs)
  | spawnOnCore (coreId : ℕ) (args : TaskArgs)
  deriving DecidableEq, Repr

def perform (s : System) : Call → Option (Option ℕ × System)
  | .spawn args => s.spawn args
  | .spawnOnCore coreId args => s.spawnOnCore coreId args

def step (s : System) (call : Call) : Option System := (s.perform call).map Prod.snd

/-- If the call returns `Some(id)`, it has appended one task, with that id, to one
run queue, and has sent one IPI, to the core of that queue. -/
def Wakes (s : System) (call : Call) : Prop :=
  ∀ id t, s.perform call = some (some id, t) →
    ∃ core task sched sched' cpu ipi,
      s.ctrl.scheduler = some sched ∧ t.ctrl.scheduler = some sched' ∧ task.id = id ∧
      sched'.queueOf = Function.update sched.queueOf core (sched.queueOf core ++ [task]) ∧
      s.percpus.getCpu core = some cpu ∧ t.sent = s.sent ++ [ipi] ∧ ipi.dest = cpu.apicId ∧
      ipi.deliveryMode = deliveryFixed ∧ ipi.vector = Scheduler.ipiScheduleVector

/-- The call names its core. -/
def Call.IsOnCore : Call → Prop
  | .spawn _ => False
  | .spawnOnCore _ _ => True

/-- A core that the call names is one of the controller's. -/
def Call.InRange (numCores : ℕ) : Call → Prop
  | .spawn _ => True
  | .spawnOnCore coreId _ => coreId < numCores

variable {s t : System} {call : Call} {core : ℕ} {args : TaskArgs}

/-! ### One call -/

/-- A task of the controller's goes to the queue of a core that exists. -/
theorem Ready.pushTo (h : s.Ready) {sched : Scheduler Task} (hsched : s.ctrl.scheduler = some sched)
    (hcore : core < s.ctrl.numCores) (args : TaskArgs) :
    ∃ sched', sched.pushTo core (s.newTask args) = some sched' ∧ (s.spawned sched').Ready := by
  obtain ⟨m, hm, hnum, hlength⟩ := h.scheduler
  obtain rfl := Option.some.inj (hm.symm.trans hsched)
  obtain ⟨sched', hpush, hnum', hlength'⟩ :=
    Scheduler.exists_pushTo (hlength ▸ hcore) (s.newTask args)
  exact ⟨sched', hpush, h.initialized, ⟨sched', rfl, hnum'.trans hnum, hlength'.trans hlength⟩,
    h.cores, h.registered⟩

/-- `spawn_on_core` wakes the core. -/
theorem Ready.performOnCore (h : s.Ready) (hcore : core < s.ctrl.numCores) (args : TaskArgs) :
    ∃ t, step s (.spawnOnCore core args) = some t ∧ t.Ready ∧ t.ctrl.numCores = s.ctrl.numCores ∧
      Wakes s (.spawnOnCore core args) := by
  obtain ⟨sched, hsched, hnum, -⟩ := h.scheduler
  obtain ⟨sched', hpush, hready⟩ := h.pushTo hsched hcore args
  obtain ⟨cpu, hcpu, hsent⟩ := hready.sent_ipiSend hcore Scheduler.ipiScheduleVector
  have hctrl := ipiSend_ctrl (s.spawned sched') core Scheduler.ipiScheduleVector
  have hperform : s.perform (.spawnOnCore core args) = some (some (s.newTask args).id,
      (s.spawned sched').ipiSend core Scheduler.ipiScheduleVector) := by
    rw [perform, spawnOnCore, hsched]
    simp only [Scheduler.spawnOnCore, if_pos (hnum.symm ▸ hcore), hpush, Option.map_some]
  refine ⟨_, congrArg (Option.map Prod.snd) hperform, hready.ipiSend core _, ?_, ?_⟩
  · rw [hctrl]
    rfl
  · intro id t hid
    rw [hperform] at hid
    obtain ⟨heq, rfl⟩ := Prod.mk.inj (Option.some.inj hid)
    refine ⟨core, s.newTask args, sched, sched', cpu, fixedIpi cpu.apicId _, hsched, ?_,
      Option.some.inj heq, Scheduler.queueOf_pushTo hpush, hcpu, hsent, rfl,
      deliveryMode_fixedIpi _ _, vector_fixedIpi _ _⟩
    rw [hctrl]
    rfl

/-- `spawn` returns an id, and sends nothing. -/
theorem Ready.performSpawn (h : s.Ready) (args : TaskArgs) :
    ∃ t, step s (.spawn args) = some t ∧ t.Ready ∧ t.ctrl.numCores = s.ctrl.numCores ∧
      ¬Wakes s (.spawn args) := by
  obtain ⟨sched, hsched, -, hlength⟩ := h.scheduler
  have hlt := Scheduler.leastLoadedCore_lt (hlength.symm ▸ h.cores)
  obtain ⟨sched', hpush, hready⟩ := h.pushTo hsched (hlength ▸ hlt) args
  have hunpinned : TaskLike.affinity (s.newTask args) = none := rfl
  have hperform : s.perform (.spawn args) =
      some (some (s.newTask args).id, s.spawned sched') := by
    rw [perform, spawn, hsched]
    simp only [Scheduler.spawn_unpinned hunpinned, hpush, Option.map_some]
  refine ⟨_, congrArg (Option.map Prod.snd) hperform, hready, rfl, fun hwakes => ?_⟩
  obtain ⟨core, task, m, m', cpu, ipi, -, -, -, -, -, hsent, -⟩ := hwakes _ _ hperform
  have hlen := congrArg List.length hsent
  rw [List.length_append] at hlen
  exact absurd hlen (by simp [spawned])

/-! ### Sequences of calls -/

/-- **Which calls wake the core that they enqueue on**: the ones that name it. In
every sequence of calls none panics, and all wake their cores exactly if all are
calls of `spawn_on_core`. -/
theorem spawns_wake_iff (s : System) (hs : s.Ready) (calls : List Call)
    (hcalls : ∀ call ∈ calls, call.InRange s.ctrl.numCores) :
    (∃ t, run step s calls = some t) ∧
      (StepsMeet step Wakes s calls ↔ ∀ call ∈ calls, call.IsOnCore) := by
  induction calls generalizing s with
  | nil => exact ⟨⟨s, rfl⟩, fun _ => nofun, fun _ => trivial⟩
  | cons call calls ih =>
      obtain ⟨hcall, hcalls⟩ := List.forall_mem_cons.mp hcalls
      have hcons : ∃ t, step s call = some t ∧ t.Ready ∧ t.ctrl.numCores = s.ctrl.numCores ∧
          (Wakes s call ↔ call.IsOnCore) := by
        cases call with
        | spawn args =>
            obtain ⟨t, hstep, hready, hnum, hwakes⟩ := hs.performSpawn args
            exact ⟨t, hstep, hready, hnum, hwakes.elim, False.elim⟩
        | spawnOnCore core args =>
            obtain ⟨t, hstep, hready, hnum, hwakes⟩ := hs.performOnCore hcall args
            exact ⟨t, hstep, hready, hnum, fun _ => trivial, fun _ => hwakes⟩
      obtain ⟨t, hstep, hready, hnum, hwakes⟩ := hcons
      obtain ⟨⟨u, hrun⟩, hiff⟩ := ih t hready (hnum ▸ hcalls)
      refine ⟨⟨u, run_cons_eq_some.mpr ⟨t, hstep, hrun⟩⟩, ?_⟩
      rw [stepsMeet_cons hstep, hwakes, hiff, List.forall_mem_cons]

/-- Two cores with the APIC ids 0 and 1. -/
def twoCores : System where
  ctrl := ⟨0, 1, 2, none, some (.new 2), true⟩
  percpus := (PerCpus.empty.store ⟨0, 0, true⟩).store ⟨1, 1, false⟩
  icr := ⟨0, 0⟩
  nextTaskId := 1
  apHalt := false
  sent := []

theorem ready_twoCores : twoCores.Ready where
  initialized := rfl
  scheduler := ⟨.new 2, rfl, rfl, rfl⟩
  cores := by decide
  registered _ hc := registered_two hc

theorem spawns_wake_iff_on_core :
    let args : TaskArgs := ⟨"a", 0x2000, 0, 0x100000⟩
    StepsMeet step Wakes twoCores [.spawnOnCore 1 args, .spawnOnCore 0 args] := by
  intro args
  refine (spawns_wake_iff twoCores ready_twoCores [.spawnOnCore 1 args, .spawnOnCore 0 args]
    ?_).2.mpr ?_
  · simp only [List.forall_mem_cons]
    exact ⟨show 1 < 2 by decide, show 0 < 2 by decide, nofun⟩
  · simp only [List.forall_mem_cons]
    exact ⟨trivial, trivial, nofun⟩

/-- Core 0 has a task, so that the next one goes to core 1, which may be halted:
no IPI is sent to it. -/
theorem spawn_does_not_wake :
    let args : TaskArgs := ⟨"a", 0x2000, 0, 0x100000⟩
    let sched : Scheduler Task := ⟨[⟨0, [twoCores.newTask args], 1⟩, ⟨1, [], 0⟩], 2⟩
    let s : System := { twoCores with ctrl := ⟨0, 1, 2, none, some sched, true⟩, nextTaskId := 2 }
    s.Ready ∧ ∃ t, s.perform (.spawn args) = some (some 2, t) ∧
      (∃ sched', t.ctrl.scheduler = some sched' ∧ (sched'.queueOf 1).map Task.id = [2]) ∧
      t.sent = s.sent ∧ ¬Wakes s (.spawn args) := by
  intro args sched s
  have hready : s.Ready :=
    ⟨rfl, ⟨sched, rfl, rfl, rfl⟩, by decide, ready_twoCores.registered⟩
  obtain ⟨t, -, -, -, hwakes⟩ := hready.performSpawn args
  exact ⟨hready, _, rfl, ⟨_, rfl, by decide⟩, rfl, hwakes⟩

end System

end SmpNostd
