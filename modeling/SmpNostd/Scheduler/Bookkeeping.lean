import SmpNostd.Scheduler.Balance

/-!
The state and the core that a task carries with it.

A task is submitted as `Task::new` makes it, ready and without a core. The
scheduler moves it from queue to queue and hands it out, and a caller passes it
back, but nothing of this is written into the task: what is in the system at any
time is what has been submitted, as it was submitted.
-/

namespace SmpNostd.Bookkeeping

open Machine Interleaving

/-! ### The model -/

/-- The arguments of `Task::new` and `with_affinity`, and what the counter and
the allocator give a new task. -/
structure Fresh where
  id : ℕ
  stackPtr : BitVec 64
  name : String
  entry : BitVec 64
  arg : BitVec 64
  stackSize : BitVec 64
  affinity : Option ℕ
  deriving DecidableEq, Repr

def Fresh.task (f : Fresh) : Task :=
  let task := Task.new f.id f.stackPtr f.name f.entry f.arg f.stackSize
  match f.affinity with
  | some coreId => task.withAffinity coreId
  | none => task

/-- The scheduler, and the tasks that have been handed out and not been passed
back, with the cores that they were handed out to. -/
structure State where
  sched : Scheduler Task
  running : List (ℕ × Task)
  deriving DecidableEq, Repr

def new (numCores : ℕ) : State where
  sched := .new numCores
  running := []

/-- What a caller passes to `wake` or `preempt_current`. -/
inductive Passed
  | fresh (f : Fresh)
  /-- The task that was handed out as the `i`-th of those in `running`. -/
  | handedOut (i : ℕ)
  deriving DecidableEq, Repr

inductive Label
  | spawn (f : Fresh)
  | spawnOnCore (core : ℕ) (f : Fresh)
  | wake (passed : Passed) (targetCore : ℕ)
  | preemptCurrent (core : ℕ) (passed : Passed)
  | schedule (core : ℕ)
  | blockCurrent (core : ℕ)
  deriving DecidableEq, Repr

/-- The task that is passed, and the ones that then are still handed out. -/
def State.pass (s : State) : Passed → Option (Task × List (ℕ × Task))
  | .fresh f => some (f.task, s.running)
  | .handedOut i => s.running[i]?.map fun x => (x.2, s.running.eraseIdx i)

def State.handOut (s : State) (core : ℕ) (result : Option Task) (sched : Scheduler Task) :
    State where
  sched := sched
  running := s.running ++ result.toList.map (core, ·)

def step (s : State) : Label → Option State
  | .spawn f => (s.sched.spawn f.task).map fun sched => { s with sched := sched }
  | .spawnOnCore core f =>
      (s.sched.spawnOnCore core f.task).map fun sched => { s with sched := sched }
  | .wake passed targetCore =>
      (s.pass passed).bind fun (task, running) =>
        (s.sched.wake task targetCore).map fun sched => ⟨sched, running⟩
  | .preemptCurrent core passed =>
      (s.pass passed).bind fun (task, running) =>
        (s.sched.preemptCurrent core task).map fun sched => ⟨sched, running⟩
  | .schedule core =>
      (s.sched.schedule core).map fun (result, sched) => s.handOut core result sched
  | .blockCurrent core =>
      (s.sched.blockCurrent core).map fun (result, sched) => s.handOut core result sched

/-- What the documentation of the fields says: a queued task is ready and its
core is the one of the queue, a task handed out is running on the core that it
was handed out to. -/
structure Kept (s : State) : Prop where
  queued : ∀ c, ∀ task ∈ s.sched.queueOf c, task.state = .ready ∧ task.assignedCore = some c
  running : ∀ x ∈ s.running, x.2.state = .running ∧ x.2.assignedCore = some x.1

/-- The task that a call submits for the first time. -/
def Label.submitted : Label → List Task
  | .spawn f | .spawnOnCore _ f | .wake (.fresh f) _ | .preemptCurrent _ (.fresh f) => [f.task]
  | .wake (.handedOut _) _ | .preemptCurrent _ (.handedOut _) | .schedule _ | .blockCurrent _ => []

/-- All tasks, queued or handed out. -/
def tasks (s : State) : Multiset Task := queued s.sched + ↑(s.running.map Prod.snd)

/-- A task as `Task::new` left its state and its core. -/
def Untouched (task : Task) : Prop := task.state = .ready ∧ task.assignedCore = none

variable {s s' : State} {ls : List Label} {l : Label}

/-! ### The tasks do not change -/

theorem Fresh.untouched (f : Fresh) : Untouched f.task := by
  unfold Fresh.task
  cases f.affinity <;> exact ⟨rfl, rfl⟩

theorem Untouched.setState_ready {task : Task} (h : Untouched task) :
    TaskLike.setState task .ready = task := by
  show { task with state := .ready } = task
  rw [← h.1]

theorem untouched_of_mem_submitted {task : Task} (h : task ∈ l.submitted) : Untouched task := by
  unfold Label.submitted at h
  split at h
  case h_5 | h_6 | h_7 | h_8 => cases h
  all_goals
    obtain rfl := List.mem_singleton.mp h
    exact Fresh.untouched _

/-- A call that pushes a task to some queue. -/
theorem tasks_pushTo {core : ℕ} {task : Task} {sched : Scheduler Task}
    (h : s.sched.pushTo core task = some sched) (running : List (ℕ × Task)) :
    tasks ⟨sched, running⟩ = queued s.sched + ({task} + ↑(running.map Prod.snd)) := by
  rw [tasks, queued_pushTo h, add_assoc]

theorem queued_repush {core : ℕ} {rest : List Task} {sched sched' : Scheduler Task}
    (h : sched.repush core rest = some sched') : queued sched' = queued sched + rest := by
  induction rest generalizing sched with
  | nil =>
      obtain rfl := Option.some.inj h
      exact (add_zero _).symm
  | cons task rest ih =>
      simp only [Scheduler.repush, Option.bind_eq_some_iff] at h
      obtain ⟨m, hpush, hrest⟩ := h
      rw [ih hrest, queued_pushTo hpush, add_assoc]
      rfl

theorem queued_schedule {core : ℕ} {result : Option Task} {sched sched' : Scheduler Task}
    (h : sched.schedule core = some (result, sched')) :
    queued sched' + result.toList = queued sched := by
  simp only [Scheduler.schedule, Option.bind_eq_some_iff] at h
  obtain ⟨⟨popped, m⟩, hpop, hrest⟩ := h
  rw [← queued_popFrom hpop]
  cases popped with
  | some task =>
      obtain ⟨rfl, rfl⟩ := Prod.mk.inj (Option.some.inj hrest)
      rfl
  | none =>
      rw [show (queued m : Multiset Task) + ↑(none : Option Task).toList = queued m from add_zero _]
      dsimp only at hrest
      split at hrest
      case h_1 =>
        obtain ⟨rfl, rfl⟩ := Prod.mk.inj (Option.some.inj hrest)
        exact add_zero _
      case h_2 =>
        simp only [Option.bind_eq_some_iff] at hrest
        obtain ⟨⟨stolen, m'⟩, hsteal, hrest⟩ := hrest
        rw [← queued_stealFrom hsteal]
        cases stolen with
        | nil =>
            obtain ⟨rfl, rfl⟩ := Prod.mk.inj (Option.some.inj hrest)
            rfl
        | cons first rest =>
            simp only [Option.map_eq_some_iff, Prod.mk.injEq] at hrest
            obtain ⟨m'', hrepush, rfl, rfl⟩ := hrest
            rw [queued_repush hrepush, add_assoc, add_comm (rest : Multiset Task)]
            rfl

theorem tasks_handOut {core : ℕ} {result : Option Task} {sched : Scheduler Task}
    (h : s.sched.schedule core = some (result, sched)) :
    tasks (s.handOut core result sched) = tasks s := by
  have hmap : (result.toList.map (core, ·)).map Prod.snd = result.toList := by
    rw [List.map_map]
    exact List.map_id _
  rw [tasks, tasks, ← queued_schedule h, State.handOut, List.map_append, hmap, ← Multiset.coe_add]
  abel

/-- The task that a caller passes is a fresh one or one of those handed out. -/
theorem pass_spec {passed : Passed} {task : Task} {running : List (ℕ × Task)}
    (h : s.pass passed = some (task, running)) (hall : ∀ task ∈ tasks s, Untouched task) :
    Untouched task ∧ ({task} : Multiset Task) + ↑(running.map Prod.snd) =
      ↑(s.running.map Prod.snd) + ↑(Label.wake passed 0).submitted := by
  cases passed with
  | fresh f =>
      obtain ⟨rfl, rfl⟩ := Prod.mk.inj (Option.some.inj h)
      exact ⟨f.untouched, add_comm _ _⟩
  | handedOut i =>
      simp only [State.pass, Option.map_eq_some_iff, Prod.mk.injEq] at h
      obtain ⟨x, hx, rfl, rfl⟩ := h
      obtain ⟨hlt, rfl⟩ := List.getElem?_eq_some_iff.mp hx
      have hperm := (List.getElem_cons_eraseIdx_perm hlt).map Prod.snd
      have hcoe : ((s.running[i].2 :: (s.running.eraseIdx i).map Prod.snd : List Task) :
          Multiset Task) = ↑(s.running.map Prod.snd) := Multiset.coe_eq_coe.mpr hperm
      refine ⟨hall _ (Multiset.mem_add.mpr (.inr ?_)), hcoe.trans (add_zero _).symm⟩
      exact Multiset.mem_coe.mpr (List.mem_map_of_mem (List.getElem_mem hlt))

theorem spawn_pushTo {f : Fresh} {sched sched' : Scheduler Task}
    (h : sched.spawn f.task = some sched') : ∃ core, sched.pushTo core f.task = some sched' := by
  unfold Scheduler.spawn at h
  split at h <;> exact ⟨_, h⟩

/-- A task passed to `wake` or `preempt_current`, which make it ready. -/
theorem tasks_pass {passed : Passed} {task : Task} {running : List (ℕ × Task)} {core : ℕ}
    {sched : Scheduler Task} (hall : ∀ task ∈ tasks s, Untouched task)
    (hpass : s.pass passed = some (task, running))
    (hpush : s.sched.pushTo core (TaskLike.setState task .ready) = some sched) :
    tasks ⟨sched, running⟩ = tasks s + ↑(Label.wake passed 0).submitted := by
  obtain ⟨huntouched, hbalance⟩ := pass_spec hpass hall
  rw [huntouched.setState_ready] at hpush
  rw [tasks_pushTo hpush, hbalance, ← add_assoc]
  rfl

theorem tasks_step (hall : ∀ task ∈ tasks s, Untouched task) (hstep : step s l = some s') :
    tasks s' = tasks s + ↑l.submitted := by
  have hfresh : ∀ {core : ℕ} {f : Fresh} {sched : Scheduler Task},
      s.sched.pushTo core f.task = some sched →
        tasks { s with sched := sched } = tasks s + ↑[f.task] := by
    intro core f sched hpush
    rw [tasks_pushTo hpush, add_comm ({_} : Multiset Task), ← add_assoc]
    rfl
  cases l with
  | spawn f =>
      simp only [step, Option.map_eq_some_iff] at hstep
      obtain ⟨sched, hspawn, rfl⟩ := hstep
      obtain ⟨core, hpush⟩ := spawn_pushTo hspawn
      exact hfresh hpush
  | spawnOnCore core f =>
      simp only [step, Option.map_eq_some_iff, Scheduler.spawnOnCore,
        Option.ite_none_right_eq_some] at hstep
      obtain ⟨sched, ⟨-, hpush⟩, rfl⟩ := hstep
      exact hfresh hpush
  | wake passed core | preemptCurrent core passed =>
      simp only [step, Option.bind_eq_some_iff, Option.map_eq_some_iff] at hstep
      obtain ⟨⟨task, running⟩, hpass, sched, hpush, rfl⟩ := hstep
      have htasks := tasks_pass hall hpass hpush
      cases passed <;> exact htasks
  | schedule core | blockCurrent core =>
      simp only [step, Option.map_eq_some_iff] at hstep
      obtain ⟨⟨result, sched⟩, hsched, rfl⟩ := hstep
      exact (tasks_handOut hsched).trans (add_zero _).symm

/-- **The tasks in the system are the ones submitted, as they were submitted.** -/
theorem tasks_run (hall : ∀ task ∈ tasks s, Untouched task) (hrun : run step s ls = some s') :
    tasks s' = tasks s + ↑(ls.flatMap Label.submitted) := by
  induction ls generalizing s with
  | nil =>
      obtain rfl := Option.some.inj hrun
      exact (add_zero _).symm
  | cons l ls ih =>
      obtain ⟨m, hm, hrest⟩ := run_cons_eq_some.mp hrun
      have htasks := tasks_step hall hm
      have hall' : ∀ task ∈ tasks m, Untouched task := by
        intro task hmem
        rw [htasks, Multiset.mem_add, Multiset.mem_coe] at hmem
        exact hmem.elim (hall task) untouched_of_mem_submitted
      rw [ih hall' hrest, htasks, List.flatMap_cons, ← Multiset.coe_add, add_assoc]

/-! ### When the fields are right -/

theorem mem_queued {task : Task} {sched : Scheduler Task} :
    task ∈ queued sched ↔ ∃ c, task ∈ sched.queueOf c := by
  rw [queued_eq_flatMap, Multiset.mem_coe, List.mem_flatMap]
  constructor
  · rintro ⟨rq, hrq, hmem⟩
    obtain ⟨c, hc⟩ := List.mem_iff_getElem?.mp hrq
    exact ⟨c, by rwa [Scheduler.queueOf_of_getElem? hc]⟩
  · rintro ⟨c, hmem⟩
    unfold Scheduler.queueOf at hmem
    split at hmem
    case h_1 rq hrq => exact ⟨rq, List.mem_of_getElem? hrq, hmem⟩
    case h_2 => cases hmem

theorem tasks_new (numCores : ℕ) : tasks (new numCores) = 0 := by
  refine Multiset.eq_zero_of_forall_notMem fun task hmem => ?_
  rcases Multiset.mem_add.mp hmem with hqueued | hrunning
  · obtain ⟨c, hc⟩ := mem_queued.mp hqueued
    rw [new, Scheduler.queueOf_new] at hc
    cases hc
  · cases hrunning

/-- A task that nothing has been written into has no core. -/
theorem Kept.not_mem_tasks (h : Kept s) {task : Task} (huntouched : Untouched task) :
    task ∉ tasks s := by
  intro hmem
  rcases Multiset.mem_add.mp hmem with hqueued | hrunning
  · obtain ⟨c, hc⟩ := mem_queued.mp hqueued
    have hcore := (h.queued c task hc).2
    rw [huntouched.2] at hcore
    cases hcore
  · obtain ⟨x, hx, rfl⟩ := List.mem_map.mp hrunning
    have hcore := (h.running x hx).2
    rw [huntouched.2] at hcore
    cases hcore

theorem kept_of_tasks_eq_zero (h : tasks s = 0) : Kept s := by
  have hnone : ∀ task, task ∉ tasks s := fun task => h ▸ Multiset.notMem_zero task
  refine ⟨fun c task hmem => ?_, fun x hx => ?_⟩
  · exact absurd (Multiset.mem_add.mpr (.inl (mem_queued.mpr ⟨c, hmem⟩))) (hnone task)
  · exact absurd (Multiset.mem_add.mpr (.inr (List.mem_map_of_mem hx))) (hnone x.2)

/-- **The fields of the tasks are right as long as there are none.** -/
theorem bookkeeping_kept_iff (numCores : ℕ) (ls : List Label) (s : State)
    (hrun : run step (new numCores) ls = some s) : Kept s ↔ ∀ l ∈ ls, l.submitted = [] := by
  have hnew : ∀ task ∈ tasks (new numCores), Untouched task := by
    rw [tasks_new]
    nofun
  have htasks := tasks_run hnew hrun
  rw [tasks_new, zero_add] at htasks
  rw [← List.flatMap_eq_nil_iff]
  constructor
  · intro hkept
    refine List.eq_nil_iff_forall_not_mem.mpr fun task hmem => ?_
    obtain ⟨l, -, hl⟩ := List.mem_flatMap.mp hmem
    refine hkept.not_mem_tasks (untouched_of_mem_submitted hl) ?_
    rwa [htasks, Multiset.mem_coe]
  · intro hnone
    exact kept_of_tasks_eq_zero (by rw [htasks, hnone]; rfl)

theorem bookkeeping_kept_idle :
    ∃ s, run step (new 2) [.schedule 0, .blockCurrent 1] = some s ∧ Kept s :=
  ⟨new 2, rfl, (bookkeeping_kept_iff 2 [.schedule 0, .blockCurrent 1] _ rfl).mpr (by decide)⟩

/-- Core 0 runs a task that is ready and assigned to no core. -/
theorem running_task_is_ready :
    let f : Fresh := ⟨1, 0x1000, "a", 0x2000, 0, 0x1000, none⟩
    ∃ s, run step (new 1) [.spawn f, .schedule 0] = some s ∧ s.running = [(0, f.task)] ∧
      f.task.state = .ready ∧ f.task.assignedCore = none ∧ ¬Kept s := by
  intro f
  refine ⟨⟨⟨[⟨0, [], 0⟩], 1⟩, [(0, f.task)]⟩, by decide, rfl, rfl, rfl, fun h => ?_⟩
  exact absurd (h.running (0, f.task) (List.mem_singleton.mpr rfl)).1 (by decide)

end SmpNostd.Bookkeeping
