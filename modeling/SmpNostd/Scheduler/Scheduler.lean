import SmpNostd.Scheduler.RunQueue
import SmpNostd.Scheduler.Task

/-!
The scheduler's operations (`Scheduler` in `scheduler.rs`), each run alone.

`none` is an index or an assertion that panics.
-/

namespace SmpNostd

/-- Multi-core scheduler with per-core run queues. -/
structure Scheduler (τ : Type) where
  runQueues : List (RunQueue τ)
  numCores : ℕ
  deriving DecidableEq, Repr

namespace Scheduler

variable {τ : Type}

/-- A new scheduler for `numCores` cores. -/
def new (numCores : ℕ) : Scheduler τ where
  runQueues := (List.range numCores).map RunQueue.new
  numCores := numCores

/-- `self.run_queues[core].push(task)`. -/
def pushTo (s : Scheduler τ) (core : ℕ) (task : τ) : Option (Scheduler τ) :=
  s.runQueues[core]?.map fun rq =>
    { s with runQueues := s.runQueues.set core (rq.push task) }

/-- `self.run_queues[core].pop()`. -/
def popFrom (s : Scheduler τ) (core : ℕ) : Option (Option τ × Scheduler τ) :=
  s.runQueues[core]?.map fun rq =>
    (rq.pop.1, { s with runQueues := s.runQueues.set core rq.pop.2 })

/-- `self.run_queues[victim].steal_half()`. -/
def stealFrom (s : Scheduler τ) (victim : ℕ) : Option (List τ × Scheduler τ) :=
  s.runQueues[victim]?.map fun rq =>
    (rq.stealHalf.1, { s with runQueues := s.runQueues.set victim rq.stealHalf.2 })

/-- One round of `least_loaded_core`: the accumulator is `min_load` and
`min_core`. -/
def leastLoadedStep (acc : ℕ × ℕ) (i load : ℕ) : ℕ × ℕ :=
  if load < acc.1 then (load, i) else acc

/-- `u64::MAX` and core 0. -/
def leastLoadedInit : ℕ × ℕ := (2 ^ 64 - 1, 0)

/-- One round of `busiest_core`: the accumulator is `max_load` and
`max_core`. -/
def busiestStep (excludeCore : ℕ) (acc : ℕ × Option ℕ) (i load : ℕ) : ℕ × Option ℕ :=
  if i = excludeCore then acc
  else if acc.1 < load then (load, some i)
  else acc

/-- Don't steal from cores with only one task. -/
def busiestInit : ℕ × Option ℕ := (1, none)

/-- The core with the fewest queued tasks. -/
def leastLoadedCore (s : Scheduler τ) : ℕ :=
  (s.runQueues.zipIdx.foldl (fun acc q => leastLoadedStep acc q.2 q.1.len)
    leastLoadedInit).2

/-- The busiest core, `excludeCore` apart. -/
def busiestCore (s : Scheduler τ) (excludeCore : ℕ) : Option ℕ :=
  (s.runQueues.zipIdx.foldl (fun acc q => busiestStep excludeCore acc q.2 q.1.len)
    busiestInit).2

/-- Push the remaining stolen tasks to the own queue. -/
def repush (s : Scheduler τ) (core : ℕ) : List τ → Option (Scheduler τ)
  | [] => some s
  | task :: rest => (s.pushTo core task).bind fun s => s.repush core rest

/-- Pick the next task to run on `core`, stealing if its queue is empty. -/
def schedule (s : Scheduler τ) (core : ℕ) : Option (Option τ × Scheduler τ) :=
  (s.popFrom core).bind fun
    | (some task, s) => some (some task, s)
    | (none, s) =>
        match s.busiestCore core with
        | none => some (none, s)
        | some victim =>
            (s.stealFrom victim).bind fun
              | ([], s) => some (none, s)
              | (first :: rest, s) => (s.repush core rest).map fun s => (some first, s)

/-- Park the current task and switch to the next. -/
def blockCurrent (s : Scheduler τ) (core : ℕ) : Option (Option τ × Scheduler τ) :=
  s.schedule core

variable [TaskLike τ]

/-- Spawn a task on the core it is pinned to, else on the least loaded one. -/
def spawn (s : Scheduler τ) (task : τ) : Option (Scheduler τ) :=
  match TaskLike.affinity task with
  | some affinity => s.pushTo affinity task
  | none => s.pushTo s.leastLoadedCore task

/-- Spawn a task on a specific core, ignoring affinity. -/
def spawnOnCore (s : Scheduler τ) (core : ℕ) (task : τ) : Option (Scheduler τ) :=
  if core < s.numCores then s.pushTo core task else none

/-- Wake a blocked task, placing it on the specified core's queue. -/
def wake (s : Scheduler τ) (task : τ) (targetCore : ℕ) : Option (Scheduler τ) :=
  s.pushTo targetCore (TaskLike.setState task .ready)

/-- Save the currently running task back to a queue. -/
def preemptCurrent (s : Scheduler τ) (core : ℕ) (task : τ) : Option (Scheduler τ) :=
  s.pushTo core (TaskLike.setState task .ready)

end Scheduler

end SmpNostd
