import Mathlib.Data.Fintype.Basic
import SmpNostd.Lib.Accounting
import SmpNostd.Lib.Machine
import SmpNostd.Scheduler.Scheduler

/-!
The scheduler under any interleaving of its calls.

A critical section of a run queue is one step, and so is every unlocked read
of a length; a call of `schedule` is therefore many steps, and between them the
other threads pop, push and steal. The lengths it has read may be out of date
by the time it uses them, and the tasks it has stolen are nowhere but in its
own hands until they are pushed again.

A thread is anything that can be in the middle of a call: a core, or one of
the nested interrupt handlers on it. A submission is a task handed over to the
scheduler; the same task may come back and be submitted again, so submissions
carry a serial number, which no step looks at.
-/

namespace SmpNostd.Interleaving

open Machine

/-- A task, as submitted the `seq`-th time that any task was. -/
structure Submission where
  seq : ℕ
  task : Task
  deriving DecidableEq, Repr

instance : TaskLike Submission where
  affinity x := x.task.affinity
  setState x st := { x with task := x.task.setState st }

/-- Where a thread is in a call. -/
inductive Call (τ : Type)
  | idle
  /-- `spawn` in the loop of `least_loaded_core`, about to read length `i`. -/
  | leastLoaded (task : τ) (i : ℕ) (acc : ℕ × ℕ)
  | pushing (core : ℕ) (task : τ)
  | popping (core : ℕ)
  /-- `schedule` in the loop of `busiest_core`, about to read length `i`. -/
  | busiest (core i : ℕ) (acc : ℕ × Option ℕ)
  | stealing (core victim : ℕ)
  /-- The stolen tasks that are not the one to return go to the own queue. -/
  | repushing (core : ℕ) (first : τ) (rest : List τ)
  | returning (core : ℕ) (result : Option τ)
  deriving DecidableEq, Repr

/-- The calls of the scheduler's interface. -/
inductive Op
  | spawn (task : Task)
  | spawnOnCore (core : ℕ) (task : Task)
  | wake (task : Task) (targetCore : ℕ)
  | preemptCurrent (core : ℕ) (task : Task)
  | schedule (core : ℕ)
  | blockCurrent (core : ℕ)
  deriving DecidableEq, Repr

/-- The scheduler, the calls in progress, and a record of what was submitted
and of what `schedule` returned, with the core it was called for. -/
structure State (T : Type) where
  sched : Scheduler Submission
  calls : T → Call Submission
  submitted : List Submission
  handedOut : List (ℕ × Submission)

/-- A new scheduler nobody has called yet. -/
def new (T : Type) (numCores : ℕ) : State T where
  sched := Scheduler.new numCores
  calls _ := .idle
  submitted := []
  handedOut := []

inductive Label (T : Type)
  | start (t : T) (op : Op)
  | step (t : T)
  deriving DecidableEq, Repr

variable {T : Type} [DecidableEq T]

def State.setCall (s : State T) (t : T) (c : Call Submission) : State T :=
  { s with calls := Function.update s.calls t c }

/-- Thread `t` hands `task` over and goes on as `next` says. -/
def State.submit (s : State T) (t : T) (task : Task) (next : Submission → Call Submission) :
    State T :=
  let x : Submission := ⟨s.submitted.length, task⟩
  { s with submitted := s.submitted ++ [x] }.setCall t (next x)

/-- The beginning of a call, up to its first access to a queue. -/
def start (s : State T) (t : T) : Op → Option (State T)
  | .spawn task =>
      some (s.submit t task fun x =>
        match TaskLike.affinity x with
        | some affinity => .pushing affinity x
        | none => .leastLoaded x 0 Scheduler.leastLoadedInit)
  | .spawnOnCore core task =>
      if core < s.sched.numCores then some (s.submit t task (.pushing core)) else none
  | .wake task targetCore => some (s.submit t (task.setState .ready) (.pushing targetCore))
  | .preemptCurrent core task => some (s.submit t (task.setState .ready) (.pushing core))
  | .schedule core | .blockCurrent core =>
      if core < s.sched.runQueues.length then some (s.setCall t (.popping core)) else none

/-- The next step of a call in progress. -/
def advance (s : State T) (t : T) : Call Submission → Option (State T)
  | .idle => none
  | .leastLoaded task i acc =>
      match s.sched.runQueues[i]? with
      | some rq =>
          some (s.setCall t (.leastLoaded task (i + 1) (Scheduler.leastLoadedStep acc i rq.len)))
      | none => some (s.setCall t (.pushing acc.2 task))
  | .pushing core task =>
      (s.sched.pushTo core task).map fun sched => { s with sched := sched }.setCall t .idle
  | .popping core =>
      (s.sched.popFrom core).map fun (result, sched) =>
        { s with sched := sched }.setCall t <|
          match result with
          | some task => .returning core (some task)
          | none => .busiest core 0 Scheduler.busiestInit
  | .busiest core i acc =>
      match s.sched.runQueues[i]? with
      | some rq =>
          some (s.setCall t (.busiest core (i + 1) (Scheduler.busiestStep core acc i rq.len)))
      | none =>
          some (s.setCall t <|
            match acc.2 with
            | some victim => .stealing core victim
            | none => .returning core none)
  | .stealing core victim =>
      (s.sched.stealFrom victim).map fun (stolen, sched) =>
        { s with sched := sched }.setCall t <|
          match stolen with
          | [] => .returning core none
          | first :: rest => .repushing core first rest
  | .repushing core first [] => some (s.setCall t (.returning core (some first)))
  | .repushing core first (task :: rest) =>
      (s.sched.pushTo core task).map fun sched =>
        { s with sched := sched }.setCall t (.repushing core first rest)
  | .returning core result =>
      some ({ s with handedOut := s.handedOut ++ result.toList.map (core, ·) }.setCall t .idle)

def step (s : State T) : Label T → Option (State T)
  | .start t op => if s.calls t = .idle then start s t op else none
  | .step t => advance s t (s.calls t)

/-- What a step of a call in progress can do: the queues and the call before
it, and the queues, the call and what is handed out after it. -/
inductive Advances : Scheduler Submission → Call Submission → Scheduler Submission →
    Call Submission → List (ℕ × Submission) → Prop
  | readLeast {sched x i acc rq} (h : sched.runQueues[i]? = some rq) :
      Advances sched (.leastLoaded x i acc) sched
        (.leastLoaded x (i + 1) (Scheduler.leastLoadedStep acc i rq.len)) []
  | leastFound {sched x i acc} (h : sched.runQueues[i]? = none) :
      Advances sched (.leastLoaded x i acc) sched (.pushing acc.2 x) []
  | push {sched sched' core x} (h : sched.pushTo core x = some sched') :
      Advances sched (.pushing core x) sched' .idle []
  | pop {sched sched' core x} (h : sched.popFrom core = some (some x, sched')) :
      Advances sched (.popping core) sched' (.returning core (some x)) []
  | popNone {sched sched' core} (h : sched.popFrom core = some (none, sched')) :
      Advances sched (.popping core) sched' (.busiest core 0 Scheduler.busiestInit) []
  | readBusiest {sched core i acc rq} (h : sched.runQueues[i]? = some rq) :
      Advances sched (.busiest core i acc) sched
        (.busiest core (i + 1) (Scheduler.busiestStep core acc i rq.len)) []
  | busiestFound {sched core i load victim} (h : sched.runQueues[i]? = none) :
      Advances sched (.busiest core i (load, some victim)) sched (.stealing core victim) []
  | busiestNone {sched core i load} (h : sched.runQueues[i]? = none) :
      Advances sched (.busiest core i (load, none)) sched (.returning core none) []
  | steal {sched sched' core victim first rest}
      (h : sched.stealFrom victim = some (first :: rest, sched')) :
      Advances sched (.stealing core victim) sched' (.repushing core first rest) []
  | stealNone {sched sched' core victim} (h : sched.stealFrom victim = some ([], sched')) :
      Advances sched (.stealing core victim) sched' (.returning core none) []
  | repush {sched sched' core first x rest} (h : sched.pushTo core x = some sched') :
      Advances sched (.repushing core first (x :: rest)) sched' (.repushing core first rest) []
  | repushed {sched core first} :
      Advances sched (.repushing core first []) sched (.returning core (some first)) []
  | handOut {sched core result} :
      Advances sched (.returning core result) sched .idle (result.toList.map (core, ·))

/-- The state after a step of thread `t`. -/
def State.after (s : State T) (t : T) (sched : Scheduler Submission) (c : Call Submission)
    (out : List (ℕ × Submission)) : State T :=
  { s with sched := sched, handedOut := s.handedOut ++ out }.setCall t c

theorem setCall_eq_after (s : State T) (t : T) (sched : Scheduler Submission)
    (c : Call Submission) : { s with sched := sched }.setCall t c = s.after t sched c [] := by
  simp [State.after]

theorem advance_cases {s s' : State T} {t : T} (h : advance s t (s.calls t) = some s') :
    ∃ sched c out, Advances s.sched (s.calls t) sched c out ∧ s' = s.after t sched c out := by
  cases hcall : s.calls t with
  | idle => simp [hcall, advance] at h
  | leastLoaded x i acc =>
      simp only [hcall, advance] at h
      split at h <;> obtain rfl := Option.some.inj h <;> rename_i hrq
      · exact ⟨_, _, _, .readLeast hrq, setCall_eq_after s t s.sched _⟩
      · exact ⟨_, _, _, .leastFound hrq, setCall_eq_after s t s.sched _⟩
  | pushing core x =>
      simp only [hcall, advance, Option.map_eq_some_iff] at h
      obtain ⟨sched, hpush, rfl⟩ := h
      exact ⟨_, _, _, .push hpush, setCall_eq_after ..⟩
  | popping core =>
      simp only [hcall, advance, Option.map_eq_some_iff] at h
      obtain ⟨⟨result, sched⟩, hpop, rfl⟩ := h
      cases result with
      | some x => exact ⟨_, _, _, .pop hpop, setCall_eq_after ..⟩
      | none => exact ⟨_, _, _, .popNone hpop, setCall_eq_after ..⟩
  | busiest core i acc =>
      simp only [hcall, advance] at h
      split at h <;> obtain rfl := Option.some.inj h <;> rename_i hrq
      · exact ⟨_, _, _, .readBusiest hrq, setCall_eq_after s t s.sched _⟩
      · obtain ⟨load, victim⟩ := acc
        cases victim with
        | some victim => exact ⟨_, _, _, .busiestFound hrq, setCall_eq_after s t s.sched _⟩
        | none => exact ⟨_, _, _, .busiestNone hrq, setCall_eq_after s t s.sched _⟩
  | stealing core victim =>
      simp only [hcall, advance, Option.map_eq_some_iff] at h
      obtain ⟨⟨stolen, sched⟩, hsteal, rfl⟩ := h
      cases stolen with
      | nil => exact ⟨_, _, _, .stealNone hsteal, setCall_eq_after ..⟩
      | cons first rest => exact ⟨_, _, _, .steal hsteal, setCall_eq_after ..⟩
  | repushing core first rest =>
      cases rest with
      | nil =>
          simp only [hcall, advance] at h
          obtain rfl := Option.some.inj h
          exact ⟨_, _, _, .repushed, setCall_eq_after s t s.sched _⟩
      | cons x rest =>
          simp only [hcall, advance, Option.map_eq_some_iff] at h
          obtain ⟨sched, hpush, rfl⟩ := h
          exact ⟨_, _, _, .repush hpush, setCall_eq_after ..⟩
  | returning core result =>
      simp only [hcall, advance] at h
      obtain rfl := Option.some.inj h
      exact ⟨_, _, _, .handOut, rfl⟩

/-! ### Where the tasks are -/

/-- The tasks a call in progress has in its hands. -/
def Call.held {τ : Type} : Call τ → Multiset τ
  | .leastLoaded task _ _ | .pushing _ task => {task}
  | .repushing _ first rest => ↑(first :: rest)
  | .returning _ result => ↑result.toList
  | .idle | .popping _ | .busiest _ _ _ | .stealing _ _ => 0

/-- The tasks in all run queues. -/
def queued {τ : Type} (sched : Scheduler τ) : Multiset τ :=
  (sched.runQueues.map fun rq => (rq.queue : Multiset τ)).sum

/-- The tasks in the hands of all calls in progress. -/
def inTransit [Fintype T] (s : State T) : Multiset Submission :=
  ∑ t, (s.calls t).held

/-- The tasks `schedule` and `block_current` have returned. -/
def returned (s : State T) : Multiset Submission := ↑(s.handedOut.map Prod.snd)

/-! ### What one critical section does to the tasks in the queues -/

section Queues

variable {τ : Type} {sched sched' : Scheduler τ} {core : ℕ}

theorem coe_push (rq : RunQueue τ) (task : τ) :
    ((rq.push task).queue : Multiset τ) = {task} + rq.queue := by
  rw [add_comm]
  simp [RunQueue.push, ← Multiset.coe_add]

theorem coe_pop (rq : RunQueue τ) :
    (rq.pop.2.queue : Multiset τ) + rq.pop.1.toList = rq.queue := by
  obtain ⟨coreId, queue, len⟩ := rq
  cases queue with
  | nil => rfl
  | cons task queue =>
      show (queue : Multiset τ) + ([task] : List τ) = ↑(task :: queue)
      rw [add_comm, Multiset.coe_add, List.singleton_append]

theorem coe_stealHalf (rq : RunQueue τ) :
    (rq.stealHalf.2.queue : Multiset τ) + rq.stealHalf.1 = rq.queue := by
  rw [RunQueue.stealHalf_fst, RunQueue.stealHalf_snd_queue, Multiset.coe_reverse,
    Multiset.coe_add, List.take_append_drop]

theorem queued_pushTo {task : τ} (h : sched.pushTo core task = some sched') :
    queued sched' = queued sched + {task} := by
  simp only [Scheduler.pushTo, Option.map_eq_some_iff] at h
  obtain ⟨rq, hrq, rfl⟩ := h
  have hsum := Accounting.sum_map_set (fun rq => (rq.queue : Multiset τ)) hrq (rq.push task)
  rw [coe_push, ← add_assoc] at hsum
  exact add_right_cancel hsum

/-- A critical section that takes some tasks out of one queue. -/
theorem queued_set {rq rq' : RunQueue τ} {taken : Multiset τ}
    (hrq : sched.runQueues[core]? = some rq)
    (htaken : (rq'.queue : Multiset τ) + taken = rq.queue) :
    queued { sched with runQueues := sched.runQueues.set core rq' } + taken = queued sched := by
  have hsum := Accounting.sum_map_set (fun rq => (rq.queue : Multiset τ)) hrq rq'
  rw [← htaken, add_comm (rq'.queue : Multiset τ) taken, ← add_assoc] at hsum
  exact add_right_cancel hsum

theorem queued_popFrom {result : Option τ}
    (h : sched.popFrom core = some (result, sched')) :
    queued sched' + result.toList = queued sched := by
  simp only [Scheduler.popFrom, Option.map_eq_some_iff, Prod.mk.injEq] at h
  obtain ⟨rq, hrq, rfl, rfl⟩ := h
  exact queued_set hrq (coe_pop rq)

theorem queued_stealFrom {stolen : List τ}
    (h : sched.stealFrom core = some (stolen, sched')) :
    queued sched' + stolen = queued sched := by
  simp only [Scheduler.stealFrom, Option.map_eq_some_iff, Prod.mk.injEq] at h
  obtain ⟨rq, hrq, rfl, rfl⟩ := h
  exact queued_set hrq (coe_stealHalf rq)

end Queues

/-! ### What one step does -/

/-- Thread `t` moves tasks between its own hands, the queues and its caller,
and may get a new one. Nobody else's hands are touched, and what it has moved
out of one place is in another. -/
structure Moved (s s' : State T) (t : T) : Prop where
  others : s'.calls = Function.update s.calls t (s'.calls t)
  submitted : s'.submitted = s.submitted ∨
    ∃ task, s'.submitted = s.submitted ++ [⟨s.submitted.length, task⟩]
  balance : (s'.submitted : Multiset Submission) +
      (returned s + queued s.sched + (s.calls t).held) =
    s.submitted + (returned s' + queued s'.sched + (s'.calls t).held)

/-- What is handed out, held and queued after a step was held or queued
before it. -/
theorem Advances.balance {sched sched' : Scheduler Submission} {c c' : Call Submission}
    {out : List (ℕ × Submission)} (h : Advances sched c sched' c' out) :
    ↑(out.map Prod.snd) + queued sched' + c'.held = queued sched + c.held := by
  cases h with
  | readLeast | leastFound | readBusiest | busiestFound | busiestNone | repushed =>
      exact congrArg (· + _) (zero_add _)
  | push hpush =>
      rw [queued_pushTo hpush]
      exact (add_zero _).trans (zero_add _)
  | pop hpop =>
      rw [← queued_popFrom hpop]
      exact (congrArg (· + _) (zero_add _)).trans (add_zero _).symm
  | popNone hpop =>
      rw [← queued_popFrom hpop]
      exact congrArg (· + _) ((zero_add _).trans (add_zero _).symm)
  | steal hsteal =>
      rw [← queued_stealFrom hsteal]
      exact (congrArg (· + _) (zero_add _)).trans (add_zero _).symm
  | stealNone hsteal =>
      rw [← queued_stealFrom hsteal]
      exact congrArg (· + _) ((zero_add _).trans (add_zero _).symm)
  | repush hpush =>
      rename_i core first x rest
      rw [queued_pushTo hpush, add_assoc, add_assoc]
      refine (zero_add _).trans (congrArg _ ?_)
      exact Multiset.cons_swap x first rest
  | handOut =>
      simp [Call.held, add_comm]

/-- The first step of a call that brings a task. -/
theorem Moved.submit {s : State T} {t : T} (hidle : s.calls t = .idle) (task : Task)
    {next : Submission → Call Submission} (hnext : ∀ x, (next x).held = {x}) :
    Moved s (s.submit t task next) t where
  others := by simp [State.submit, State.setCall]
  submitted := .inr ⟨task, rfl⟩
  balance := by
    simp only [State.submit, State.setCall, Function.update_self, hidle, hnext]
    simp only [← Multiset.coe_add, Multiset.coe_singleton, add_assoc]
    congr 1
    show _ + (returned s + (queued s.sched + 0)) = returned s + (queued s.sched + _)
    rw [add_zero, add_comm, add_assoc]

/-- The first step of a call that brings none. -/
theorem Moved.popping {s : State T} {t : T} (hidle : s.calls t = .idle) (core : ℕ) :
    Moved s (s.setCall t (.popping core)) t where
  others := by simp [State.setCall]
  submitted := .inl rfl
  balance := by
    simp only [State.setCall, Function.update_self, hidle]
    rfl

theorem start_moved {s s' : State T} {t : T} {op : Op} (hidle : s.calls t = .idle)
    (h : start s t op = some s') : Moved s s' t := by
  cases op with
  | spawn task =>
      obtain rfl := Option.some.inj h
      apply Moved.submit hidle
      intro x
      split <;> rfl
  | spawnOnCore core task =>
      simp only [start, Option.ite_none_right_eq_some, Option.some.injEq] at h
      obtain ⟨-, rfl⟩ := h
      exact Moved.submit hidle task fun _ => rfl
  | wake task targetCore =>
      obtain rfl := Option.some.inj h
      exact Moved.submit hidle _ fun _ => rfl
  | preemptCurrent core task =>
      obtain rfl := Option.some.inj h
      exact Moved.submit hidle _ fun _ => rfl
  | schedule core =>
      simp only [start, Option.ite_none_right_eq_some, Option.some.injEq] at h
      obtain ⟨-, rfl⟩ := h
      exact Moved.popping hidle core
  | blockCurrent core =>
      simp only [start, Option.ite_none_right_eq_some, Option.some.injEq] at h
      obtain ⟨-, rfl⟩ := h
      exact Moved.popping hidle core

theorem advance_moved {s s' : State T} {t : T} (h : advance s t (s.calls t) = some s') :
    Moved s s' t := by
  obtain ⟨sched, c, out, hadv, rfl⟩ := advance_cases h
  refine ⟨by simp [State.after, State.setCall], .inl rfl, ?_⟩
  have hreturned : returned (s.after t sched c out) = returned s + ↑(out.map Prod.snd) := by
    simp [returned, State.after, State.setCall]
  rw [hreturned, add_assoc, add_assoc, add_assoc]
  congr 2
  rw [← add_assoc, ← hadv.balance]
  simp [State.after, State.setCall]

/-- The thread a label is about. -/
def Label.thread : Label T → T
  | .start t _ => t
  | .step t => t

theorem step_moved {s s' : State T} {l : Label T} (h : step s l = some s') :
    Moved s s' l.thread := by
  cases l with
  | start t op =>
      simp only [step, Option.ite_none_right_eq_some] at h
      exact start_moved h.1 h.2
  | step t => exact advance_moved h

/-- The other threads stay where they are in their calls. -/
theorem step_calls_of_ne {s s' : State T} {l : Label T} (h : step s l = some s') {t : T}
    (ht : t ≠ l.thread) : s'.calls t = s.calls t := by
  rw [(step_moved h).others, Function.update_of_ne ht]

/-- A critical section leaves the number of queues. -/
theorem Advances.length {sched sched' : Scheduler Submission} {c c' : Call Submission}
    {out : List (ℕ × Submission)} (h : Advances sched c sched' c' out) :
    sched'.runQueues.length = sched.runQueues.length ∧ sched'.numCores = sched.numCores := by
  cases h with
  | push h | repush h =>
      simp only [Scheduler.pushTo, Option.map_eq_some_iff] at h
      obtain ⟨rq, -, rfl⟩ := h
      exact ⟨List.length_set, rfl⟩
  | pop h | popNone h =>
      simp only [Scheduler.popFrom, Option.map_eq_some_iff, Prod.mk.injEq] at h
      obtain ⟨rq, -, -, rfl⟩ := h
      exact ⟨List.length_set, rfl⟩
  | steal h | stealNone h =>
      simp only [Scheduler.stealFrom, Option.map_eq_some_iff, Prod.mk.injEq] at h
      obtain ⟨rq, -, -, rfl⟩ := h
      exact ⟨List.length_set, rfl⟩
  | readLeast | leastFound | readBusiest | busiestFound | busiestNone | repushed | handOut =>
      exact ⟨rfl, rfl⟩

theorem step_length {s s' : State T} {l : Label T} (h : step s l = some s') :
    s'.sched.runQueues.length = s.sched.runQueues.length := by
  cases l with
  | start t op =>
      obtain ⟨-, h⟩ := Option.ite_none_right_eq_some.mp h
      cases op with
      | spawn | wake | preemptCurrent =>
          obtain rfl := Option.some.inj h
          rfl
      | spawnOnCore | schedule | blockCurrent =>
          obtain ⟨-, heq⟩ := Option.ite_none_right_eq_some.mp h
          obtain rfl := Option.some.inj heq
          rfl
  | step t =>
      obtain ⟨sched, call, out, hadv, rfl⟩ := advance_cases h
      exact hadv.length.1

/-- There is a queue for every core at any time. -/
theorem length_of_reachable {numCores : ℕ} {s : State T}
    (h : Reachable step (new T numCores) s) : s.sched.runQueues.length = numCores :=
  reachable_invariant (I := fun m : State T => m.sched.runQueues.length = numCores)
    (fun _ _ _ hm hstep => (step_length hstep).trans hm) (by simp [new, Scheduler.new]) h

/-! ### No task is lost or duplicated -/

/-- Every submission is in exactly one place. -/
structure Accounted [Fintype T] (s : State T) : Prop where
  serial : s.submitted.map Submission.seq = List.range s.submitted.length
  total : (s.submitted : Multiset Submission) = returned s + queued s.sched + inTransit s

omit [DecidableEq T] in
theorem new_accounted [Fintype T] (numCores : ℕ) : Accounted (new T numCores) where
  serial := rfl
  total := by
    have hqueued : queued (Scheduler.new numCores : Scheduler Submission) = 0 := by
      apply List.sum_eq_zero
      simp [Scheduler.new, RunQueue.new]
    simp [new, returned, inTransit, Call.held, hqueued]

theorem Moved.inTransit_add [Fintype T] {s s' : State T} {t : T} (h : Moved s s' t) :
    inTransit s' + (s.calls t).held = inTransit s + (s'.calls t).held := by
  have hsum := Accounting.sum_update Call.held s.calls t (s'.calls t)
  rw [← h.others] at hsum
  exact hsum

theorem Moved.accounted [Fintype T] {s s' : State T} {t : T} (h : Moved s s' t)
    (hs : Accounted s) : Accounted s' where
  serial := by
    obtain hsub | ⟨task, hsub⟩ := h.submitted
    · rw [hsub, hs.serial]
    · rw [hsub, List.map_append, hs.serial, List.length_append]
      exact List.range_succ.symm
  total := by
    -- Both sides with everything that was somewhere before added to them.
    apply add_right_cancel (b := (s.submitted : Multiset Submission) + (s.calls t).held)
    calc (s'.submitted : Multiset Submission) + (s.submitted + (s.calls t).held)
        = s'.submitted + (returned s + queued s.sched + (s.calls t).held) + inTransit s := by
          rw [hs.total]
          abel
      _ = s.submitted + (returned s' + queued s'.sched) + (inTransit s + (s'.calls t).held) := by
          rw [h.balance]
          abel
      _ = returned s' + queued s'.sched + inTransit s' + (s.submitted + (s.calls t).held) := by
          rw [← h.inTransit_add]
          abel

theorem accounted_of_run [Fintype T] {numCores : ℕ} {as : List (Label T)} {s : State T}
    (hrun : run step (new T numCores) as = some s) : Accounted s :=
  run_invariant (fun _ _ _ hs hstep => (step_moved hstep).accounted hs)
    (new_accounted numCores) hrun

omit [DecidableEq T] in
theorem Accounted.nodup [Fintype T] {s : State T} (h : Accounted s) : s.submitted.Nodup := by
  apply List.Nodup.of_map Submission.seq
  rw [h.serial]
  exact List.nodup_range

/-- How often a submission is found in all run queues together. -/
def timesQueued (sched : Scheduler Submission) (x : Submission) : ℕ :=
  (sched.runQueues.map fun rq => rq.queue.count x).sum

theorem count_queued (sched : Scheduler Submission) (x : Submission) :
    (queued sched).count x = timesQueued sched x := by
  have hsum := map_list_sum (Multiset.countAddMonoidHom x)
    (sched.runQueues.map fun rq => (rq.queue : Multiset Submission))
  simpa [queued, timesQueued, Function.comp_def] using hsum

omit [DecidableEq T] in
theorem inTransit_of_idle [Fintype T] {s : State T} (h : ∀ t, s.calls t = .idle) :
    inTransit s = 0 := by
  simp [inTransit, h, Call.held]

/-- No task is lost or duplicated. After every run, what was submitted and not
handed out is in the queues and in the hands of the calls in progress, every
submission counted once; none was handed out twice; and when no call is in
progress, a submission is either once in one queue or was returned once. -/
theorem no_task_lost_or_duplicated [Fintype T] {numCores : ℕ} {as : List (Label T)}
    {s : State T} (hrun : run step (new T numCores) as = some s) :
    (s.submitted : Multiset Submission).Nodup ∧
    returned s ≤ s.submitted ∧
    (s.submitted : Multiset Submission) - returned s = queued s.sched + inTransit s ∧
    (queued s.sched + inTransit s).Nodup ∧
    (s.handedOut.map Prod.snd).Nodup ∧
    Disjoint (returned s) (queued s.sched + inTransit s) ∧
    ((∀ t, s.calls t = .idle) → ∀ x ∈ s.submitted,
      timesQueued s.sched x = 1 ∧ (s.handedOut.map Prod.snd).count x = 0 ∨
      timesQueued s.sched x = 0 ∧ (s.handedOut.map Prod.snd).count x = 1) := by
  have hacc := accounted_of_run hrun
  have hnodup : (s.submitted : Multiset Submission).Nodup := hacc.nodup
  have htotal := hacc.total
  rw [add_assoc] at htotal
  have hparts := htotal ▸ hnodup
  rw [Multiset.nodup_add] at hparts
  refine ⟨hnodup, ?_, ?_, hparts.2.1, hparts.1, hparts.2.2, fun hidle x hx => ?_⟩
  · rw [htotal]
    exact Multiset.le_add_right _ _
  · rw [htotal, add_tsub_cancel_left]
  · have hone : (s.submitted : Multiset Submission).count x = 1 :=
      Multiset.count_eq_one_of_mem hnodup hx
    rw [htotal, inTransit_of_idle hidle, add_zero, Multiset.count_add, count_queued] at hone
    have hret : (returned s).count x = (s.handedOut.map Prod.snd).count x :=
      Multiset.coe_count x _
    omega

/-- The labels of a call that brings a pinned task: it is submitted and
pushed. -/
def spawnPinned (t : T) (id core : ℕ) : List (Label T) :=
  [.start t (.spawn ((Task.new id 0 "task" 0 0 0).withAffinity core)), .step t]

theorem no_task_lost_or_duplicated_during_steal :
    let as : List (Label (Fin 2)) :=
      spawnPinned 0 1 0 ++ spawnPinned 0 2 0 ++ spawnPinned 0 3 0 ++ spawnPinned 0 4 0 ++
        [.start 1 (.schedule 1), .step 1, .step 1, .step 1, .step 1, .step 1,
          .start 0 (.schedule 0), .step 0, .step 0]
    ∃ s, run step (new (Fin 2) 2) as = some s ∧
      s.submitted.length = 4 ∧ (queued s.sched).card = 1 ∧ (inTransit s).card = 2 ∧
      (s.submitted : Multiset Submission) - returned s = queued s.sched + inTransit s := by
  intro as
  obtain ⟨s, hrun, hcards⟩ : ∃ s, run step (new (Fin 2) 2) as = some s ∧
      s.submitted.length = 4 ∧ (queued s.sched).card = 1 ∧ (inTransit s).card = 2 :=
    ⟨_, rfl, by decide⟩
  exact ⟨s, hrun, hcards.1, hcards.2.1, hcards.2.2, (no_task_lost_or_duplicated hrun).2.2.1⟩

end SmpNostd.Interleaving
