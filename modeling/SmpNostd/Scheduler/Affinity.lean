import SmpNostd.Scheduler.Interleaving

/-!
Pinned tasks under work stealing.

`spawn` puts a pinned task on the queue of its core, and popping keeps it
there. `steal_half` does not look at what it takes: a thief that gets a task
pinned to another core either returns it or puts it on its own queue. What is
proved is that this is the only way a pinned task gets away from its core.
-/

namespace SmpNostd.Interleaving

open Machine

variable {T : Type} [DecidableEq T]

/-- The task may run on the core. -/
def FitsOn (core : ℕ) (x : Submission) : Prop :=
  ∀ a ∈ x.task.affinity, a = core

instance (core : ℕ) (x : Submission) : Decidable (FitsOn core x) :=
  inferInstanceAs (Decidable (∀ a ∈ x.task.affinity, a = core))

/-- A call holds only tasks that may run on the core it will put them on or
return them to. A task whose core is still being looked for is not pinned. -/
def Call.Fits : Call Submission → Prop
  | .leastLoaded x _ _ => x.task.affinity = none
  | .pushing core x => FitsOn core x
  | .repushing core first rest => ∀ x ∈ first :: rest, FitsOn core x
  | .returning core result => ∀ x ∈ result, FitsOn core x
  | .idle | .popping _ | .busiest _ _ _ | .stealing _ _ => True

/-- Every task in a queue may run on the core the queue belongs to. -/
def QueuesFit (sched : Scheduler Submission) : Prop :=
  ∀ core rq, sched.runQueues[core]? = some rq → ∀ x ∈ rq.queue, FitsOn core x

/-- Pinned tasks are where they belong, and always were when they were handed
out. -/
structure Pinned (s : State T) : Prop where
  queues : QueuesFit s.sched
  calls : ∀ t, (s.calls t).Fits
  handedOut : ∀ p ∈ s.handedOut, FitsOn p.1 p.2

/-- A call of `spawn` or of `schedule`, with a core that exists. -/
def Label.SpawnsOrSchedules (numCores : ℕ) : Label T → Prop
  | .start _ (.spawn task) => ∀ a ∈ task.affinity, a < numCores
  | .start _ (.schedule core) => core < numCores
  | .start _ _ => False
  | .step _ => True

instance (numCores : ℕ) : ∀ l : Label T, Decidable (l.SpawnsOrSchedules numCores)
  | .start _ (.spawn task) => inferInstanceAs (Decidable (∀ a ∈ task.affinity, a < numCores))
  | .start _ (.schedule core) => inferInstanceAs (Decidable (core < numCores))
  | .start _ (.spawnOnCore _ _) | .start _ (.wake _ _) | .start _ (.preemptCurrent _ _)
  | .start _ (.blockCurrent _) => isFalse id
  | .step _ => isTrue trivial

/-- A steal does not take a task that is pinned to another core than the
thief's: none of the last `⌊n/2⌋` tasks of the victim's queue is. -/
def Call.StealFits (sched : Scheduler Submission) : Call Submission → Prop
  | .stealing core victim =>
      ∀ rq ∈ sched.runQueues[victim]?,
        ∀ x ∈ rq.queue.drop (rq.queue.length - rq.queue.length / 2), FitsOn core x
  | .idle | .leastLoaded _ _ _ | .pushing _ _ | .popping _ | .busiest _ _ _
  | .repushing _ _ _ | .returning _ _ => True

instance (sched : Scheduler Submission) : ∀ c : Call Submission, Decidable (c.StealFits sched)
  | .stealing core victim =>
      inferInstanceAs (Decidable (∀ rq ∈ sched.runQueues[victim]?,
        ∀ x ∈ rq.queue.drop (rq.queue.length - rq.queue.length / 2), FitsOn core x))
  | .idle | .leastLoaded _ _ _ | .pushing _ _ | .popping _ | .busiest _ _ _
  | .repushing _ _ _ | .returning _ _ => isTrue trivial

/-- If the step is a steal, it takes only tasks that may run on the thief's
core. -/
def StealFits (s : State T) (l : Label T) : Prop :=
  (s.calls l.thread).StealFits s.sched

instance (s : State T) (l : Label T) : Decidable (StealFits s l) :=
  inferInstanceAs (Decidable ((s.calls l.thread).StealFits s.sched))

/-! ### One critical section -/

section Queues

variable {sched sched' : Scheduler Submission} {core : ℕ}

/-- A queue is replaced by one whose tasks may run on its core. -/
theorem QueuesFit.set (h : QueuesFit sched) {rq : RunQueue Submission}
    (hrq : ∀ x ∈ rq.queue, FitsOn core x) :
    QueuesFit { sched with runQueues := sched.runQueues.set core rq } := by
  intro i rq' hi
  rw [List.getElem?_set] at hi
  split at hi
  · rename_i heq
    subst heq
    obtain ⟨-, hsome⟩ := Option.ite_none_right_eq_some.mp hi
    exact Option.some.inj hsome ▸ hrq
  · exact h i rq' hi

theorem QueuesFit.pushTo (h : QueuesFit sched) {x : Submission} (hx : FitsOn core x)
    (hpush : sched.pushTo core x = some sched') : QueuesFit sched' := by
  simp only [Scheduler.pushTo, Option.map_eq_some_iff] at hpush
  obtain ⟨rq, hrq, rfl⟩ := hpush
  apply h.set
  intro y hy
  simp only [RunQueue.push, List.mem_append, List.mem_singleton] at hy
  obtain hy | rfl := hy
  · exact h core rq hrq y hy
  · exact hx

theorem QueuesFit.popFrom (h : QueuesFit sched) {result : Option Submission}
    (hpop : sched.popFrom core = some (result, sched')) :
    QueuesFit sched' ∧ ∀ x ∈ result, FitsOn core x := by
  simp only [Scheduler.popFrom, Option.map_eq_some_iff, Prod.mk.injEq] at hpop
  obtain ⟨rq, hrq, rfl, rfl⟩ := hpop
  have hmem : ∀ x, x ∈ rq.pop.2.queue ∨ x ∈ rq.pop.1 → x ∈ rq.queue := by
    intro x hx
    rw [← Multiset.mem_coe, ← coe_pop rq, Multiset.mem_add, Multiset.mem_coe, Multiset.mem_coe,
      Option.mem_toList]
    exact hx
  exact ⟨h.set fun x hx => h core rq hrq x (hmem x (.inl hx)),
    fun x hx => h core rq hrq x (hmem x (.inr hx))⟩

theorem QueuesFit.stealFrom (h : QueuesFit sched) {thief : ℕ} {stolen : List Submission}
    (hfits : (Call.stealing thief core).StealFits sched)
    (hsteal : sched.stealFrom core = some (stolen, sched')) :
    QueuesFit sched' ∧ ∀ x ∈ stolen, FitsOn thief x := by
  simp only [Scheduler.stealFrom, Option.map_eq_some_iff, Prod.mk.injEq] at hsteal
  obtain ⟨rq, hrq, rfl, rfl⟩ := hsteal
  constructor
  · apply h.set
    intro x hx
    rw [RunQueue.stealHalf_snd_queue] at hx
    exact h core rq hrq x (List.mem_of_mem_take hx)
  · intro x hx
    rw [RunQueue.stealHalf_fst, List.mem_reverse] at hx
    exact hfits rq hrq x hx

end Queues

/-! ### One step -/

omit [DecidableEq T] in
theorem new_pinned (numCores : ℕ) : Pinned (new T numCores) where
  queues := by
    intro core rq hrq x hx
    have hmem := List.mem_of_getElem? hrq
    simp only [new, Scheduler.new, List.mem_map] at hmem
    obtain ⟨i, -, rfl⟩ := hmem
    simp [RunQueue.new] at hx
  calls _ := trivial
  handedOut := by simp [new]

theorem Pinned.setCall {s : State T} (h : Pinned s) {sched : Scheduler Submission}
    (hqueues : QueuesFit sched) (t : T) {c : Call Submission} (hc : c.Fits) :
    Pinned ({ s with sched := sched }.setCall t c) where
  queues := hqueues
  calls := by
    intro u
    simp only [State.setCall, Function.update_apply]
    split
    · exact hc
    · exact h.calls u
  handedOut := h.handedOut

theorem Pinned.start {s s' : State T} {t : T} {op : Op} {numCores : ℕ} (h : Pinned s)
    (hop : (Label.start t op).SpawnsOrSchedules numCores)
    (hstart : start s t op = some s') : Pinned s' := by
  cases op with
  | spawn task =>
      obtain rfl := Option.some.inj hstart
      have hsub : Pinned { s with submitted := s.submitted ++ [⟨s.submitted.length, task⟩] } :=
        ⟨h.queues, h.calls, h.handedOut⟩
      apply hsub.setCall h.queues
      dsimp only
      split
      · rename_i affinity haff
        intro a ha
        exact Option.some.inj (ha.symm.trans haff)
      · rename_i haff
        exact haff
  | schedule core =>
      simp only [Interleaving.start, Option.ite_none_right_eq_some, Option.some.injEq] at hstart
      obtain ⟨-, rfl⟩ := hstart
      exact h.setCall h.queues t trivial
  | spawnOnCore core task => exact hop.elim
  | wake task targetCore => exact hop.elim
  | preemptCurrent core task => exact hop.elim
  | blockCurrent core => exact hop.elim

theorem FitsOn.of_unpinned {x : Submission} (h : x.task.affinity = none) (core : ℕ) :
    FitsOn core x := by
  simp [FitsOn, h]

theorem fits_returning_none (core : ℕ) : (Call.returning core none).Fits := by
  simp [Call.Fits]

/-- A step of a call that holds only tasks that fit, on queues of tasks that
fit, and that steals none that does not. -/
theorem Advances.fits {sched sched' : Scheduler Submission} {c c' : Call Submission}
    {out : List (ℕ × Submission)} (h : Advances sched c sched' c' out)
    (hqueues : QueuesFit sched) (hc : c.Fits) (hsteal : c.StealFits sched) :
    QueuesFit sched' ∧ c'.Fits ∧ ∀ p ∈ out, FitsOn p.1 p.2 := by
  have hnil : ∀ p ∈ ([] : List (ℕ × Submission)), FitsOn p.1 p.2 := List.forall_mem_nil _
  cases h with
  | readLeast => exact ⟨hqueues, hc, hnil⟩
  | leastFound => exact ⟨hqueues, FitsOn.of_unpinned hc _, hnil⟩
  | push hpush => exact ⟨hqueues.pushTo hc hpush, trivial, hnil⟩
  | pop hpop =>
      obtain ⟨hqueues', hx⟩ := hqueues.popFrom hpop
      exact ⟨hqueues', hx, hnil⟩
  | popNone hpop => exact ⟨(hqueues.popFrom hpop).1, trivial, hnil⟩
  | readBusiest => exact ⟨hqueues, trivial, hnil⟩
  | busiestFound => exact ⟨hqueues, trivial, hnil⟩
  | busiestNone => exact ⟨hqueues, fits_returning_none _, hnil⟩
  | steal hstolen =>
      obtain ⟨hqueues', hfits⟩ := hqueues.stealFrom hsteal hstolen
      exact ⟨hqueues', hfits, hnil⟩
  | stealNone hstolen => exact ⟨(hqueues.stealFrom hsteal hstolen).1, fits_returning_none _, hnil⟩
  | repush hpush =>
      obtain ⟨hfirst, hx, hrest⟩ :
          FitsOn _ _ ∧ FitsOn _ _ ∧ ∀ y ∈ _, FitsOn _ y := by
        simpa [Call.Fits] using hc
      exact ⟨hqueues.pushTo hx hpush, List.forall_mem_cons.mpr ⟨hfirst, hrest⟩, hnil⟩
  | repushed => exact ⟨hqueues, by simpa [Call.Fits] using hc, hnil⟩
  | handOut =>
      refine ⟨hqueues, trivial, fun p hp => ?_⟩
      obtain ⟨x, hx, rfl⟩ := List.mem_map.mp hp
      exact hc x (Option.mem_toList.mp hx)

theorem Pinned.advance {s s' : State T} {t : T} (h : Pinned s)
    (hfits : (s.calls t).StealFits s.sched)
    (hstep : advance s t (s.calls t) = some s') : Pinned s' := by
  obtain ⟨sched, c, out, hadv, rfl⟩ := advance_cases hstep
  obtain ⟨hqueues, hc, hout⟩ := hadv.fits h.queues (h.calls t) hfits
  have hmore : Pinned { s with handedOut := s.handedOut ++ out } := by
    refine ⟨h.queues, h.calls, fun p hp => ?_⟩
    obtain hp | hp := List.mem_append.mp hp
    · exact h.handedOut p hp
    · exact hout p hp
  exact hmore.setCall hqueues t hc

theorem Pinned.step {s s' : State T} {l : Label T} {numCores : ℕ} (h : Pinned s)
    (hl : StealFits s l ∧ l.SpawnsOrSchedules numCores) (hstep : step s l = some s') :
    Pinned s' := by
  cases l with
  | start t op =>
      simp only [Interleaving.step, Option.ite_none_right_eq_some] at hstep
      exact h.start hl.2 hstep.2
  | step t => exact h.advance hl.1 hstep

/-! ### Whole runs -/

/-- In every run of `spawn` and `schedule` in which no steal takes a task
pinned to another core than the thief's, every pinned task is handed out on
its own core only. -/
theorem affinity_respected {numCores : ℕ} {as : List (Label T)} {s : State T}
    (hrun : run Interleaving.step (new T numCores) as = some s)
    (hcalls : ∀ l ∈ as, l.SpawnsOrSchedules numCores)
    (hsteals : StepsMeet Interleaving.step StealFits (new T numCores) as) :
    ∀ core x, (core, x) ∈ s.handedOut → ∀ a, x.task.affinity = some a → a = core := by
  have hpinned : Pinned s :=
    run_invariant_of_stepsMeet (fun _ _ _ h hl hstep => h.step hl hstep)
      (new_pinned numCores) (hsteals.and_forall_mem hcalls) hrun
  intro core x hx a ha
  exact hpinned.handedOut (core, x) hx a ha

/-- Core 1 runs the two tasks pinned to it, and then steals the task of core 0
that is not pinned and leaves it the other one. -/
theorem affinity_respected_stealing :
    let as : List (Label (Fin 2)) :=
      spawnPinned 0 1 1 ++ spawnPinned 0 2 1 ++ spawnPinned 0 3 0 ++
        [.start 0 (.spawn (Task.new 4 0 "task" 0 0 0))] ++ List.replicate 4 (.step 0) ++
        [.start 1 (.schedule 1), .step 1, .step 1, .start 1 (.schedule 1), .step 1, .step 1] ++
        [.start 1 (.schedule 1)] ++ List.replicate 7 (.step 1)
    (∀ l ∈ as, l.SpawnsOrSchedules 2) ∧
      StepsMeet Interleaving.step StealFits (new (Fin 2) 2) as ∧
      ∃ s, run Interleaving.step (new (Fin 2) 2) as = some s ∧
        s.handedOut.map (fun p => (p.1, p.2.task.id)) = [(1, 1), (1, 2), (1, 4)] ∧
        ∀ core x, (core, x) ∈ s.handedOut → ∀ a, x.task.affinity = some a → a = core := by
  intro as
  have hcalls : ∀ l ∈ as, l.SpawnsOrSchedules 2 := by decide
  have hsteals : StepsMeet Interleaving.step StealFits (new (Fin 2) 2) as := by decide
  obtain ⟨s, hrun, hout⟩ : ∃ s, run Interleaving.step (new (Fin 2) 2) as = some s ∧
      s.handedOut.map (fun p => (p.1, p.2.task.id)) = [(1, 1), (1, 2), (1, 4)] :=
    ⟨_, rfl, by decide⟩
  exact ⟨hcalls, hsteals, s, hrun, hout, affinity_respected hrun hcalls hsteals⟩

/-- Two tasks pinned to core 0 are spawned, and core 1, which has nothing to
do, steals one of them and runs it. -/
theorem schedule_returns_pinned_elsewhere :
    let as : List (Label (Fin 2)) := spawnPinned 0 1 0 ++ spawnPinned 0 2 0 ++
      [.start 1 (.schedule 1)] ++ List.replicate 7 (.step 1)
    (∀ l ∈ as, l.SpawnsOrSchedules 2) ∧
      ∃ s, run Interleaving.step (new (Fin 2) 2) as = some s ∧
        ∃ x, (1, x) ∈ s.handedOut ∧ x.task.affinity = some 0 := by
  intro as
  refine ⟨by decide, _, rfl, ?_⟩
  exact ⟨⟨1, (Task.new 2 0 "task" 0 0 0).withAffinity 0⟩, by decide, rfl⟩

end SmpNostd.Interleaving
