import SmpNostd.Scheduler.Overtaking
import Mathlib.Data.List.Rotate

/-!
What every task gets.

Bounded overtaking counts the calls that serve a task, and which calls these
are changes when the task is moved. A core cannot know where a task will be,
but it can go on calling `schedule`. If all cores do, each of them once in a
round, in any order and with any other calls in between, then every round
serves every task: as long as a task stays on its core, the call of that core
is still to come, and if it is moved, the steal has moved it ahead. So a task
waits for as many rounds as there are tasks ahead of it, and as many rounds as
the longest queue has tasks empty all queues.

Where every core has work of its own, nobody steals. A core that lets each of
its tasks run for one time slice then goes through its queue in a circle, and
does not notice the other cores.
-/

namespace SmpNostd

/-! ### Rounds -/

namespace Interleaving

open Machine

/-- Every core schedules at least once. -/
def Round (numCores : ℕ) (ops : List Op) : Prop :=
  ∀ core < numCores, ∃ op ∈ ops, op.SchedulesOn core

instance (numCores : ℕ) (ops : List Op) : Decidable (Round numCores ops) :=
  inferInstanceAs (Decidable (∀ core < numCores, ∃ op ∈ ops, op.SchedulesOn core))

variable {numCores : ℕ} {s s' : State Unit} {x : Submission} {core p : ℕ}

/-- A queue with a task in it is a core's. -/
theorem AloneReachable.lt_of_atPosition (h : AloneReachable numCores s)
    (hx : AtPosition s.sched x core p) : core < numCores := by
  have hlength : s.sched.runQueues.length = numCores := length_of_reachable h.reachable.1
  unfold AtPosition Scheduler.queueOf at hx
  split at hx
  · rename_i rq hrq
    exact hlength ▸ (List.getElem?_eq_some_iff.mp hrq).1
  · cases hx

/-- The task has been handed out from `s` to `s'`. -/
def HandedOut (s s' : State Unit) (x : Submission) : Prop :=
  ∃ out c, s'.handedOut = s.handedOut ++ out ∧ (c, x) ∈ out

theorem HandedOut.of_run {m : State Unit} {ops : List Op} (hrun : run Op.alone s ops = some m)
    (h : HandedOut m s' x) : HandedOut s s' x := by
  obtain ⟨out, c, hout, hmem⟩ := h
  obtain ⟨before, hbefore⟩ := handedOut_prefix hrun
  refine ⟨before ++ out, c, ?_, List.mem_append_right _ hmem⟩
  rw [hout, ← hbefore, List.append_assoc]

/-- Calls among which the core of a task schedules hand the task out or move it
ahead. The induction follows the task as long as it stays where it is; then
the call of its core is still to come. -/
theorem turn_position (hs : AloneReachable numCores s) (hx : AtPosition s.sched x core p)
    {ops : List Op} (hturn : ∃ op ∈ ops, op.SchedulesOn core)
    (hrun : run Op.alone s ops = some s') :
    HandedOut s s' x ∨ ∃ core' p', AtPosition s'.sched x core' p' ∧ p' < p := by
  induction ops generalizing s with
  | nil =>
      obtain ⟨op, hmem, -⟩ := hturn
      cases hmem
  | cons op ops ih =>
      obtain ⟨m, hop, hrest⟩ := run_cons_eq_some.mp hrun
      have hm : AloneReachable numCores m := Reachable.of_step hs hop
      have hhead : run Op.alone s [op] = some m := (run_singleton s op).trans hop
      obtain ⟨c, hout⟩ | ⟨core₁, p₁, hx₁, hle, hless⟩ := alone_position hop hx
      · left
        obtain ⟨more, hmore⟩ := handedOut_prefix hrest
        exact ⟨(c, x) :: more, c, by rw [← hmore, hout, List.append_assoc]; rfl, by simp⟩
      · by_cases hahead : p₁ < p
        · obtain hout | ⟨core', p', hx', hbound⟩ := run_position hm hx₁ hrest
          · exact .inl (HandedOut.of_run hhead hout)
          · exact .inr ⟨core', p', hx', by omega⟩
        · -- the task is where it was, and it was not its core that scheduled
          have hstay : ¬(op.SchedulesOn core ∨ core₁ ≠ core) := fun h => hahead (hless h)
          rw [not_or, not_not] at hstay
          obtain ⟨hnot, rfl⟩ := hstay
          obtain rfl : p₁ = p := by omega
          obtain ⟨op', hmem, hsched⟩ := hturn
          have hlater : op' ∈ ops := by
            rcases List.mem_cons.mp hmem with rfl | hmem
            · exact absurd hsched hnot
            · exact hmem
          exact (ih hm hx₁ ⟨op', hlater, hsched⟩ hrest).imp_left (HandedOut.of_run hhead)

/-- As many rounds as there are tasks ahead of a task, and one more, hand it
out. -/
theorem rounds_handedOut (hs : AloneReachable numCores s) (hx : AtPosition s.sched x core p)
    {rounds : List (List Op)} (hrounds : ∀ ops ∈ rounds, Round numCores ops)
    (hlen : p < rounds.length) (hrun : run Op.alone s rounds.flatten = some s') :
    HandedOut s s' x := by
  induction rounds generalizing s core p with
  | nil => exact absurd hlen (Nat.not_lt_zero p)
  | cons ops rounds ih =>
      obtain ⟨hops, hrounds⟩ := List.forall_mem_cons.mp hrounds
      rw [List.flatten_cons, run_append, Option.bind_eq_some_iff] at hrun
      obtain ⟨m, hm, hrest⟩ := hrun
      have hmreach : AloneReachable numCores m := Reachable.run hs hm
      obtain hout | ⟨core', p', hx', hless⟩ :=
        turn_position hs hx (hops core (hs.lt_of_atPosition hx)) hm
      · obtain ⟨out, c, hout, hmem⟩ := hout
        obtain ⟨more, hmore⟩ := handedOut_prefix hrest
        refine ⟨out ++ more, c, ?_, List.mem_append_left _ hmem⟩
        rw [← hmore, hout, List.append_assoc]
      · rw [List.length_cons] at hlen
        exact HandedOut.of_run hm (ih hmreach hx' hrounds (by omega) hrest)

/-- Calls of `schedule` and `block_current` alone submit nothing. -/
theorem submitted_of_schedules {ops : List Op} (hops : ∀ op ∈ ops, ∃ c, op.SchedulesOn c)
    (hrun : run Op.alone s ops = some s') : s'.submitted = s.submitted := by
  induction ops generalizing s with
  | nil =>
      obtain rfl := Option.some.inj hrun
      rfl
  | cons op ops ih =>
      obtain ⟨m, hop, hrest⟩ := run_cons_eq_some.mp hrun
      obtain ⟨⟨c, hc⟩, hops⟩ := List.forall_mem_cons.mp hops
      rw [ih hops hrest]
      cases op with
      | schedule | blockCurrent =>
          obtain ⟨_, -, rfl⟩ := Option.map_eq_some_iff.mp hop
          rfl
      | spawn | spawnOnCore | wake | preemptCurrent => exact hc.elim

/-- **No task starves.** In a run that consists of rounds, in each of which
every core schedules at least once, with any other calls in any order, a task
with fewer tasks ahead of it than there are rounds is handed out. If nothing is
submitted meanwhile, as many rounds as the longest queue has tasks hand out
every queued task, each of them once, and leave all queues empty. -/
theorem starvation_free (hs : AloneReachable numCores s) {rounds : List (List Op)}
    (hrounds : ∀ ops ∈ rounds, Round numCores ops)
    (hrun : run Op.alone s rounds.flatten = some s') :
    (∀ x core p, AtPosition s.sched x core p → p < rounds.length → HandedOut s s' x) ∧
    ((∀ op ∈ rounds.flatten, ∃ c, op.SchedulesOn c) →
      (∀ core, (s.sched.queueOf core).length ≤ rounds.length) →
      ∃ out, s'.handedOut = s.handedOut ++ out ∧
        ↑(out.map Prod.snd) = queued s.sched ∧ queued s'.sched = 0) := by
  refine ⟨fun x core p hx hp => rounds_handedOut hs hx hrounds hp hrun, ?_⟩
  intro hschedules hlong
  have hs' : AloneReachable numCores s' := Reachable.run hs hrun
  have hacc := hs.accounted
  have hacc' := hs'.accounted
  obtain ⟨-, hidle⟩ := hs.reachable
  obtain ⟨-, hidle'⟩ := hs'.reachable
  obtain ⟨out, hout⟩ := handedOut_prefix hrun
  -- what was queued is what has been handed out since, and what still is queued
  have hsplit : queued s.sched = ↑(out.map Prod.snd) + queued s'.sched := by
    have htotal := hacc.total
    have htotal' := hacc'.total
    rw [inTransit_of_idle hidle, add_zero] at htotal
    rw [inTransit_of_idle hidle', add_zero, submitted_of_schedules hschedules hrun, htotal] at htotal'
    have hreturned : returned s' = returned s + ↑(out.map Prod.snd) := by
      unfold returned
      rw [← hout, List.map_append, Multiset.coe_add]
    rw [hreturned, add_assoc] at htotal'
    exact add_left_cancel htotal'
  have hnodup : (queued s.sched).Nodup := by
    have hsub : (s.submitted : Multiset Submission).Nodup := hacc.nodup
    rw [hacc.total, Multiset.nodup_add, Multiset.nodup_add] at hsub
    exact hsub.1.2.1
  have hempty : queued s'.sched = 0 := by
    rw [Multiset.eq_zero_iff_forall_notMem]
    intro x hx
    have hxs : x ∈ queued s.sched := by
      rw [hsplit, Multiset.mem_add]
      exact .inr hx
    rw [queued_eq_flatMap, Multiset.mem_coe, List.mem_flatMap] at hxs
    obtain ⟨rq, hrq, hxq⟩ := hxs
    obtain ⟨core, hcore⟩ := List.mem_iff_getElem?.mp hrq
    obtain ⟨p, hp⟩ := List.mem_iff_getElem?.mp hxq
    have hqueue := Scheduler.queueOf_of_getElem? hcore
    have hpos : AtPosition s.sched x core p := by
      unfold AtPosition
      rw [hqueue, hp]
    have hlt : p < rounds.length := by
      have hle := hlong core
      rw [hqueue] at hle
      exact lt_of_lt_of_le (List.getElem?_eq_some_iff.mp hp).1 hle
    obtain ⟨out', c, hout', hmem⟩ := rounds_handedOut hs hpos hrounds hlt hrun
    obtain rfl : out = out' := List.append_cancel_left (hout.trans hout')
    have hxout : x ∈ ((out.map Prod.snd : List Submission) : Multiset Submission) :=
      List.mem_map.mpr ⟨(c, x), hmem, rfl⟩
    rw [hsplit, Multiset.nodup_add] at hnodup
    exact Multiset.disjoint_left.mp hnodup.2.2 hxout hx
  exact ⟨out, hout.symm, by rw [hsplit, hempty, add_zero], hempty⟩

/-- Four tasks on core 0 of two, and four rounds of calls, in each of which core
1 is first. -/
theorem starvation_free_spawnFour :
    ∃ s s', run Op.alone (new Unit 2) spawnFour = some s ∧
      run Op.alone s (List.replicate 4 [.schedule 1, .schedule 0]).flatten = some s' ∧
      ∃ out, s'.handedOut = s.handedOut ++ out ∧
        ↑(out.map Prod.snd) = queued s.sched ∧ queued s'.sched = 0 := by
  obtain ⟨s, hs, hlong, s', hrun⟩ : ∃ s, run Op.alone (new Unit 2) spawnFour = some s ∧
      (∀ rq ∈ s.sched.runQueues, rq.queue.length ≤ 4) ∧
      ∃ s', run Op.alone s (List.replicate 4 [.schedule 1, .schedule 0]).flatten = some s' :=
    ⟨_, rfl, by decide, _, rfl⟩
  refine ⟨s, s', hs, hrun, (starvation_free ⟨spawnFour, hs⟩ ?_ hrun).2 ?_ ?_⟩
  · intro ops hops
    obtain rfl := List.eq_of_mem_replicate hops
    decide
  · intro op hop
    obtain ⟨ops, hops, hop⟩ := List.mem_flatten.mp hop
    obtain rfl := List.eq_of_mem_replicate hops
    rcases List.mem_cons.mp hop with rfl | hop
    · exact ⟨1, rfl⟩
    · obtain rfl := List.mem_singleton.mp hop
      exact ⟨0, rfl⟩
  · intro core
    unfold Scheduler.queueOf
    split
    · rename_i rq hrq
      exact hlong rq (List.mem_of_getElem? hrq)
    · exact Nat.zero_le _

end Interleaving

/-! ### Time slices -/

namespace RoundRobin

open Machine Scheduler

variable {τ : Type} [TaskLike τ]

/-- The scheduler, the task that each core runs, and the tasks that each core
has been handed, in order. -/
structure State (τ : Type) where
  sched : Scheduler τ
  current : ℕ → Option τ
  slices : ℕ → List τ

/-- The timer interrupt of a core: the task that it runs goes back into the
queue, or else the next one is scheduled. -/
def tick (s : State τ) (core : ℕ) : Option (State τ) :=
  match s.current core with
  | some task =>
      (s.sched.preemptCurrent core task).map fun sched =>
        { s with sched := sched, current := Function.update s.current core none }
  | none =>
      (s.sched.schedule core).map fun (result, sched) =>
        { sched := sched
          current := Function.update s.current core result
          slices := Function.update s.slices core (s.slices core ++ result.toList) }

/-- No core runs anything yet. -/
def start (sched : Scheduler τ) : State τ where
  sched := sched
  current _ := none
  slices _ := []

/-- The core that started with the tasks `queue` has had `n` timer interrupts:
it is in its circle where the number of finished slices says. -/
structure InCircle (queue : List τ) (n : ℕ) (current : Option τ) (own slices : List τ) :
    Prop where
  circle : current.toList ++ own = queue.rotate (n / 2)
  length : slices.length = (n + 1) / 2
  running : current.isSome ↔ n % 2 = 1
  order : ∀ k < slices.length, slices[k]? = queue[k % queue.length]?

variable {queue own slices : List τ} {current : Option τ} {n core : ℕ}

omit [TaskLike τ] in
theorem inCircle_start (queue : List τ) : InCircle queue 0 none queue [] where
  circle := by simp
  length := rfl
  running := by simp
  order k hk := absurd hk (Nat.not_lt_zero k)

omit [TaskLike τ] in
/-- The next task is handed out. -/
theorem InCircle.schedule (h : InCircle queue n none own slices) (hne : queue ≠ []) :
    ∃ task rest, own = task :: rest ∧
      InCircle queue (n + 1) (some task) rest (slices ++ [task]) := by
  have heven : n % 2 = 0 := by
    have hodd := h.running
    simp only [Option.isSome_none, Bool.false_eq_true, false_iff] at hodd
    omega
  have hown : own = queue.rotate (n / 2) := h.circle
  obtain ⟨task, rest, hcons⟩ := List.exists_cons_of_ne_nil (l := own) (by
    rw [hown, Ne, List.rotate_eq_nil_iff]
    exact hne)
  have hlen : slices.length = n / 2 := by
    rw [h.length]
    omega
  refine ⟨task, rest, hcons, ?_, ?_, ?_, ?_⟩
  · rw [show (n + 1) / 2 = n / 2 by omega, ← hown, hcons]
    rfl
  · rw [List.length_append, List.length_singleton, hlen]
    omega
  · simp only [Option.isSome_some, true_iff]
    omega
  · intro k hk
    rw [List.length_append, List.length_singleton] at hk
    by_cases hlast : k < slices.length
    · rw [List.getElem?_append_left hlast]
      exact h.order k hlast
    · obtain rfl : k = slices.length := by omega
      have hhead : (queue.rotate (n / 2))[0]? = queue[(0 + n / 2) % queue.length]? :=
        List.getElem?_rotate (List.length_pos_of_ne_nil hne)
      rw [List.getElem?_concat_length, hlen, ← Nat.zero_add (n / 2), ← hhead, ← hown, hcons]
      rfl

omit [TaskLike τ] in
/-- The slice ends, and its task goes to the back. -/
theorem InCircle.preempt {task : τ} (h : InCircle queue n (some task) own slices) :
    InCircle queue (n + 1) none (own ++ [task]) slices := by
  have hodd : n % 2 = 1 := h.running.mp rfl
  refine ⟨?_, ?_, ?_, h.order⟩
  · have hcircle : queue.rotate (n / 2) = task :: own := h.circle.symm
    rw [show (n + 1) / 2 = n / 2 + 1 by omega, ← List.rotate_rotate, hcircle,
      List.rotate_cons_succ, List.rotate_zero]
    rfl
  · rw [h.length]
    omega
  · simp only [Option.isSome_none, Bool.false_eq_true, false_iff]
    omega

/-- Every core is in a circle of its own. -/
structure Circles (sched : Scheduler τ) (cs : List ℕ) (s : State τ) : Prop where
  counted : s.sched.Counted
  numCores : s.sched.numCores = sched.numCores
  cores : ∀ c < sched.numCores, InCircle (sched.queueOf c) (cs.count c) (s.current c)
    (s.sched.queueOf c) (s.slices c)

omit [TaskLike τ] in
/-- What a timer interrupt on one core does to it is seen by no other core. -/
theorem Circles.set {sched : Scheduler τ} {cs : List ℕ} {s : State τ} (h : Circles sched cs s)
    (hcore : core < sched.numCores) {current' : Option τ} {own' slices' : List τ}
    (hlen : own'.length < 2 ^ 64)
    (hcircle : InCircle (sched.queueOf core) (cs.count core + 1) current' own' slices') :
    Circles sched (cs ++ [core])
      { sched := s.sched.setQueue core own'
        current := Function.update s.current core current'
        slices := Function.update s.slices core slices' } := by
  have hlt : core < s.sched.runQueues.length := by
    rw [h.counted.length, h.numCores]
    exact hcore
  refine ⟨h.counted.setQueue hlen, h.numCores, fun c hc => ?_⟩
  rw [List.count_append, List.count_singleton]
  by_cases hsame : c = core
  · subst hsame
    simpa [queueOf_setQueue_self hlt] using hcircle
  · have hne : (core == c) = false := beq_false_of_ne (Ne.symm hsame)
    simpa [hne, Function.update_of_ne hsame, queueOf_setQueue_of_ne hsame] using h.cores c hc

/-- One timer interrupt, on a core that has had work from the beginning. -/
theorem Circles.tick {sched : Scheduler τ} {cs : List ℕ} {s : State τ} (h : Circles sched cs s)
    (hs : sched.Counted) (hcore : core < sched.numCores) (hne : sched.queueOf core ≠ [])
    (hready : ∀ task ∈ sched.queueOf core, TaskLike.setState task .ready = task) :
    ∃ s', tick s core = some s' ∧ Circles sched (cs ++ [core]) s' := by
  have hcircle := h.cores core hcore
  have hlt : core < s.sched.numCores := h.numCores ▸ hcore
  have hlen := congrArg List.length hcircle.circle
  have hroom := hs.length_queueOf_lt core
  rw [List.length_append, List.length_rotate] at hlen
  cases hcurrent : s.current core with
  | none =>
      rw [hcurrent] at hcircle
      obtain ⟨task, rest, hown, hnext⟩ := hcircle.schedule hne
      rw [hown, List.length_cons] at hlen
      obtain ⟨result, m, hsched, -, hhead, -⟩ := schedule_exact s.sched core h.counted hlt
      obtain ⟨rfl, rfl⟩ := hhead task rest hown
      refine ⟨_, ?_, h.set hcore (by omega) hnext⟩
      simp only [RoundRobin.tick, hcurrent, hsched, Option.map_some]
      rfl
  | some task =>
      rw [hcurrent] at hcircle hlen
      have hmem : task ∈ sched.queueOf core := by
        rw [← List.mem_rotate (n := cs.count core / 2), ← hcircle.circle]
        exact List.mem_cons_self
      have hlen' : (s.sched.queueOf core ++ [task]).length < 2 ^ 64 := by
        rw [List.length_append, List.length_singleton]
        rw [Option.toList_some, List.length_singleton] at hlen
        omega
      have hpush : s.sched.preemptCurrent core task =
          some (s.sched.setQueue core (s.sched.queueOf core ++ [task])) := by
        unfold preemptCurrent
        rw [hready task hmem]
        refine h.counted.pushTo_eq hlt ?_ task
        rwa [List.length_append, List.length_singleton] at hlen'
      have hset := h.set hcore hlen' hcircle.preempt
      rw [Function.update_eq_self] at hset
      refine ⟨_, ?_, hset⟩
      simp only [RoundRobin.tick, hcurrent, hpush, Option.map_some]

/-- **Round robin.** Every core has work of its own at first, and lets each task
run until the next timer interrupt, which puts it back. Then no call fails,
and however the interrupts of the cores come, each core goes through its own
queue in a circle: of `n` interrupts every second one hands out a task, the
`k`-th of them the task at position `k` modulo the number of tasks, and no task
leaves its core. -/
theorem round_robin {sched : Scheduler τ} (hs : sched.Counted)
    (hwork : ∀ c < sched.numCores, sched.queueOf c ≠ [])
    (hready : ∀ c < sched.numCores, ∀ task ∈ sched.queueOf c,
      TaskLike.setState task .ready = task)
    {cs : List ℕ} (hcs : ∀ c ∈ cs, c < sched.numCores) :
    ∃ s, run tick (start sched) cs = some s ∧ s.sched.Counted ∧
      ∀ c < sched.numCores,
        (s.current c).toList ++ s.sched.queueOf c = (sched.queueOf c).rotate (cs.count c / 2) ∧
        ((s.current c).isSome ↔ cs.count c % 2 = 1) ∧
        (s.slices c).length = (cs.count c + 1) / 2 ∧
        ∀ k < (s.slices c).length,
          (s.slices c)[k]? = (sched.queueOf c)[k % (sched.queueOf c).length]? := by
  have hcircles : ∃ s, run tick (start sched) cs = some s ∧ Circles sched cs s := by
    induction cs using List.reverseRecOn with
    | nil => exact ⟨start sched, rfl, hs, rfl, fun c _ => inCircle_start _⟩
    | append_singleton cs core ih =>
        have hcore := hcs core (by simp)
        obtain ⟨m, hm, hcircles⟩ := ih fun c hc => hcs c (by simp [hc])
        obtain ⟨s', hs', hcircles'⟩ := hcircles.tick hs hcore (hwork core hcore) (hready core hcore)
        exact ⟨s', by rw [run_append, hm, Option.bind_some, run_singleton, hs'], hcircles'⟩
  obtain ⟨s, hrun, hcircles⟩ := hcircles
  refine ⟨s, hrun, hcircles.counted, fun c hc => ?_⟩
  have h := hcircles.cores c hc
  exact ⟨h.circle, h.running, h.length, h.order⟩

/-- Two cores with three tasks and one, and eleven interrupts. -/
theorem round_robin_two_cores :
    let task (id : ℕ) := Task.new id 0 "task" 0 0 0
    let sched : Scheduler Task := ⟨[⟨0, [task 1, task 2, task 3], 3⟩, ⟨1, [task 4], 1⟩], 2⟩
    ∃ s, run tick (start sched) [0, 1, 0, 0, 1, 1, 0, 0, 0, 0, 1] = some s ∧
      (s.current 0).toList ++ s.sched.queueOf 0 = (sched.queueOf 0).rotate 3 ∧
      (s.slices 0).length = 4 ∧ (s.slices 0)[3]? = some (task 1) := by
  intro task sched
  have hs : sched.Counted := by decide
  have hcs : ∀ c ∈ [0, 1, 0, 0, 1, 1, 0, 0, 0, 0, 1], c < sched.numCores := by decide
  obtain ⟨s, hrun, -, hcores⟩ := round_robin hs (by decide) (by decide) hcs
  obtain ⟨hcircle, -, hlen, horder⟩ := hcores 0 (by decide)
  have hfirst : (sched.queueOf 0)[3 % (sched.queueOf 0).length]? = some (task 1) := by decide
  exact ⟨s, hrun, hcircle, hlen, (horder 3 (by rw [hlen]; decide)).trans hfirst⟩

end RoundRobin

end SmpNostd
