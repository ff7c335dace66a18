import Mathlib.Algebra.Order.BigOperators.Group.List
import Mathlib.Data.Multiset.OrderedMonoid
import SmpNostd.Scheduler.Overtaking

/-!
What the scheduler says about its queues, under any interleaving.

`queue_lengths` and `total_queued` load the lengths one after the other, while
tasks are pushed, popped and stolen, so the lengths may never have stood next to
each other. The counters are moved inside the critical sections, though, and each
length was exact when it was loaded. A task that stays where it is is counted, and
if nobody else moves, what is missing from what was submitted and not handed out is
in the hands of calls that have not gone on.

`schedule` returns nothing after it has looked at the queues one after the
other. It may be wrong by the time it returns, but not about everything it
has seen: at one instant of the call its own queue was empty, and either every
other queue, at some instant of its own, had no task to spare, or the victim
was chosen for its tasks and had none to spare any more when it was the turn
of the steal.
-/

namespace SmpNostd

/-! ### Diagnostics -/

namespace Scheduler

variable {τ : Type}

/-- Per-core queue lengths. -/
def queueLengths (s : Scheduler τ) : List ℕ := s.runQueues.map (·.len)

/-- Total number of queued tasks across all cores; a sum past `u64::MAX`
panics. -/
def totalQueued (s : Scheduler τ) : Option ℕ :=
  if s.queueLengths.sum < 2 ^ 64 then some s.queueLengths.sum else none

end Scheduler

/-! ### The counters -/

namespace Interleaving

open Machine

variable {T : Type} [DecidableEq T] {s s' : State T} {t : T} {l : Label T}

/-- Every counter is the length of its queue. -/
def CountersExact (sched : Scheduler Submission) : Prop :=
  ∀ rq ∈ sched.runQueues, rq.Counted

theorem counted_of_set {sched : Scheduler Submission} (h : CountersExact sched) {core : ℕ}
    {rq' : RunQueue Submission} (hrq' : rq'.Counted) :
    CountersExact { sched with runQueues := sched.runQueues.set core rq' } := by
  intro rq hrq
  rcases List.mem_or_eq_of_mem_set hrq with hold | rfl
  · exact h rq hold
  · exact hrq'

/-- A push counts exactly if there is room for another task in the counter. -/
theorem CountersExact.pushTo {sched sched' : Scheduler Submission} (h : CountersExact sched)
    {core : ℕ} {x : Submission} (hpush : sched.pushTo core x = some sched')
    (hroom : ∀ rq ∈ sched'.runQueues, rq.queue.length < 2 ^ 64) : CountersExact sched' := by
  obtain ⟨rq, hrq, rfl⟩ := Option.map_eq_some_iff.mp hpush
  have hlt : core < sched.runQueues.length := (List.getElem?_eq_some_iff.mp hrq).1
  have hpushed : (rq.queue ++ [x]).length < 2 ^ 64 :=
    hroom (rq.push x) (List.mem_of_getElem? (List.getElem?_set_self hlt))
  have hcounted := h rq (List.mem_of_getElem? hrq)
  apply counted_of_set h
  rw [hcounted.push_eq (by rwa [List.length_append, List.length_singleton] at hpushed)]
  exact RunQueue.counted_withQueue hpushed

theorem CountersExact.advances {sched sched' : Scheduler Submission} {c c' : Call Submission}
    {out : List (ℕ × Submission)} (h : CountersExact sched) (hadv : Advances sched c sched' c' out)
    (hroom : ∀ rq ∈ sched'.runQueues, rq.queue.length < 2 ^ 64) : CountersExact sched' := by
  cases hadv with
  | readLeast | leastFound | readBusiest | busiestFound | busiestNone | repushed | handOut =>
      exact h
  | push hpush | repush hpush => exact h.pushTo hpush hroom
  | pop hpop | popNone hpop =>
      simp only [Scheduler.popFrom, Option.map_eq_some_iff, Prod.mk.injEq] at hpop
      obtain ⟨rq, hrq, -, rfl⟩ := hpop
      have hcounted := h rq (List.mem_of_getElem? hrq)
      apply counted_of_set h
      cases hqueue : rq.queue with
      | nil =>
          rw [RunQueue.pop_nil hqueue]
          exact hcounted
      | cons task rest =>
          have hlt := hcounted.length_lt
          rw [hqueue, List.length_cons] at hlt
          rw [hcounted.pop_cons hqueue]
          exact RunQueue.counted_withQueue (by omega)
  | steal hsteal | stealNone hsteal =>
      simp only [Scheduler.stealFrom, Option.map_eq_some_iff, Prod.mk.injEq] at hsteal
      obtain ⟨rq, hrq, -, rfl⟩ := hsteal
      have hcounted := h rq (List.mem_of_getElem? hrq)
      have hlt := hcounted.length_lt
      apply counted_of_set h
      rw [hcounted.stealHalf_eq]
      refine RunQueue.counted_withQueue ?_
      rw [List.length_take]
      omega

omit [DecidableEq T] in
/-- No queue is longer than there are submissions. -/
theorem Accounted.length_queue_le [Fintype T] (h : Accounted s) {rq : RunQueue Submission}
    (hrq : rq ∈ s.sched.runQueues) : rq.queue.length ≤ s.submitted.length := by
  have hle : (rq.queue : Multiset Submission) ≤ queued s.sched :=
    List.le_sum_of_mem (List.mem_map_of_mem hrq)
  have hcard := congrArg Multiset.card h.total
  rw [Multiset.card_add, Multiset.card_add, Multiset.coe_card] at hcard
  have hqueue := Multiset.card_le_card hle
  rw [Multiset.coe_card] at hqueue
  omega

/-- Submissions are not forgotten. -/
theorem submitted_le_of_step (hstep : step s l = some s') :
    s.submitted.length ≤ s'.submitted.length := by
  obtain hsame | ⟨task, hmore⟩ := (step_moved hstep).submitted
  · rw [hsame]
  · rw [hmore, List.length_append]
    omega

/-- The counters are exact in every state reached with fewer than `2 ^ 64`
submissions. -/
theorem counters_exact [Fintype T] {numCores : ℕ}
    (hreach : Reachable step (new T numCores) s) (hbound : s.submitted.length < 2 ^ 64) :
    CountersExact s.sched := by
  refine (reachable_invariant (I := fun s : State T => Accounted s ∧
    (s.submitted.length < 2 ^ 64 → CountersExact s.sched)) ?_ ?_ hreach).2 hbound
  · rintro s l s' ⟨hacc, hexact⟩ hstep
    have hacc' := (step_moved hstep).accounted hacc
    refine ⟨hacc', fun hlt => ?_⟩
    have hbefore := hexact (lt_of_le_of_lt (submitted_le_of_step hstep) hlt)
    cases l with
    | start t op =>
        obtain ⟨-, hstart⟩ := Option.ite_none_right_eq_some.mp hstep
        cases op with
        | spawn | wake | preemptCurrent =>
            cases hstart
            exact hbefore
        | spawnOnCore | schedule | blockCurrent =>
            obtain ⟨-, heq⟩ := Option.ite_none_right_eq_some.mp hstart
            cases heq
            exact hbefore
    | step t =>
        obtain ⟨sched, c, out, hadv, rfl⟩ := advance_cases hstep
        exact hbefore.advances hadv fun rq hrq =>
          lt_of_le_of_lt (hacc'.length_queue_le hrq) hlt
  · refine ⟨new_accounted numCores, fun _ rq hrq => ?_⟩
    obtain ⟨core, -, rfl⟩ := List.mem_map.mp hrq
    exact ⟨rfl, Nat.two_pow_pos 64⟩

/-! ### The answer of `schedule` -/

/-- The length read in a round of a search is that of the queue. -/
theorem CountersExact.len_eq {sched : Scheduler Submission} (h : CountersExact sched) {i : ℕ}
    {rq : RunQueue Submission} (hrq : sched.runQueues[i]? = some rq) :
    rq.len = (sched.queueOf i).length := by
  rw [Scheduler.queueOf_of_getElem? hrq]
  exact (h rq (List.mem_of_getElem? hrq)).len_eq

/-- What `busiest_core` has seen since `s₁`, once it has been through the queues
below `i`: its threshold is above 1 only if there is a victim, a victim had
tasks to spare, and without one none of these queues had any. -/
structure Search (s₁ : State T) (mid : List (Label T)) (core i : ℕ) (acc : ℕ × Option ℕ) :
    Prop where
  one_le : 1 ≤ acc.1
  none_found : acc.2 = none → acc.1 = 1 ∧ ∀ j < i, j ≠ core →
    Sometime step (fun m => (m.sched.queueOf j).length ≤ 1) s₁ mid
  found : ∀ victim, acc.2 = some victim → victim ≠ core ∧
    Sometime step (fun m => 2 ≤ (m.sched.queueOf victim).length) s₁ mid

/-- What there is to say for the answer `None` of a call for `core`. -/
def NothingToRun (s₁ : State T) (mid : List (Label T)) (core : ℕ) : Prop :=
  (∀ j, j ≠ core → Sometime step (fun m => (m.sched.queueOf j).length ≤ 1) s₁ mid) ∨
    ∃ victim, victim ≠ core ∧ SometimeThen step (fun m => 2 ≤ (m.sched.queueOf victim).length)
      (fun m => (m.sched.queueOf victim).length ≤ 1) s₁ mid

/-- What a call of `schedule` for `core` has seen since it started in `s₁`. -/
def Call.Saw (s₁ : State T) (mid : List (Label T)) (core : ℕ) : Call Submission → Prop
  | .popping c => c = core
  | .busiest c i acc => c = core ∧
      Sometime step (fun m => m.sched.queueOf core = []) s₁ mid ∧ Search s₁ mid core i acc
  | .stealing c victim => c = core ∧
      Sometime step (fun m => m.sched.queueOf core = []) s₁ mid ∧ victim ≠ core ∧
      Sometime step (fun m => 2 ≤ (m.sched.queueOf victim).length) s₁ mid
  | .returning c none => c = core ∧
      Sometime step (fun m => m.sched.queueOf core = []) s₁ mid ∧ NothingToRun s₁ mid core
  | .idle | .leastLoaded _ _ _ | .pushing _ _ | .repushing _ _ _ | .returning _ (some _) => True

section Answer

variable {s₁ m m' : State T} {mid : List (Label T)} {core : ℕ}

theorem Search.append {i : ℕ} {acc : ℕ × Option ℕ} (h : Search s₁ mid core i acc)
    (more : List (Label T)) : Search s₁ (mid ++ more) core i acc where
  one_le := h.one_le
  none_found hnone :=
    ⟨(h.none_found hnone).1, fun j hj hne => ((h.none_found hnone).2 j hj hne).append more⟩
  found victim hvictim := ⟨(h.found victim hvictim).1, (h.found victim hvictim).2.append more⟩

theorem NothingToRun.append (h : NothingToRun s₁ mid core) (more : List (Label T)) :
    NothingToRun s₁ (mid ++ more) core := by
  rcases h with hnone | ⟨victim, hne, hthen⟩
  · exact .inl fun j hj => (hnone j hj).append more
  · exact .inr ⟨victim, hne, hthen.append more⟩

/-- What a call has seen stays seen while the others go on. -/
theorem Call.Saw.append {c : Call Submission} (h : c.Saw s₁ mid core)
    (more : List (Label T)) : c.Saw s₁ (mid ++ more) core := by
  cases c with
  | idle | leastLoaded | pushing | repushing => trivial
  | popping c => exact h
  | busiest c i acc => exact ⟨h.1, h.2.1.append more, h.2.2.append more⟩
  | stealing c victim => exact ⟨h.1, h.2.1.append more, h.2.2.1, h.2.2.2.append more⟩
  | returning c result =>
      cases result with
      | none => exact ⟨h.1, h.2.1.append more, h.2.2.append more⟩
      | some x => trivial

/-- A round of `busiest_core`. -/
theorem Search.round {i : ℕ} {acc : ℕ × Option ℕ} (h : Search s₁ mid core i acc)
    (hrun : run step s₁ mid = some m) :
    Search s₁ mid core (i + 1)
      (Scheduler.busiestStep core acc i (m.sched.queueOf i).length) := by
  unfold Scheduler.busiestStep
  split_ifs with hcore hmore
  · refine ⟨h.one_le, fun hnone => ⟨(h.none_found hnone).1, fun j hj hne => ?_⟩, h.found⟩
    exact (h.none_found hnone).2 j (by omega) hne
  · have hone := h.one_le
    refine ⟨by omega, nofun, ?_⟩
    rintro victim ⟨rfl⟩
    exact ⟨hcore, .last hrun (by omega)⟩
  · refine ⟨h.one_le, fun hnone => ⟨(h.none_found hnone).1, fun j hj hne => ?_⟩, h.found⟩
    obtain ⟨hload, hbelow⟩ := h.none_found hnone
    by_cases hlast : j = i
    · subst hlast
      exact .last hrun (by omega)
    · exact hbelow j (by omega) hne

/-- A search that has come to the end of the queues. -/
theorem Search.nothing {i load : ℕ} (h : Search s₁ mid core i (load, none))
    (hrun : run step s₁ mid = some m) (hend : m.sched.runQueues[i]? = none) :
    NothingToRun s₁ mid core := by
  left
  intro j hne
  by_cases hj : j < i
  · exact (h.none_found rfl).2 j hj hne
  · have hout : m.sched.runQueues[j]? = none := by
      rw [List.getElem?_eq_none_iff] at hend ⊢
      omega
    exact .last hrun (by simp [Scheduler.queueOf, hout])

/-- A step of the call itself. -/
theorem Call.Saw.advances {sched' : Scheduler Submission} {c c' : Call Submission}
    {out : List (ℕ × Submission)} (h : c.Saw s₁ mid core) (hrun : run step s₁ mid = some m)
    (hexact : CountersExact m.sched) (hadv : Advances m.sched c sched' c' out) :
    c'.Saw s₁ mid core := by
  cases hadv with
  | leastFound | readLeast | push | pop | steal | repush | repushed | handOut => trivial
  | popNone hpop =>
      obtain rfl := h
      obtain ⟨_, _, -, hsome, -⟩ | ⟨hempty, -, -⟩ := Scheduler.queueOf_popFrom hpop
      · cases hsome
      · refine ⟨rfl, .last hrun hempty, le_rfl, fun _ => ⟨rfl, nofun⟩, nofun⟩
  | readBusiest hrq =>
      obtain ⟨rfl, hempty, hsearch⟩ := h
      rw [hexact.len_eq hrq]
      exact ⟨rfl, hempty, hsearch.round hrun⟩
  | busiestFound hend =>
      obtain ⟨rfl, hempty, hsearch⟩ := h
      exact ⟨rfl, hempty, hsearch.found _ rfl⟩
  | busiestNone hend =>
      obtain ⟨rfl, hempty, hsearch⟩ := h
      exact ⟨rfl, hempty, hsearch.nothing hrun hend⟩
  | stealNone hsteal =>
      obtain ⟨rfl, hempty, hne, htwo⟩ := h
      have hback := congrArg List.length (Scheduler.queueOf_stealFrom hsteal).1
      rw [List.length_nil, List.length_reverse, List.length_drop] at hback
      refine ⟨rfl, hempty, .inr ⟨_, hne, htwo.and_last hrun ?_⟩⟩
      omega

/-- A call has seen what it says, whatever the others do meanwhile. -/
theorem saw_of_run [Fintype T] {numCores : ℕ} (hreach : Reachable step (new T numCores) s₁)
    (hstarted : s₁.calls t = .popping core) (hmid : ∀ op, .start t op ∉ mid)
    (hrun : run step s₁ mid = some m) (hbound : m.submitted.length < 2 ^ 64) :
    (m.calls t).Saw s₁ mid core := by
  induction mid using List.reverseRecOn generalizing m with
  | nil =>
      obtain rfl := Option.some.inj hrun
      rw [hstarted]
      rfl
  | append_singleton front l ih =>
      rw [run_append, Option.bind_eq_some_iff] at hrun
      obtain ⟨x, hfront, hstep⟩ := hrun
      rw [run_singleton] at hstep
      have hx : x.submitted.length < 2 ^ 64 :=
        lt_of_le_of_lt (submitted_le_of_step hstep) hbound
      have hsaw := ih (fun op hop => hmid op (List.mem_append_left _ hop)) hfront hx
      by_cases hne : t = l.thread
      · cases l with
        | start u op =>
            obtain rfl : t = u := hne
            exact absurd (List.mem_append_right _ (List.mem_singleton_self _)) (hmid op)
        | step u =>
            obtain rfl : t = u := hne
            obtain ⟨sched, c, out, hadv, rfl⟩ := advance_cases hstep
            have hafter := hsaw.advances hfront (counters_exact (hreach.run hfront) hx) hadv
            simpa [State.after, State.setCall] using hafter.append [.step t]
      · rw [step_calls_of_ne hstep hne]
        exact hsaw.append [l]

end Answer

/-- **When `schedule` returns nothing, there was nothing to run, one queue at a
time.** A call of `schedule` or `block_current` for `core` starts in `s`; the
threads go on in any order, and the call is about to return `None` in `m`. At
some instant of the call the own queue was empty. And either each other queue
had at most one task at some instant of the call, or the victim of the search,
with two tasks or more when its length was read, had at most one left when the
call came to steal. -/
theorem none_answer [Fintype T] {numCores core : ℕ} {s₁ m : State T} {op : Op}
    {mid : List (Label T)} (hreach : Reachable step (new T numCores) s)
    (hop : op = .schedule core ∨ op = .blockCurrent core)
    (hstart : step s (.start t op) = some s₁) (hmid : ∀ op, .start t op ∉ mid)
    (hrun : run step s₁ mid = some m) (hreturn : m.calls t = .returning core none)
    (hbound : m.submitted.length < 2 ^ 64) :
    Sometime step (fun x => x.sched.queueOf core = []) s₁ mid ∧
    ((∀ j, j ≠ core → Sometime step (fun x => (x.sched.queueOf j).length ≤ 1) s₁ mid) ∨
      ∃ victim, victim ≠ core ∧
        SometimeThen step (fun x => 2 ≤ (x.sched.queueOf victim).length)
          (fun x => (x.sched.queueOf victim).length ≤ 1) s₁ mid) := by
  have hstarted : s₁.calls t = .popping core := by
    obtain ⟨-, hstart⟩ := Option.ite_none_right_eq_some.mp hstart
    rcases hop with rfl | rfl
    all_goals
      obtain ⟨-, heq⟩ := Option.ite_none_right_eq_some.mp hstart
      obtain rfl := Option.some.inj heq
      exact Function.update_self ..
  have hsaw := saw_of_run (hreach.of_step hstart) hstarted hmid hrun hbound
  rw [hreturn] at hsaw
  exact hsaw.2

/-- Core 1 finds two tasks on core 0, which takes one of them itself before core 1
comes to steal. -/
theorem none_answer_raced :
    let setup : List (Label (Fin 2)) := spawnPinned 0 1 0 ++ spawnPinned 0 2 0
    let mid : List (Label (Fin 2)) :=
      [.step 1, .step 1, .step 1, .step 1, .start 0 (.schedule 0), .step 0, .step 1]
    ∃ s s₁ m, run step (new (Fin 2) 2) setup = some s ∧
      step s (.start 1 (.schedule 1)) = some s₁ ∧ run step s₁ mid = some m ∧
      m.calls 1 = .returning 1 none ∧
      Sometime step (fun x => x.sched.queueOf 1 = []) s₁ mid := by
  intro setup mid
  obtain ⟨s, s₁, m, hs, hstart, hrun, hreturn, hbound⟩ : ∃ s s₁ m,
      run step (new (Fin 2) 2) setup = some s ∧ step s (.start 1 (.schedule 1)) = some s₁ ∧
      run step s₁ mid = some m ∧ m.calls 1 = .returning 1 none ∧
      m.submitted.length < 2 ^ 64 := ⟨_, _, _, rfl, rfl, rfl, by decide, by decide⟩
  refine ⟨s, s₁, m, hs, hstart, hrun, hreturn, ?_⟩
  exact (none_answer ⟨setup, hs⟩ (.inl rfl) hstart (by simp [mid]) hrun hreturn hbound).1

/-! ### The answers of `queue_lengths` and `total_queued` -/

/-- A call of `queue_lengths` or `total_queued` beside the calls of the threads,
and the lengths it has read so far. -/
structure Survey (T : Type) where
  state : State T
  lens : List ℕ

inductive SurveyLabel (T : Type)
  | call (l : Label T)
  | read
  deriving DecidableEq, Repr

def surveyStep (v : Survey T) : SurveyLabel T → Option (Survey T)
  | .call l => (step v.state l).map fun s => { v with state := s }
  | .read => v.state.sched.runQueues[v.lens.length]?.map fun rq =>
      { v with lens := v.lens ++ [rq.len] }

section Survey

variable {v v' : Survey T} {a : SurveyLabel T} {ls : List (SurveyLabel T)} {numCores : ℕ}

/-- What one step of a survey can do. -/
theorem surveyStep_cases (h : surveyStep v a = some v') :
    (∃ l, a = .call l ∧ step v.state l = some v'.state ∧ v'.lens = v.lens) ∨
    (a = .read ∧ v'.state = v.state ∧ ∃ rq, v.state.sched.runQueues[v.lens.length]? = some rq ∧
      v'.lens = v.lens ++ [rq.len]) := by
  cases a with
  | call l =>
      obtain ⟨s', hstep, rfl⟩ := Option.map_eq_some_iff.mp h
      exact .inl ⟨l, rfl, hstep, rfl⟩
  | read =>
      obtain ⟨rq, hrq, rfl⟩ := Option.map_eq_some_iff.mp h
      exact .inr ⟨rfl, rfl, rq, hrq, rfl⟩

theorem reachable_of_survey (hreach : Reachable step (new T numCores) v.state)
    (hrun : run surveyStep v ls = some v') : Reachable step (new T numCores) v'.state := by
  refine run_invariant (I := fun v : Survey T => Reachable step (new T numCores) v.state)
    (fun v a v' hv hstep => ?_) hreach hrun
  obtain ⟨l, -, hcall, -⟩ | ⟨-, hsame, -⟩ := surveyStep_cases hstep
  · exact hv.of_step hcall
  · rwa [hsame]

theorem submitted_le_of_survey (hstep : surveyStep v a = some v') :
    v.state.submitted.length ≤ v'.state.submitted.length := by
  obtain ⟨l, -, hcall, -⟩ | ⟨-, hsame, -⟩ := surveyStep_cases hstep
  · exact submitted_le_of_step hcall
  · rw [hsame]

/-- Every length read is that of the queue when it was read. -/
theorem lens_sometime [Fintype T] (hreach : Reachable step (new T numCores) s)
    (hrun : run surveyStep ⟨s, []⟩ ls = some v) (hbound : v.state.submitted.length < 2 ^ 64)
    {i len : ℕ} (hi : v.lens[i]? = some len) :
    Sometime surveyStep (fun m => (m.state.sched.queueOf i).length = len) ⟨s, []⟩ ls := by
  induction ls using List.reverseRecOn generalizing v with
  | nil =>
      obtain rfl := Option.some.inj hrun
      simp at hi
  | append_singleton front a ih =>
      rw [run_append, Option.bind_eq_some_iff] at hrun
      obtain ⟨m, hfront, hstep⟩ := hrun
      rw [run_singleton] at hstep
      have hm := lt_of_le_of_lt (submitted_le_of_survey hstep) hbound
      obtain ⟨l, -, -, hlens⟩ | ⟨-, -, rq, hrq, hlens⟩ := surveyStep_cases hstep
      · exact (ih hfront hm (hlens ▸ hi)).append [a]
      · rw [hlens] at hi
        by_cases hold : i < m.lens.length
        · rw [List.getElem?_append_left hold] at hi
          exact (ih hfront hm hi).append [a]
        · have hread := (List.getElem?_eq_some_iff.mp hi).1
          rw [List.length_append, List.length_singleton] at hread
          obtain rfl : i = m.lens.length := by omega
          rw [List.getElem?_concat_length, Option.some.injEq] at hi
          have hexact := counters_exact (reachable_of_survey hreach hfront) hm
          refine Sometime.append (.last hfront ?_) [a]
          rw [← hexact.len_eq hrq, hi]

/-- The tasks whose queues have been read and that have been there all the time
have been counted. -/
theorem card_le_lens [Fintype T] (hreach : Reachable step (new T numCores) s)
    (hrun : run surveyStep ⟨s, []⟩ ls = some v) (hbound : v.state.submitted.length < 2 ^ 64)
    {stay : Finset Submission} {home : Submission → ℕ}
    (hstay : Throughout surveyStep
      (fun m => ∀ x ∈ stay, x ∈ m.state.sched.queueOf (home x)) ⟨s, []⟩ ls) :
    (stay.filter fun x => home x < v.lens.length).card ≤ v.lens.sum := by
  refine (run_invariant_of_stepsMeet (I := fun v : Survey T =>
    Reachable step (new T numCores) v.state ∧ (v.state.submitted.length < 2 ^ 64 →
      (stay.filter fun x => home x < v.lens.length).card ≤ v.lens.sum))
    (fun m a m' hm hall hstep => ?_) ⟨hreach, fun _ => by simp⟩ hstay.stepsMeet hrun).2 hbound
  obtain ⟨hm, hcount⟩ := hm
  have hroom : m'.state.submitted.length < 2 ^ 64 → m.state.submitted.length < 2 ^ 64 :=
    lt_of_le_of_lt (submitted_le_of_survey hstep)
  obtain ⟨l, -, hcall, hlens⟩ | ⟨-, hsame, rq, hrq, hlens⟩ := surveyStep_cases hstep
  · rw [hlens]
    exact ⟨hm.of_step hcall, fun hlt => hcount (hroom hlt)⟩
  · refine ⟨hsame ▸ hm, fun hlt => ?_⟩
    have hexact := counters_exact hm (hroom hlt)
    have hhere : (stay.filter fun x => home x = m.lens.length) ⊆
        (m.state.sched.queueOf m.lens.length).toFinset := by
      intro x hx
      obtain ⟨hx, hhome⟩ := Finset.mem_filter.mp hx
      rw [List.mem_toFinset, ← hhome]
      exact hall.1 x hx
    have hsplit : (stay.filter fun x => home x < (m.lens ++ [rq.len]).length) =
        (stay.filter fun x => home x < m.lens.length) ∪
          stay.filter fun x => home x = m.lens.length := by
      rw [← Finset.filter_or]
      apply Finset.filter_congr
      intro x _
      rw [List.length_append, List.length_singleton]
      omega
    rw [hlens, hsplit, List.sum_append, List.sum_singleton, hexact.len_eq hrq]
    calc _ ≤ _ + _ := Finset.card_union_le ..
      _ ≤ m.lens.sum + (m.state.sched.queueOf m.lens.length).length :=
          Nat.add_le_add (hcount (hroom hlt))
            ((Finset.card_le_card hhere).trans (List.toFinset_card_le _))

/-- Nobody else moves. -/
theorem lens_alone (hrun : run surveyStep ⟨s, []⟩ ls = some v) (halone : ∀ a ∈ ls, a = .read) :
    v.state = s ∧ v.lens = s.sched.queueLengths.take v.lens.length := by
  have hall : StepsMeet surveyStep (fun _ _ => True) ⟨s, []⟩ ls :=
    stepsMeet_of_forall (fun _ _ => trivial) _ _
  refine run_invariant_of_stepsMeet (I := fun v : Survey T => v.state = s ∧
    v.lens = s.sched.queueLengths.take v.lens.length) (fun m a m' hm ha hstep => ?_)
    ⟨rfl, rfl⟩ (hall.and_forall_mem halone) hrun
  obtain ⟨rfl, htake⟩ := hm
  obtain ⟨l, rfl, -, -⟩ | ⟨-, hsame, rq, hrq, hlens⟩ := surveyStep_cases hstep
  · cases ha.2
  · refine ⟨hsame, ?_⟩
    have hlen : m.state.sched.queueLengths[m.lens.length]? = some rq.len := by
      rw [Scheduler.queueLengths, List.getElem?_map, hrq, Option.map_some]
    rw [hlens, List.length_append, List.length_singleton, List.take_add_one, ← htake, hlen]
    rfl

end Survey

/-- The number of tasks in all queues. -/
theorem sum_queueLengths {sched : Scheduler Submission} (h : CountersExact sched) :
    sched.queueLengths.sum = (queued sched).card := by
  have hmap := map_list_sum (Multiset.cardHom (α := Submission))
    (sched.runQueues.map fun rq => (rq.queue : Multiset Submission))
  rw [queued, ← Multiset.cardHom_apply, hmap, List.map_map, Scheduler.queueLengths]
  apply congrArg
  apply List.map_congr_left
  intro rq hrq
  exact (h rq hrq).len_eq

/-- **What `queue_lengths` and `total_queued` count.** Their loads of the lengths
come at any time between the steps of the threads. Every length was that of
its queue at some instant of the call, and a task that is in one and the same
queue during all of the call is counted, however many others are pushed, popped
and stolen meanwhile. If nobody else moves, the total is what was submitted, was
not handed out and is not in the hands of a call. -/
theorem survey_counts [Fintype T] {numCores : ℕ} {v : Survey T} {ls : List (SurveyLabel T)}
    (hreach : Reachable step (new T numCores) s) (hrun : run surveyStep ⟨s, []⟩ ls = some v)
    (hall : v.lens.length = numCores) (hbound : v.state.submitted.length < 2 ^ 64) :
    (∀ i len, v.lens[i]? = some len →
      Sometime surveyStep (fun m => (m.state.sched.queueOf i).length = len) ⟨s, []⟩ ls) ∧
    (∀ (stay : Finset Submission) (home : Submission → ℕ),
      Throughout surveyStep (fun m => ∀ x ∈ stay, x ∈ m.state.sched.queueOf (home x))
        ⟨s, []⟩ ls → stay.card ≤ v.lens.sum) ∧
    ((∀ a ∈ ls, a = .read) → v.lens = s.sched.queueLengths ∧
      s.sched.totalQueued = some v.lens.sum ∧
      v.lens.sum + (inTransit s).card + s.handedOut.length = s.submitted.length) := by
  have hlength : s.sched.runQueues.length = numCores := length_of_reachable hreach
  refine ⟨fun i len => lens_sometime hreach hrun hbound, fun stay home hstay => ?_,
    fun halone => ?_⟩
  · have hcard := card_le_lens hreach hrun hbound hstay
    rwa [Finset.filter_true_of_mem] at hcard
    intro x hx
    have hx := hstay.head x hx
    rw [hall, ← hlength]
    by_contra hout
    rw [Scheduler.queueOf, List.getElem?_eq_none (Nat.not_lt.mp hout)] at hx
    cases hx
  · obtain ⟨hstate, hlens⟩ := lens_alone hrun halone
    rw [hstate] at hbound
    rw [hall, ← hlength, List.take_of_length_le (by simp [Scheduler.queueLengths])] at hlens
    have hexact := counters_exact hreach hbound
    obtain ⟨as, has⟩ := hreach
    have htotal := congrArg Multiset.card (accounted_of_run has).total
    rw [Multiset.card_add, Multiset.card_add, returned, Multiset.coe_card, Multiset.coe_card,
      List.length_map, ← sum_queueLengths hexact, ← hlens] at htotal
    refine ⟨hlens, ?_, by omega⟩
    rw [Scheduler.totalQueued, ← hlens, if_pos (by omega)]

/-- The task on core 1 is taken between the two loads, the one on core 0 is counted. -/
theorem survey_counts_popped :
    let setup : List (Label (Fin 2)) := spawnPinned 0 1 0 ++ spawnPinned 0 2 1
    let ls : List (SurveyLabel (Fin 2)) :=
      [.read, .call (.start 1 (.schedule 1)), .call (.step 1), .read]
    ∃ s v, run step (new (Fin 2) 2) setup = some s ∧ run surveyStep ⟨s, []⟩ ls = some v ∧
      v.lens = [1, 0] ∧
      Sometime surveyStep (fun m => (m.state.sched.queueOf 1).length = 0) ⟨s, []⟩ ls := by
  intro setup ls
  obtain ⟨s, v, hs, hrun, hlens, hbound⟩ : ∃ s v, run step (new (Fin 2) 2) setup = some s ∧
      run surveyStep ⟨s, []⟩ ls = some v ∧ v.lens = [1, 0] ∧
      v.state.submitted.length < 2 ^ 64 := ⟨_, _, rfl, rfl, by decide, by decide⟩
  refine ⟨s, v, hs, hrun, hlens, ?_⟩
  exact (survey_counts ⟨setup, hs⟩ hrun (by rw [hlens]; rfl) hbound).1 1 0 (by rw [hlens]; rfl)

end Interleaving

end SmpNostd
