import SmpNostd.Scheduler.Interleaving

/-!
The calls of the scheduler, run alone and run together.

A call that nobody interrupts does what the function it is a call of does. A
call that is interrupted can always go on, as long as the calls are made with
cores that exist: the indices that it has read out of old lengths stay in
bounds, so that it does not panic, whatever the others do.
-/

namespace SmpNostd

namespace Scheduler

variable {τ : Type}

/-- The end of `schedule`, when there is a victim to steal from. -/
def stealFor (s : Scheduler τ) (core victim : ℕ) : Option (Option τ × Scheduler τ) :=
  (s.stealFrom victim).bind fun
    | ([], s) => some (none, s)
    | (first :: rest, s) => (s.repush core rest).map fun s => (some first, s)

/-- The end of `schedule`, when the own queue is empty. -/
def scheduleFrom (s : Scheduler τ) (core : ℕ) (victim : Option ℕ) :
    Option (Option τ × Scheduler τ) :=
  match victim with
  | none => some (none, s)
  | some victim => s.stealFor core victim

end Scheduler

namespace Interleaving

open Machine

variable {T : Type} [DecidableEq T]

/-! ### Calls run alone -/

/-- A task has been submitted, and the queues are those of `sched`. -/
def State.accept (s : State T) (x : Submission) (sched : Scheduler Submission) : State T :=
  { s with sched := sched, submitted := s.submitted ++ [x] }

/-- `schedule` has returned `result` on `core`, and the queues are those of
`sched`. -/
def State.handOut (s : State T) (core : ℕ) (result : Option Submission)
    (sched : Scheduler Submission) : State T :=
  { s with sched := sched, handedOut := s.handedOut ++ result.toList.map (core, ·) }

/-- What a call does to the state when it is one step. -/
def Op.alone (s : State T) : Op → Option (State T)
  | .spawn task =>
      let x : Submission := ⟨s.submitted.length, task⟩
      (s.sched.spawn x).map (s.accept x)
  | .spawnOnCore core task =>
      let x : Submission := ⟨s.submitted.length, task⟩
      (s.sched.spawnOnCore core x).map (s.accept x)
  | .wake task targetCore =>
      let x : Submission := ⟨s.submitted.length, task⟩
      (s.sched.wake x targetCore).map (s.accept (TaskLike.setState x .ready))
  | .preemptCurrent core task =>
      let x : Submission := ⟨s.submitted.length, task⟩
      (s.sched.preemptCurrent core x).map (s.accept (TaskLike.setState x .ready))
  | .schedule core =>
      (s.sched.schedule core).map fun (result, sched) => s.handOut core result sched
  | .blockCurrent core =>
      (s.sched.blockCurrent core).map fun (result, sched) => s.handOut core result sched

/-- Thread `t`, stepping alone, finishes its call and leaves the state `s'`. -/
def Finishes (s : State T) (t : T) (s' : State T) : Prop :=
  ∃ n, run step s (List.replicate n (.step t)) = some s'

theorem Finishes.refl (s : State T) (t : T) : Finishes s t s := ⟨0, rfl⟩

theorem Finishes.run {s m s' : State T} {t : T} {n : ℕ}
    (hrun : Machine.run step s (List.replicate n (.step t)) = some m) (h : Finishes m t s') :
    Finishes s t s' := by
  obtain ⟨k, hk⟩ := h
  refine ⟨n + k, ?_⟩
  rw [List.replicate_add, run_append, hrun, Option.bind_some, hk]

/-- One step of a call in progress. -/
theorem Finishes.next {m m' s' : State T} {t : T} {c c' : Call Submission}
    (hstep : advance (m.setCall t c) t c = some (m'.setCall t c'))
    (h : Finishes (m'.setCall t c') t s') : Finishes (m.setCall t c) t s' := by
  have hcall : (m.setCall t c).calls t = c := Function.update_self ..
  refine h.run (n := 1) ?_
  simp [Interleaving.step, hcall, hstep]

variable {s : State T} {t : T} {sched : Scheduler Submission} {core : ℕ}

theorem finishes_pushing {x : Submission} (h : s.sched.pushTo core x = some sched) :
    Finishes (s.setCall t (.pushing core x)) t ({ s with sched := sched }.setCall t .idle) :=
  Finishes.next (by simp [advance, State.setCall, h]) (.refl _ t)

theorem finishes_returning (s : State T) (t : T) (core : ℕ) (result : Option Submission) :
    Finishes (s.setCall t (.returning core result)) t
      ((s.handOut core result s.sched).setCall t .idle) :=
  Finishes.next (by simp [advance, State.setCall, State.handOut]) (.refl _ t)

theorem finishes_repushing {first : Submission} {rest : List Submission}
    (h : s.sched.repush core rest = some sched) :
    Finishes (s.setCall t (.repushing core first rest)) t
      ((s.handOut core (some first) sched).setCall t .idle) := by
  induction rest generalizing s with
  | nil =>
      obtain rfl := Option.some.inj h
      exact Finishes.next (by simp [advance, State.setCall])
        (finishes_returning s t core (some first))
  | cons x rest ih =>
      simp only [Scheduler.repush, Option.bind_eq_some_iff] at h
      obtain ⟨sched', hpush, hrest⟩ := h
      have hnext : advance (s.setCall t (.repushing core first (x :: rest))) t
          (.repushing core first (x :: rest)) =
          some ({ s with sched := sched' }.setCall t (.repushing core first rest)) := by
        simp [advance, State.setCall, hpush]
      exact Finishes.next hnext (ih hrest)

theorem finishes_stealing {victim : ℕ} {result : Option Submission}
    (h : s.sched.stealFor core victim = some (result, sched)) :
    Finishes (s.setCall t (.stealing core victim)) t
      ((s.handOut core result sched).setCall t .idle) := by
  simp only [Scheduler.stealFor, Option.bind_eq_some_iff] at h
  obtain ⟨⟨stolen, sched'⟩, hsteal, hrest⟩ := h
  cases stolen with
  | nil =>
      obtain ⟨rfl, rfl⟩ := Prod.mk.inj (Option.some.inj hrest)
      have hnext : advance (s.setCall t (.stealing core victim)) t (.stealing core victim) =
          some ({ s with sched := sched' }.setCall t (.returning core none)) := by
        simp [advance, State.setCall, hsteal]
      exact Finishes.next hnext (finishes_returning _ t core none)
  | cons first rest =>
      simp only [Option.map_eq_some_iff, Prod.mk.injEq] at hrest
      obtain ⟨sched'', hrepush, rfl, rfl⟩ := hrest
      have hnext : advance (s.setCall t (.stealing core victim)) t (.stealing core victim) =
          some ({ s with sched := sched' }.setCall t (.repushing core first rest)) := by
        simp [advance, State.setCall, hsteal]
      exact Finishes.next hnext (finishes_repushing hrepush)

/-- A loop over the lengths: `mk i acc` is the call about to read length `i`,
and `f` what it makes of it. -/
theorem run_reads {β : Type} (mk : ℕ → β → Call Submission) (f : β → ℕ → ℕ → β)
    (hread : ∀ (s : State T) i acc rq, s.sched.runQueues[i]? = some rq →
      advance s t (mk i acc) = some (s.setCall t (mk (i + 1) (f acc i rq.len))))
    (s : State T) (rest : List (RunQueue Submission)) (i : ℕ) (acc : β)
    (hrest : s.sched.runQueues.drop i = rest) :
    run step (s.setCall t (mk i acc)) (List.replicate rest.length (.step t)) =
      some (s.setCall t (mk (i + rest.length)
        ((rest.zipIdx i).foldl (fun acc q => f acc q.2 q.1.len) acc))) := by
  induction rest generalizing i acc with
  | nil => rfl
  | cons rq rest ih =>
      have hrq : s.sched.runQueues[i]? = some rq := by
        rw [← List.head?_drop, hrest, List.head?_cons]
      have htail : s.sched.runQueues.drop (i + 1) = rest := by
        rw [← List.tail_drop, hrest, List.tail_cons]
      have hstep : step (s.setCall t (mk i acc)) (.step t) =
          some (s.setCall t (mk (i + 1) (f acc i rq.len))) := by
        have hcall : (s.setCall t (mk i acc)).calls t = mk i acc := Function.update_self ..
        simp only [Interleaving.step, hcall]
        rw [hread (s.setCall t (mk i acc)) i acc rq hrq]
        simp [State.setCall]
      rw [List.length_cons, List.replicate_succ, run_cons, hstep, Option.bind_some,
        ih (i + 1) _ htail, List.zipIdx_cons, List.foldl_cons, Nat.add_right_comm, Nat.add_assoc]

theorem finishes_leastLoaded {x : Submission}
    (h : s.sched.pushTo s.sched.leastLoadedCore x = some sched) :
    Finishes (s.setCall t (.leastLoaded x 0 Scheduler.leastLoadedInit)) t
      ({ s with sched := sched }.setCall t .idle) := by
  have hreads := run_reads (t := t) (.leastLoaded x) Scheduler.leastLoadedStep
    (fun s i acc rq hrq => by simp [advance, hrq]) s s.sched.runQueues 0
    Scheduler.leastLoadedInit List.drop_zero
  refine Finishes.run hreads ?_
  have hnext : ∀ acc, advance (s.setCall t (.leastLoaded x s.sched.runQueues.length acc)) t
      (.leastLoaded x s.sched.runQueues.length acc) =
      some (s.setCall t (.pushing acc.2 x)) := by
    intro acc
    simp [advance, State.setCall]
  rw [Nat.zero_add]
  exact Finishes.next (hnext _) (finishes_pushing h)

theorem finishes_busiest {result : Option Submission}
    (h : s.sched.scheduleFrom core (s.sched.busiestCore core) = some (result, sched)) :
    Finishes (s.setCall t (.busiest core 0 Scheduler.busiestInit)) t
      ((s.handOut core result sched).setCall t .idle) := by
  have hreads := run_reads (t := t) (.busiest core) (Scheduler.busiestStep core)
    (fun s i acc rq hrq => by simp [advance, hrq]) s s.sched.runQueues 0
    Scheduler.busiestInit List.drop_zero
  refine Finishes.run hreads ?_
  rw [Nat.zero_add]
  generalize hacc : s.sched.runQueues.zipIdx.foldl
    (fun acc q => Scheduler.busiestStep core acc q.2 q.1.len) Scheduler.busiestInit = acc
  have hbusiest : s.sched.busiestCore core = acc.2 := by rw [← hacc]; rfl
  rw [hbusiest] at h
  obtain ⟨load, victim⟩ := acc
  cases victim with
  | none =>
      obtain ⟨rfl, rfl⟩ := Prod.mk.inj (Option.some.inj h)
      exact Finishes.next (by simp [advance, State.setCall]) (finishes_returning s t core none)
  | some victim =>
      exact Finishes.next (by simp [advance, State.setCall]) (finishes_stealing h)

theorem finishes_popping {result : Option Submission}
    (h : s.sched.schedule core = some (result, sched)) :
    Finishes (s.setCall t (.popping core)) t ((s.handOut core result sched).setCall t .idle) := by
  simp only [Scheduler.schedule, Option.bind_eq_some_iff] at h
  obtain ⟨⟨popped, sched'⟩, hpop, hrest⟩ := h
  cases popped with
  | some x =>
      obtain ⟨rfl, rfl⟩ := Prod.mk.inj (Option.some.inj hrest)
      have hnext : advance (s.setCall t (.popping core)) t (.popping core) =
          some ({ s with sched := sched' }.setCall t (.returning core (some x))) := by
        simp [advance, State.setCall, hpop]
      exact Finishes.next hnext (finishes_returning _ t core (some x))
  | none =>
      have hnext : advance (s.setCall t (.popping core)) t (.popping core) =
          some ({ s with sched := sched' }.setCall t
            (.busiest core 0 Scheduler.busiestInit)) := by
        simp [advance, State.setCall, hpop]
      exact Finishes.next hnext (finishes_busiest hrest)

theorem setCall_idle (hidle : s.calls t = .idle) : s.setCall t .idle = s := by
  simp [State.setCall, ← hidle]

/-- A call that starts by submitting a task. -/
theorem submit_alone {op : Op} {x : Submission} {next : Submission → Call Submission}
    (hidle : s.calls t = .idle) (hx : x.seq = s.submitted.length)
    (hstart : start s t op = some (s.submit t x.task next))
    (hnext : Finishes ({ s with submitted := s.submitted ++ [x] }.setCall t (next x)) t
      ((s.accept x sched).setCall t .idle)) :
    ∃ n, run step s (.start t op :: List.replicate n (.step t)) = some (s.accept x sched) := by
  obtain ⟨n, hrun⟩ := hnext
  refine ⟨n, ?_⟩
  have hsub : s.submit t x.task next =
      { s with submitted := s.submitted ++ [x] }.setCall t (next x) := by
    simp [State.submit, ← hx]
  have hend : (s.accept x sched).setCall t .idle = s.accept x sched := setCall_idle hidle
  simp only [run_cons, Interleaving.step, hidle, if_true, hstart, Option.bind_some, hsub, hrun,
    hend]

/-- A call that starts by popping the queue of its core. -/
theorem schedule_alone {op : Op} {result : Option Submission} (hidle : s.calls t = .idle)
    (hstart : start s t op =
      if core < s.sched.runQueues.length then some (s.setCall t (.popping core)) else none)
    (h : s.sched.schedule core = some (result, sched)) :
    ∃ n, run step s (.start t op :: List.replicate n (.step t)) =
      some (s.handOut core result sched) := by
  obtain ⟨n, hrun⟩ := finishes_popping (t := t) h
  refine ⟨n, ?_⟩
  have hcore : core < s.sched.runQueues.length := by
    by_contra hge
    have hnone : s.sched.runQueues[core]? = none := List.getElem?_eq_none (not_lt.mp hge)
    simp [Scheduler.schedule, Scheduler.popFrom, hnone] at h
  have hend : (s.handOut core result sched).setCall t .idle = s.handOut core result sched :=
    setCall_idle hidle
  simp only [run_cons, Interleaving.step, hidle, if_true, hstart, hcore, Option.bind_some, hrun,
    hend]

/-- **A call that nobody interrupts** has the effect of the function it is a
call of. -/
theorem call_alone {op : Op} {s' : State T} (hidle : s.calls t = .idle)
    (h : op.alone s = some s') :
    ∃ n, run step s (.start t op :: List.replicate n (.step t)) = some s' := by
  cases op with
  | spawn task =>
      simp only [Op.alone, Option.map_eq_some_iff] at h
      obtain ⟨sched, hspawn, rfl⟩ := h
      apply submit_alone hidle rfl rfl
      simp only [Scheduler.spawn] at hspawn
      cases haff : TaskLike.affinity (⟨s.submitted.length, task⟩ : Submission) with
      | some affinity =>
          rw [haff] at hspawn
          exact finishes_pushing hspawn
      | none =>
          rw [haff] at hspawn
          exact finishes_leastLoaded hspawn
  | spawnOnCore core task =>
      simp only [Op.alone, Scheduler.spawnOnCore, Option.map_eq_some_iff,
        Option.ite_none_right_eq_some] at h
      obtain ⟨sched, ⟨hcore, hpush⟩, rfl⟩ := h
      exact submit_alone hidle rfl (if_pos hcore) (finishes_pushing hpush)
  | wake task targetCore =>
      simp only [Op.alone, Option.map_eq_some_iff] at h
      obtain ⟨sched, hpush, rfl⟩ := h
      exact submit_alone hidle rfl rfl (finishes_pushing hpush)
  | preemptCurrent core task =>
      simp only [Op.alone, Option.map_eq_some_iff] at h
      obtain ⟨sched, hpush, rfl⟩ := h
      exact submit_alone hidle rfl rfl (finishes_pushing hpush)
  | schedule core =>
      simp only [Op.alone, Option.map_eq_some_iff] at h
      obtain ⟨⟨result, sched⟩, hsched, rfl⟩ := h
      exact schedule_alone hidle rfl hsched
  | blockCurrent core =>
      simp only [Op.alone, Option.map_eq_some_iff] at h
      obtain ⟨⟨result, sched⟩, hsched, rfl⟩ := h
      exact schedule_alone hidle rfl hsched

/-! ### Calls never panic -/

/-- The cores a call still has to index the queues with exist. -/
def Call.InRange (numCores : ℕ) : Call Submission → Prop
  | .leastLoaded _ _ acc => acc.2 < numCores
  | .pushing core _ | .popping core | .repushing core _ _ => core < numCores
  | .busiest core _ acc => core < numCores ∧ ∀ victim ∈ acc.2, victim < numCores
  | .stealing core victim => core < numCores ∧ victim < numCores
  | .idle | .returning _ _ => True

/-- A call is made with cores that exist. -/
def Op.InRange (numCores : ℕ) : Op → Prop
  | .spawn task => ∀ a ∈ task.affinity, a < numCores
  | .spawnOnCore core _ | .wake _ core | .preemptCurrent core _ | .schedule core
  | .blockCurrent core => core < numCores

def Label.InRange (numCores : ℕ) : Label T → Prop
  | .start _ op => op.InRange numCores
  | .step _ => True

/-- There is a queue for every core, and the calls in progress keep to the
cores. -/
structure InRange (numCores : ℕ) (s : State T) : Prop where
  length : s.sched.runQueues.length = numCores
  numCores_eq : s.sched.numCores = numCores
  calls : ∀ t, (s.calls t).InRange numCores

section

variable {numCores : ℕ} {s' : State T}

omit [DecidableEq T] in
theorem new_inRange (numCores : ℕ) : InRange numCores (new T numCores) where
  length := by simp [new, Scheduler.new]
  numCores_eq := rfl
  calls _ := trivial

theorem InRange.setCall (h : InRange numCores s) {sched : Scheduler Submission}
    (hlength : sched.runQueues.length = s.sched.runQueues.length)
    (hnum : sched.numCores = s.sched.numCores) (t : T) {c : Call Submission}
    (hc : c.InRange numCores) : InRange numCores ({ s with sched := sched }.setCall t c) where
  length := hlength.trans h.length
  numCores_eq := hnum.trans h.numCores_eq
  calls u := by
    simp only [State.setCall, Function.update_apply]
    split
    · exact hc
    · exact h.calls u

theorem InRange.submit (h : InRange numCores s) (t : T) (task : Task)
    {next : Submission → Call Submission}
    (hnext : (next ⟨s.submitted.length, task⟩).InRange numCores) :
    InRange numCores (s.submit t task next) := by
  have hsub : InRange numCores
      { s with submitted := s.submitted ++ [⟨s.submitted.length, task⟩] } :=
    ⟨h.length, h.numCores_eq, h.calls⟩
  exact hsub.setCall rfl rfl t hnext

theorem InRange.start (h : InRange numCores s) (hpos : 0 < numCores) {op : Op}
    (hop : op.InRange numCores) (t : T) :
    ∃ s', start s t op = some s' ∧ InRange numCores s' := by
  cases op with
  | spawn task =>
      refine ⟨_, rfl, h.submit t task ?_⟩
      split
      · rename_i affinity haff
        exact hop affinity haff
      · exact hpos
  | spawnOnCore core task =>
      exact ⟨_, if_pos (h.numCores_eq ▸ hop), h.submit t task hop⟩
  | wake task targetCore => exact ⟨_, rfl, h.submit t _ hop⟩
  | preemptCurrent core task => exact ⟨_, rfl, h.submit t _ hop⟩
  | schedule core => exact ⟨_, if_pos (h.length ▸ hop), h.setCall rfl rfl t hop⟩
  | blockCurrent core => exact ⟨_, if_pos (h.length ▸ hop), h.setCall rfl rfl t hop⟩

/-- A round of `least_loaded_core` picks a queue that there is. -/
theorem leastLoadedStep_lt {acc : ℕ × ℕ} {i load : ℕ} (hacc : acc.2 < numCores)
    (hi : i < numCores) : (Scheduler.leastLoadedStep acc i load).2 < numCores := by
  unfold Scheduler.leastLoadedStep
  split
  · exact hi
  · exact hacc

theorem busiestStep_lt {acc : ℕ × Option ℕ} {i load : ℕ}
    (hacc : ∀ victim ∈ acc.2, victim < numCores) (hi : i < numCores) :
    ∀ victim ∈ (Scheduler.busiestStep core acc i load).2, victim < numCores := by
  unfold Scheduler.busiestStep
  split
  · exact hacc
  split
  · rintro victim ⟨rfl⟩
    exact hi
  · exact hacc

theorem Advances.inRange {sched sched' : Scheduler Submission} {c c' : Call Submission}
    {out : List (ℕ × Submission)} (h : Advances sched c sched' c' out)
    (hc : c.InRange sched.runQueues.length) : c'.InRange sched.runQueues.length := by
  cases h with
  | readLeast hrq => exact leastLoadedStep_lt hc (List.getElem?_eq_some_iff.mp hrq).1
  | leastFound => exact hc
  | popNone => exact ⟨hc, nofun⟩
  | readBusiest hrq =>
      exact ⟨hc.1, busiestStep_lt hc.2 (List.getElem?_eq_some_iff.mp hrq).1⟩
  | busiestFound => exact ⟨hc.1, hc.2 _ rfl⟩
  | steal => exact hc.1
  | repush => exact hc
  | push | pop | busiestNone | stealNone | repushed | handOut => trivial

theorem exists_queue (h : core < sched.runQueues.length) :
    ∃ rq, sched.runQueues[core]? = some rq :=
  ⟨_, List.getElem?_eq_getElem h⟩

/-- A call whose cores exist can go on. -/
theorem exists_advance (s : State T) (t : T) {c : Call Submission} (hcall : c ≠ .idle)
    (hc : c.InRange s.sched.runQueues.length) : ∃ s', advance s t c = some s' := by
  cases c with
  | idle => exact absurd rfl hcall
  | leastLoaded x i acc =>
      simp only [advance]
      split <;> exact ⟨_, rfl⟩
  | pushing core x =>
      obtain ⟨rq, hrq⟩ := exists_queue hc
      simp [advance, Scheduler.pushTo, hrq]
  | popping core =>
      obtain ⟨rq, hrq⟩ := exists_queue hc
      simp [advance, Scheduler.popFrom, hrq]
  | busiest core i acc =>
      simp only [advance]
      split <;> exact ⟨_, rfl⟩
  | stealing core victim =>
      obtain ⟨rq, hrq⟩ := exists_queue hc.2
      simp [advance, Scheduler.stealFrom, hrq]
  | repushing core first rest =>
      cases rest with
      | nil => exact ⟨_, rfl⟩
      | cons x rest =>
          obtain ⟨rq, hrq⟩ := exists_queue hc
          simp [advance, Scheduler.pushTo, hrq]
  | returning core result => exact ⟨_, rfl⟩

theorem InRange.advance (h : InRange numCores s)
    (hstep : advance s t (s.calls t) = some s') : InRange numCores s' := by
  obtain ⟨sched, c, out, hadv, rfl⟩ := advance_cases hstep
  have hcalls := h.calls t
  rw [← h.length] at hcalls
  have hout : InRange numCores { s with handedOut := s.handedOut ++ out } :=
    ⟨h.length, h.numCores_eq, h.calls⟩
  exact hout.setCall hadv.length.1 hadv.length.2 t (h.length ▸ hadv.inRange hcalls)

theorem InRange.step (h : InRange numCores s) (hpos : 0 < numCores) {l : Label T}
    (hl : l.InRange numCores) (hstep : step s l = some s') : InRange numCores s' := by
  cases l with
  | start t op =>
      simp only [Interleaving.step, Option.ite_none_right_eq_some] at hstep
      obtain ⟨m, hstart, hm⟩ := h.start hpos hl t
      obtain rfl := Option.some.inj (hstart.symm.trans hstep.2)
      exact hm
  | step t => exact h.advance hstep

/-- **No call panics.** In every run of calls with cores that exist, a thread
in a call can make its next step, and an idle thread can make any such call. -/
theorem calls_can_go_on (hpos : 0 < numCores) {as : List (Label T)}
    (hrun : run Interleaving.step (new T numCores) as = some s)
    (hrange : ∀ l ∈ as, l.InRange numCores) (t : T) :
    (s.calls t ≠ .idle → ∃ s', Interleaving.step s (.step t) = some s') ∧
    (s.calls t = .idle → ∀ op : Op, op.InRange numCores →
      ∃ s', Interleaving.step s (.start t op) = some s') := by
  have hmeet : StepsMeet Interleaving.step (fun _ l => True ∧ l.InRange numCores)
      (new T numCores) as :=
    (stepsMeet_of_forall (fun _ _ => trivial) _ as).and_forall_mem hrange
  have hinv : InRange numCores s := run_invariant_of_stepsMeet
    (fun _ _ _ h hl hstep => h.step hpos hl.2 hstep) (new_inRange numCores) hmeet hrun
  constructor
  · intro hcall
    have hcalls := hinv.calls t
    rw [← hinv.length] at hcalls
    exact exists_advance s t hcall hcalls
  · intro hidle op hop
    obtain ⟨s', hs', -⟩ := hinv.start hpos hop t
    exact ⟨s', by simp only [Interleaving.step, hidle, if_true, hs']⟩

end

end Interleaving

end SmpNostd
