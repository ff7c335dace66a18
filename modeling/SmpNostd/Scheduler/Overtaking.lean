import SmpNostd.Scheduler.Calls
import SmpNostd.Scheduler.Schedule

/-!
Bounded overtaking.

A run queue is served from its front, so a task waits for as many tasks as are
ahead of it. A thief takes the back half of a queue, last task first, and what
it does not run at once it queues in that order: a task that was last but `j`
of `n` ends up with `j - 1` tasks ahead of it. Since only the back half is
taken, that is fewer than the `n - 1 - j` it had ahead of it before, and a task
is never set back, wherever it is moved.

None of this depends on the length counters.
-/

namespace SmpNostd

namespace Scheduler

variable {τ : Type} {s s' : Scheduler τ} {core : ℕ}

/-! ### The operations as updates of the queues -/

theorem queueOf_set {rq : RunQueue τ} (h : s.runQueues[core]? = some rq) (rq' : RunQueue τ) :
    queueOf { s with runQueues := s.runQueues.set core rq' } =
      Function.update s.queueOf core rq'.queue := by
  have hlt : core < s.runQueues.length := (List.getElem?_eq_some_iff.mp h).1
  ext1 i
  by_cases hi : i = core
  · subst hi
    simp [queueOf, hlt]
  · rw [Function.update_of_ne hi]
    simp [queueOf, List.getElem?_set_ne (Ne.symm hi)]

theorem queueOf_pushTo {task : τ} (h : s.pushTo core task = some s') :
    s'.queueOf = Function.update s.queueOf core (s.queueOf core ++ [task]) := by
  simp only [pushTo, Option.map_eq_some_iff] at h
  obtain ⟨rq, hrq, rfl⟩ := h
  rw [queueOf_set hrq, queueOf_of_getElem? hrq, RunQueue.push]

theorem queueOf_repush {rest : List τ} (h : s.repush core rest = some s') :
    s'.queueOf = Function.update s.queueOf core (s.queueOf core ++ rest) := by
  induction rest generalizing s with
  | nil =>
      obtain rfl := Option.some.inj h
      rw [List.append_nil, Function.update_eq_self]
  | cons task rest ih =>
      simp only [repush, Option.bind_eq_some_iff] at h
      obtain ⟨m, hpush, hrest⟩ := h
      rw [ih hrest, queueOf_pushTo hpush, Function.update_idem, Function.update_self,
        List.append_assoc, List.singleton_append]

theorem queueOf_popFrom {result : Option τ} (h : s.popFrom core = some (result, s')) :
    (∃ task rest, s.queueOf core = task :: rest ∧ result = some task ∧
      s'.queueOf = Function.update s.queueOf core rest) ∨
    s.queueOf core = [] ∧ result = none ∧ s' = s := by
  simp only [popFrom, Option.map_eq_some_iff, Prod.mk.injEq] at h
  obtain ⟨rq, hrq, rfl, rfl⟩ := h
  rw [queueOf_set hrq, queueOf_of_getElem? hrq]
  cases hqueue : rq.queue with
  | cons task rest => exact .inl ⟨task, rest, rfl, by simp [RunQueue.pop, hqueue]⟩
  | nil =>
      obtain ⟨hlt, rfl⟩ := List.getElem?_eq_some_iff.mp hrq
      rw [RunQueue.pop_nil hqueue, List.set_getElem_self]
      exact .inr ⟨rfl, rfl, rfl⟩

theorem queueOf_stealFrom {victim : ℕ} {stolen : List τ}
    (h : s.stealFrom victim = some (stolen, s')) :
    let queue := s.queueOf victim
    let kept := queue.length - queue.length / 2
    stolen = (queue.drop kept).reverse ∧
      s'.queueOf = Function.update s.queueOf victim (queue.take kept) := by
  simp only [stealFrom, Option.map_eq_some_iff, Prod.mk.injEq] at h
  obtain ⟨rq, hrq, rfl, rfl⟩ := h
  rw [queueOf_set hrq, queueOf_of_getElem? hrq]
  exact ⟨rq.stealHalf_fst, by rw [rq.stealHalf_snd_queue]⟩

theorem busiestCore_ne {victim : ℕ} (h : s.busiestCore core = some victim) : victim ≠ core := by
  have hscan := scanned_foldl core s.runQueues
  unfold busiestCore at h
  generalize s.runQueues.zipIdx.foldl
    (fun acc q => busiestStep core acc q.2 q.1.len) busiestInit = acc at hscan h
  obtain ⟨load, _ | _⟩ := acc
  · cases h
  · obtain rfl := Option.some.inj h
    exact hscan.1

/-- What `schedule` on `core` can do to the queues `q`, and what it returns. -/
inductive Scheduled (core : ℕ) (q : ℕ → List τ) : Option τ → (ℕ → List τ) → Prop
  | own {task rest} (h : q core = task :: rest) :
      Scheduled core q (some task) (Function.update q core rest)
  | stolen {victim kept task rest} (hempty : q core = []) (hne : victim ≠ core)
      (hkept : kept = (q victim).length - (q victim).length / 2)
      (hback : ((q victim).drop kept).reverse = task :: rest) :
      Scheduled core q (some task)
        (Function.update (Function.update q victim ((q victim).take kept)) core rest)
  | nothing (hempty : q core = []) : Scheduled core q none q

theorem schedule_scheduled {result : Option τ} (h : s.schedule core = some (result, s')) :
    Scheduled core s.queueOf result s'.queueOf := by
  simp only [schedule, Option.bind_eq_some_iff] at h
  obtain ⟨⟨popped, m⟩, hpop, hrest⟩ := h
  obtain ⟨task, rest, hown, rfl, hm⟩ | ⟨hempty, rfl, rfl⟩ := queueOf_popFrom hpop
  · obtain ⟨rfl, rfl⟩ := Prod.mk.inj (Option.some.inj hrest)
    rw [hm]
    exact .own hown
  · dsimp only at hrest
    cases hbusiest : m.busiestCore core with
    | none =>
        rw [hbusiest] at hrest
        obtain ⟨rfl, rfl⟩ := Prod.mk.inj (Option.some.inj hrest)
        exact .nothing hempty
    | some victim =>
        have hne := busiestCore_ne hbusiest
        rw [hbusiest] at hrest
        simp only [Option.bind_eq_some_iff] at hrest
        obtain ⟨⟨stolen, m'⟩, hsteal, hrest⟩ := hrest
        obtain ⟨hstolen, hm'⟩ := queueOf_stealFrom hsteal
        cases stolen with
        | nil =>
            obtain ⟨rfl, rfl⟩ := Prod.mk.inj (Option.some.inj hrest)
            -- half of the queue is nothing, so all of it is kept
            have hall := congrArg List.length hstolen
            rw [List.length_nil, List.length_reverse, List.length_drop] at hall
            rw [hm', List.take_of_length_le (by omega), Function.update_eq_self]
            exact .nothing hempty
        | cons task rest =>
            simp only [Option.map_eq_some_iff, Prod.mk.injEq] at hrest
            obtain ⟨m'', hrepush, rfl, rfl⟩ := hrest
            have hown : m'.queueOf core = [] := by
              rw [hm', Function.update_of_ne hne.symm, hempty]
            rw [queueOf_repush hrepush, hown, hm', List.nil_append]
            exact .stolen hempty hne rfl hstolen.symm

/-! ### Positions in one call -/

/-- A task in the back half of a queue is the one handed out, or is closer to
the front of what the thief keeps than it was to the front of the queue. -/
theorem stolen_position {queue rest : List τ} {task x : τ} {kept p : ℕ}
    (hkept : kept = queue.length - queue.length / 2)
    (hback : (queue.drop kept).reverse = task :: rest) (hx : queue[p]? = some x)
    (hp : kept ≤ p) : task = x ∨ ∃ p', rest[p']? = some x ∧ p' < p := by
  have hlt : p < queue.length := (List.getElem?_eq_some_iff.mp hx).1
  have hj : (task :: rest)[queue.length - 1 - p]? = some x := by
    rw [← hback, List.getElem?_reverse (by rw [List.length_drop]; omega), List.getElem?_drop,
      List.length_drop, ← hx]
    congr 1
    omega
  cases hdist : queue.length - 1 - p with
  | zero =>
      rw [hdist] at hj
      exact .inl (Option.some.inj hj)
  | succ j =>
      rw [hdist, List.getElem?_cons_succ] at hj
      exact .inr ⟨j, hj, by omega⟩

/-- A task that stays where it is, on another core than the one that
schedules. -/
theorem position_stays {q : ℕ → List τ} {c p : ℕ} {x : τ} (hx : (q c)[p]? = some x)
    (hc : core ≠ c) :
    ∃ c' p', (q c')[p']? = some x ∧ p' ≤ p ∧ (core = c ∨ c' ≠ c → p' < p) := by
  refine ⟨c, p, hx, le_rfl, ?_⟩
  rintro (rfl | hne)
  · exact absurd rfl hc
  · exact absurd rfl hne

/-- The task at position `p` on core `c` is handed out, or does not lose
ground; it gains some if it is `c` that schedules, or if it is moved. -/
theorem Scheduled.position {q q' : ℕ → List τ} {result : Option τ} {c p : ℕ} {x : τ}
    (h : Scheduled core q result q') (hx : (q c)[p]? = some x) :
    result = some x ∨
      ∃ c' p', (q' c')[p']? = some x ∧ p' ≤ p ∧ (core = c ∨ c' ≠ c → p' < p) := by
  have hne_of_empty : q core = [] → core ≠ c := by
    rintro hempty rfl
    rw [hempty] at hx
    cases hx
  cases h with
  | own hown =>
      by_cases hc : core = c
      · subst hc
        rw [hown] at hx
        cases p with
        | zero => exact .inl hx
        | succ p =>
            refine .inr ⟨core, p, ?_, Nat.le_succ p, fun _ => Nat.lt_succ_self p⟩
            rwa [Function.update_self]
      · exact .inr (position_stays (by rwa [Function.update_of_ne (Ne.symm hc)]) hc)
  | nothing hempty => exact .inr (position_stays hx (hne_of_empty hempty))
  | @stolen victim kept task rest hempty hne hkept hback =>
      have hc := hne_of_empty hempty
      by_cases hv : c = victim
      · subst hv
        by_cases hp : p < kept
        · refine .inr (position_stays ?_ hc)
          rw [Function.update_of_ne hc.symm, Function.update_self, List.getElem?_take_of_lt hp,
            hx]
        · obtain rfl | ⟨p', hp', hless⟩ := stolen_position hkept hback hx (Nat.not_lt.mp hp)
          · exact .inl rfl
          · exact .inr ⟨core, p', by rwa [Function.update_self], hless.le, fun _ => hless⟩
      · refine .inr (position_stays ?_ hc)
        rw [Function.update_of_ne hc.symm, Function.update_of_ne hv, hx]

end Scheduler

namespace Interleaving

open Machine

/-- The submission `x` is in the queue of `core`, with `p` tasks ahead of it. -/
def AtPosition (sched : Scheduler Submission) (x : Submission) (core p : ℕ) : Prop :=
  (sched.queueOf core)[p]? = some x

/-- The call is one of `schedule`, or of `block_current`, on `core`. -/
def Op.SchedulesOn (core : ℕ) : Op → Prop
  | .schedule c | .blockCurrent c => c = core
  | .spawn _ | .spawnOnCore _ _ | .wake _ _ | .preemptCurrent _ _ => False

instance (core : ℕ) : ∀ op : Op, Decidable (op.SchedulesOn core)
  | .schedule c | .blockCurrent c => inferInstanceAs (Decidable (c = core))
  | .spawn _ | .spawnOnCore _ _ | .wake _ _ | .preemptCurrent _ _ =>
      inferInstanceAs (Decidable False)

section

variable {T : Type} {s s' : State T} {op : Op}

/-! ### What one call does -/

/-- What a call does to the queues: it pushes one task, or schedules. -/
theorem alone_cases (h : op.alone s = some s') :
    s'.calls = s.calls ∧
    ((∃ core x, s'.sched.queueOf =
        Function.update s.sched.queueOf core (s.sched.queueOf core ++ [x]) ∧
        s'.handedOut = s.handedOut ∧ ∀ c, ¬op.SchedulesOn c) ∨
      ∃ core result, op.SchedulesOn core ∧
        Scheduler.Scheduled core s.sched.queueOf result s'.sched.queueOf ∧
        s'.handedOut = s.handedOut ++ result.toList.map (core, ·)) := by
  have hpushed : ∀ {core : ℕ} {x : Submission} {sched : Scheduler Submission},
      s.sched.pushTo core x = some sched → (∀ c, ¬op.SchedulesOn c) →
      ∃ core x, sched.queueOf =
        Function.update s.sched.queueOf core (s.sched.queueOf core ++ [x]) ∧
        s.handedOut = s.handedOut ∧ ∀ c, ¬op.SchedulesOn c :=
    fun hpush hop => ⟨_, _, Scheduler.queueOf_pushTo hpush, rfl, hop⟩
  cases op with
  | spawn task =>
      simp only [Op.alone, Option.map_eq_some_iff, Scheduler.spawn] at h
      obtain ⟨sched, hspawn, rfl⟩ := h
      split at hspawn <;> exact ⟨rfl, .inl (hpushed hspawn fun _ => id)⟩
  | spawnOnCore core task =>
      simp only [Op.alone, Option.map_eq_some_iff, Scheduler.spawnOnCore,
        Option.ite_none_right_eq_some] at h
      obtain ⟨sched, ⟨-, hpush⟩, rfl⟩ := h
      exact ⟨rfl, .inl (hpushed hpush fun _ => id)⟩
  | wake task core | preemptCurrent core task =>
      simp only [Op.alone, Option.map_eq_some_iff] at h
      obtain ⟨sched, hpush, rfl⟩ := h
      exact ⟨rfl, .inl (hpushed hpush fun _ => id)⟩
  | schedule core | blockCurrent core =>
      simp only [Op.alone, Option.map_eq_some_iff] at h
      obtain ⟨⟨result, sched⟩, hsched, rfl⟩ := h
      exact ⟨rfl, .inr ⟨core, result, rfl, Scheduler.schedule_scheduled hsched, rfl⟩⟩

/-- No call sets a task back, and a call that serves it moves it ahead. -/
theorem alone_position {x : Submission} {core p : ℕ} (h : op.alone s = some s')
    (hx : AtPosition s.sched x core p) :
    (∃ c, s'.handedOut = s.handedOut ++ [(c, x)]) ∨
      ∃ core' p', AtPosition s'.sched x core' p' ∧ p' ≤ p ∧
        (op.SchedulesOn core ∨ core' ≠ core → p' < p) := by
  obtain ⟨-, ⟨target, y, hqueues, hout, hop⟩ | ⟨target, result, hop, hsched, hout⟩⟩ :=
    alone_cases h
  · refine .inr ⟨core, p, ?_, le_rfl, ?_⟩
    · unfold AtPosition
      rw [hqueues]
      by_cases hc : core = target
      · subst hc
        rw [Function.update_self, List.getElem?_append_left (List.getElem?_eq_some_iff.mp hx).1]
        exact hx
      · rw [Function.update_of_ne hc]
        exact hx
    · rintro (hsched | hne)
      · exact absurd hsched (hop core)
      · exact absurd rfl hne
  · have htarget : ∀ c, op.SchedulesOn c → target = c := by
      intro c hc
      cases op with
      | schedule | blockCurrent => exact hop.symm.trans hc
      | spawn | spawnOnCore | wake | preemptCurrent => exact hop.elim
    obtain rfl | ⟨core', p', hx', hle, hless⟩ := hsched.position hx
    · exact .inl ⟨target, hout⟩
    · exact .inr ⟨core', p', hx', hle, fun h => hless (h.imp_left (htarget core))⟩

end

/-- What was handed out stays so. -/
theorem handedOut_prefix {T : Type} {s s' : State T} {ops : List Op}
    (hrun : run Op.alone s ops = some s') : s.handedOut <+: s'.handedOut := by
  refine run_invariant (I := fun m => s.handedOut <+: m.handedOut) ?_ List.prefix_rfl hrun
  intro m op m' hm hop
  obtain ⟨-, ⟨_, _, -, hout, -⟩ | ⟨_, _, -, -, hout⟩⟩ := alone_cases hop
  · rwa [hout]
  · rw [hout]
    exact hm.trans (List.prefix_append _ _)

/-! ### A task is in one place -/

/-- The states a scheduler gets into when calls are made one at a time. -/
def AloneReachable (numCores : ℕ) (s : State Unit) : Prop :=
  Reachable Op.alone (new Unit numCores) s

/-- They are among those that it gets into anyway, with no call in progress. -/
theorem AloneReachable.reachable {numCores : ℕ} {s : State Unit}
    (h : AloneReachable numCores s) :
    Reachable step (new Unit numCores) s ∧ ∀ t, s.calls t = .idle := by
  refine reachable_invariant
    (I := fun m : State Unit => Reachable step (new Unit numCores) m ∧ ∀ t, m.calls t = .idle)
    (fun m op m' hm hop => ?_) ⟨⟨[], rfl⟩, fun _ => rfl⟩ h
  obtain ⟨n, hrun⟩ := call_alone (hm.2 ()) hop
  exact ⟨hm.1.run hrun, fun t => by rw [(alone_cases hop).1, hm.2 t]⟩

theorem AloneReachable.accounted {numCores : ℕ} {s : State Unit}
    (h : AloneReachable numCores s) : Accounted s := by
  obtain ⟨⟨as, hrun⟩, -⟩ := h.reachable
  exact accounted_of_run hrun

theorem queued_eq_flatMap {τ : Type} (sched : Scheduler τ) :
    queued sched = ↑(sched.runQueues.flatMap RunQueue.queue) := by
  unfold queued
  induction sched.runQueues with
  | nil => rfl
  | cons rq rqs ih => rw [List.map_cons, List.sum_cons, ih, List.flatMap_cons, Multiset.coe_add]

/-- Among tasks that are all different, each has one position. -/
theorem position_unique {sched : Scheduler Submission} (h : (queued sched).Nodup)
    {x : Submission} {core core' p p' : ℕ} (hx : AtPosition sched x core p)
    (hx' : AtPosition sched x core' p') : core' = core ∧ p' = p := by
  rw [queued_eq_flatMap, Multiset.coe_nodup, List.nodup_flatMap] at h
  obtain ⟨hqueues, hdisjoint⟩ := h
  have hqueue : ∀ {c i : ℕ}, AtPosition sched x c i →
      ∃ rq, sched.runQueues[c]? = some rq ∧ rq.queue[i]? = some x := by
    intro c i hc
    unfold AtPosition Scheduler.queueOf at hc
    split at hc
    · rename_i rq hrq
      exact ⟨rq, hrq, hc⟩
    · cases hc
  obtain ⟨rq, hrq, hrqx⟩ := hqueue hx
  obtain ⟨rq', hrq', hrqx'⟩ := hqueue hx'
  have hsame : core' = core := by
    by_contra hne
    obtain ⟨hlt, rfl⟩ := List.getElem?_eq_some_iff.mp hrq
    obtain ⟨hlt', rfl⟩ := List.getElem?_eq_some_iff.mp hrq'
    have hdis := List.pairwise_iff_getElem.mp hdisjoint
    rcases Nat.lt_or_gt_of_ne hne with hless | hless
    · exact hdis core' core hlt' hlt hless (List.mem_of_getElem? hrqx')
        (List.mem_of_getElem? hrqx)
    · exact hdis core core' hlt hlt' hless (List.mem_of_getElem? hrqx)
        (List.mem_of_getElem? hrqx')
  subst hsame
  obtain rfl : rq = rq' := Option.some.inj (hrq.symm.trans hrq')
  have hp : rq.queue[p']? = rq.queue[p]? := by rw [hrqx, hrqx']
  have hnodup : rq.queue.Nodup := hqueues rq (List.mem_of_getElem? hrq)
  exact ⟨rfl, (List.getElem?_inj (List.getElem?_eq_some_iff.mp hrqx').1 hnodup).mp hp⟩

theorem AloneReachable.position_unique {numCores : ℕ} {s : State Unit}
    (h : AloneReachable numCores s) {x : Submission} {core core' p p' : ℕ}
    (hx : AtPosition s.sched x core p) (hx' : AtPosition s.sched x core' p') :
    core' = core ∧ p' = p := by
  refine Interleaving.position_unique ?_ hx hx'
  have hacc := h.accounted
  have hnodup : (s.submitted : Multiset Submission).Nodup := hacc.nodup
  rw [hacc.total, Multiset.nodup_add, Multiset.nodup_add] at hnodup
  exact hnodup.1.2.1

/-! ### Runs -/

/-- The call serves `x`: it is made by the core whose queue holds `x`, or
takes `x` out of that queue. -/
def Serves (x : Submission) (s s' : State Unit) (op : Op) : Prop :=
  ∃ core < s.sched.runQueues.length,
    x ∈ s.sched.queueOf core ∧ (op.SchedulesOn core ∨ x ∉ s'.sched.queueOf core)

instance (x : Submission) (s s' : State Unit) (op : Op) : Decidable (Serves x s s' op) :=
  inferInstanceAs (Decidable (∃ core < s.sched.runQueues.length,
    x ∈ s.sched.queueOf core ∧ (op.SchedulesOn core ∨ x ∉ s'.sched.queueOf core)))

/-- How many of the calls serve `x`. -/
def timesServed (x : Submission) : State Unit → List Op → ℕ
  | _, [] => 0
  | s, op :: ops =>
      match op.alone s with
      | none => 0
      | some s' => (if Serves x s s' op then 1 else 0) + timesServed x s' ops

theorem Serves.lt {numCores : ℕ} {s s' : State Unit} {op : Op} {x : Submission}
    {core core' p p' : ℕ} (h : Serves x s s' op) (hs : AloneReachable numCores s)
    (hx : AtPosition s.sched x core p) (hx' : AtPosition s'.sched x core' p')
    (hless : op.SchedulesOn core ∨ core' ≠ core → p' < p) : p' < p := by
  obtain ⟨c, -, hmem, hserves⟩ := h
  obtain ⟨i, hi⟩ := List.mem_iff_getElem?.mp hmem
  obtain ⟨rfl, -⟩ := hs.position_unique hx hi
  apply hless
  refine hserves.imp_right fun hgone hcore => hgone ?_
  rw [← hcore]
  exact List.mem_of_getElem? hx'

/-- Along a run, a task is handed out, or it has gained as many positions as
there were calls that served it. -/
theorem run_position {numCores : ℕ} {s s' : State Unit} {ops : List Op} {x : Submission}
    {core p : ℕ} (hs : AloneReachable numCores s) (hx : AtPosition s.sched x core p)
    (hrun : run Op.alone s ops = some s') :
    (∃ out c, s'.handedOut = s.handedOut ++ out ∧ (c, x) ∈ out) ∨
      ∃ core' p', AtPosition s'.sched x core' p' ∧ p' + timesServed x s ops ≤ p := by
  induction ops generalizing s core p with
  | nil =>
      obtain rfl := Option.some.inj hrun
      exact .inr ⟨core, p, hx, le_rfl⟩
  | cons op ops ih =>
      obtain ⟨m, hop, hrest⟩ := run_cons_eq_some.mp hrun
      have hm : AloneReachable numCores m := Reachable.of_step hs hop
      obtain ⟨c, hout⟩ | ⟨core₁, p₁, hx₁, hle, hless⟩ := alone_position hop hx
      · obtain ⟨out, hmore⟩ := handedOut_prefix hrest
        exact .inl ⟨(c, x) :: out, c, by rw [← hmore, hout, List.append_assoc]; rfl, by simp⟩
      · obtain ⟨out, c, hout, hmem⟩ | ⟨core', p', hx', hbound⟩ := ih hm hx₁ hrest
        · obtain ⟨out₀, hout₀⟩ := handedOut_prefix ((run_singleton s op).trans hop)
          exact .inl ⟨out₀ ++ out, c, by rw [hout, ← hout₀, List.append_assoc],
            List.mem_append_right _ hmem⟩
        · refine .inr ⟨core', p', hx', ?_⟩
          simp only [timesServed, hop]
          split_ifs with hserves
          · have hlt := hserves.lt hs hx hx₁ hless
            omega
          · omega

/-- **Bounded overtaking.** A queued task has one position. No call sets it
back, and a `schedule` by the core that holds it, as well as a steal that moves
it, hands it out or moves it ahead. So a task at position `p` has been handed
out after `p + 1` calls that serve it. -/
theorem bounded_overtaking {numCores : ℕ} {s : State Unit} (hs : AloneReachable numCores s)
    {x : Submission} {core p : ℕ} (hx : AtPosition s.sched x core p) :
    (∀ core' p', AtPosition s.sched x core' p' → core' = core ∧ p' = p) ∧
    (∀ (op : Op) (s' : State Unit), op.alone s = some s' →
      (∃ c, s'.handedOut = s.handedOut ++ [(c, x)]) ∨
        ∃ core' p', AtPosition s'.sched x core' p' ∧ p' ≤ p ∧
          (op.SchedulesOn core ∨ core' ≠ core → p' < p)) ∧
    (∀ ops s', run Op.alone s ops = some s' → p + 1 ≤ timesServed x s ops →
      ∃ out c, s'.handedOut = s.handedOut ++ out ∧ (c, x) ∈ out) := by
  refine ⟨fun _ _ hx' => hs.position_unique hx hx', fun _ _ hop => alone_position hop hx, ?_⟩
  intro ops s' hrun hserved
  obtain hout | ⟨core', p', -, hbound⟩ := run_position hs hx hrun
  · exact hout
  · omega

/-- The calls that spawn tasks 0 to 3 on core 0. -/
def spawnFour : List Op :=
  [0, 1, 2, 3].map fun id => .spawnOnCore 0 (Task.new id 0 "task" 0 0 0)

theorem bounded_overtaking_third :
    ∃ s s' x, run Op.alone (new Unit 2) spawnFour = some s ∧ AtPosition s.sched x 0 2 ∧
      run Op.alone s [.schedule 0, .schedule 0, .schedule 1, .schedule 0] = some s' ∧
      ∃ out c, s'.handedOut = s.handedOut ++ out ∧ (c, x) ∈ out := by
  obtain ⟨s, x, hs, hx, s', hrun, hserved⟩ : ∃ s x,
      run Op.alone (new Unit 2) spawnFour = some s ∧ AtPosition s.sched x 0 2 ∧
      ∃ s', run Op.alone s [.schedule 0, .schedule 0, .schedule 1, .schedule 0] = some s' ∧
        3 ≤ timesServed x s [.schedule 0, .schedule 0, .schedule 1, .schedule 0] :=
    ⟨_, _, rfl, rfl, _, rfl, by decide⟩
  exact ⟨s, s', x, hs, hx, hrun,
    (bounded_overtaking ⟨spawnFour, hs⟩ hx).2.2 _ _ hrun hserved⟩

end Interleaving

end SmpNostd
