import SmpNostd.Scheduler.AtomicQueue
import SmpNostd.Scheduler.Interleaving

/-!
The scheduler at the granularity of single memory accesses.

In the interleaving model a critical section of a run queue is one step. Here
it is what the code makes of it: exchanges on the lock word until one succeeds,
pushes and pops on the deque, a change of the counter, and the release, with the
accesses of all other threads to this queue and to the others in between. A
call of the scheduler waits in the operation that it has called on a queue, and
goes on with its answer.

The operation takes effect somewhere between its call and its return, where the
linearizability of the run queue puts it. The coarse system makes its step
there. Until the operation returns, the call of the coarse system is then one
step ahead of the call here: it has gone on with the answer already. So every
run at this granularity is matched by a run of the interleaving model, and what
holds of all runs there holds here.
-/

namespace SmpNostd

/-! ### The run queue, step by step -/

namespace AtomicQueue

open Machine Lin

variable {T α : Type} [DecidableEq T] {s s' : State T α}
  {c : Atomic T (List α) (Op α) (Ret α)} {t : T}

/-- An access of a thread is not seen, and leaves the other threads alone. -/
theorem advance_pcs_of_ne {pc : Pc α} (hstep : advance s t pc = some s') {u : T}
    (hu : u ≠ t) : s'.pcs u = s.pcs u := by
  have hset : ∀ (m : State T α) (pc' : Pc α), m.pcs = s.pcs → (m.setPc t pc').pcs u = s.pcs u :=
    fun m pc' hm => (Function.update_of_ne hu ..).trans (congrFun hm u)
  cases pc with
  | idle | done => cases hstep
  | cas | spin | pushBack | popFront | stealCount =>
      simp only [advance] at hstep
      split at hstep <;> cases hstep <;> first | exact hset _ _ rfl | rfl
  | pushAdd | popSub | stealSub | unlock | lenLoad =>
      cases hstep
      exact hset _ _ rfl
  | stealPop n =>
      cases n with
      | zero =>
          cases hstep
          exact hset _ _ rfl
      | succ n =>
          simp only [advance] at hstep
          split at hstep <;> cases hstep <;> exact hset _ _ rfl

theorem sim_call {op : Op α} (h : Sim s c) (hstep : step s (.call t op) = some s') :
    c.phase t = .idle ∧ Sim s' (c.setPhase t (.pending op)) := by
  simp only [step] at hstep
  split at hstep <;> cases hstep
  rename_i hpc
  have hstart : op.start.holds = false ∧ op.start.phase = .pending op := by
    cases op <;> exact ⟨rfl, rfl⟩
  have hsim := h.outside op.start (by rw [hpc]; rfl) hstart.1
  rw [hstart.2] at hsim
  exact ⟨by rw [h.phase_eq t, hpc]; rfl, hsim⟩

theorem sim_ret {r : Ret α} (h : Sim s c) (hpc : s.pcs t = .done r)
    (hstep : step s (.ret t) = some s') :
    c.phase t = .done r ∧ Sim s' (c.setPhase t .idle) := by
  simp only [step, hpc, Option.some.injEq] at hstep
  subst hstep
  exact ⟨by rw [h.phase_eq t, hpc]; rfl, h.outside .idle (by rw [hpc]; rfl) rfl⟩

/-- An access is nothing to the atomic object, or is where the operation of its
thread takes effect. -/
theorem sim_access (h : Sim s c) {a : Label T α} (ha : a = .step t ∨ a = .spurious t)
    (hstep : step s a = some s') :
    Sim s' c ∨ ∃ op, c.phase t = .pending op ∧ Sim s' (c.effect (listObject α) t op) := by
  obtain ⟨c', hsim, hhist⟩ := sim_step h hstep
  have hother : ∀ u, u ≠ t → c'.phase u = c.phase u := by
    intro u hu
    rw [hsim.phase_eq u, h.phase_eq u]
    rcases ha with rfl | rfl
    · rw [advance_pcs_of_ne hstep hu]
    · simp only [step] at hstep
      split at hstep <;> cases hstep
      exact congrArg Pc.phase (Function.update_of_ne hu ..)
  have hsilent : (listObject α).History c [] c' := by
    rcases ha with rfl | rfl <;> exact hhist
  obtain rfl | ⟨op, hpending, rfl⟩ := hsilent.silent_cases hother
  · exact .inl hsim
  · exact .inr ⟨op, hpending, hsim⟩

/-- A critical section as a whole, on a queue that may be full: a push that
finds no room for its task panics, so the counter does not wrap either. -/
theorem perform_exact {rq : RunQueue α} (hlen : rq.len = rq.queue.length)
    (hle : rq.queue.length ≤ maxTasks) (op : Op α) :
    (listObject α).apply rq.queue op = ((perform rq op).1.queue, (perform rq op).2) ∧
      (perform rq op).1.len = (perform rq op).1.queue.length := by
  rcases Nat.lt_or_eq_of_le hle with hroom | hfull
  · exact perform_refines hlen hroom op
  have hmax : maxTasks + 1 < 2 ^ 64 := by decide
  cases op with
  | len => exact ⟨by simp [listObject, perform, hlen], hlen⟩
  | locked o =>
      cases o with
      | push task =>
          refine ⟨rfl, ?_⟩
          change RunQueue.fetchAdd rq.len = (rq.queue ++ [task]).length
          rw [hlen, RunQueue.fetchAdd_of_lt (by omega), List.length_append, List.length_singleton]
      | pop =>
          obtain ⟨coreId, queue, len⟩ := rq
          cases queue with
          | nil => exact ⟨rfl, hlen⟩
          | cons task queue =>
              refine ⟨rfl, ?_⟩
              change RunQueue.fetchSub len 1 = queue.length
              simp only [List.length_cons] at hlen hle
              rw [hlen, fetchSub_eq (by omega) hle]
              omega
      | stealHalf =>
          constructor
          · simp [listObject, perform, RunQueue.stealHalf_fst, RunQueue.stealHalf_snd_queue]
          · change rq.stealHalf.2.len = rq.stealHalf.2.queue.length
            rw [stealHalf_len hlen hle, RunQueue.stealHalf_snd_queue, List.length_take]
            omega

end AtomicQueue

namespace FineGrained

open Machine Lin Interleaving

/-! ### The calls and the queues -/

/-- The operation on a run queue that a call makes next, among `numCores`
queues. The loops over the queues end behind the last one. -/
def next {τ : Type} (numCores : ℕ) : Call τ → Option (ℕ × AtomicQueue.Op τ)
  | .leastLoaded _ i _ | .busiest _ i _ => if i < numCores then some (i, .len) else none
  | .pushing core task | .repushing core _ (task :: _) => some (core, .locked (.push task))
  | .popping core => some (core, .locked .pop)
  | .stealing _ victim => some (victim, .locked .stealHalf)
  | .idle | .repushing _ _ [] | .returning _ _ => none

/-- How a call goes on with the answer of its operation. -/
def resume {τ : Type} : Call τ → AtomicQueue.Ret τ → Call τ
  | .leastLoaded task i acc, .len load =>
      .leastLoaded task (i + 1) (Scheduler.leastLoadedStep acc i load)
  | .busiest core i acc, .len load => .busiest core (i + 1) (Scheduler.busiestStep core acc i load)
  | .pushing _ _, .unit => .idle
  | .repushing core first (_ :: rest), .unit => .repushing core first rest
  | .popping core, .task (some task) => .returning core (some task)
  | .popping core, .task none => .busiest core 0 Scheduler.busiestInit
  | .stealing core _, .stolen [] => .returning core none
  | .stealing core _, .stolen (first :: rest) => .repushing core first rest
  | c, _ => c

/-- The run queues, those below `numCores` being there, the calls in progress
and the record of submissions and of tasks handed out. -/
structure State (T : Type) where
  numCores : ℕ
  queues : ℕ → AtomicQueue.State T Submission
  calls : T → Call Submission
  submitted : List Submission
  handedOut : List (ℕ × Submission)

def new (T : Type) (numCores : ℕ) : State T where
  numCores := numCores
  queues _ := AtomicQueue.new T Submission
  calls _ := .idle
  submitted := []
  handedOut := []

/-- A thread starts a call, or goes on with it without a run queue, or calls an
operation on a run queue, makes an access in it or returns from it. -/
inductive Label (T : Type)
  | start (t : T) (op : Op)
  | goOn (t : T)
  | queue (core : ℕ) (a : AtomicQueue.Label T Submission)
  deriving DecidableEq, Repr

variable {T : Type} [DecidableEq T]

def State.setCall (s : State T) (t : T) (c : Call Submission) : State T :=
  { s with calls := Function.update s.calls t c }

def State.setQueue (s : State T) (core : ℕ) (q : AtomicQueue.State T Submission) : State T :=
  { s with queues := Function.update s.queues core q }

/-- Thread `t` hands `task` over and goes on as `next` says. -/
def State.submit (s : State T) (t : T) (task : Task) (next : Submission → Call Submission) :
    State T :=
  let x : Submission := ⟨s.submitted.length, task⟩
  { s with submitted := s.submitted ++ [x] }.setCall t (next x)

/-- The beginning of a call, up to its first operation on a queue. -/
def start (s : State T) (t : T) : Op → Option (State T)
  | .spawn task =>
      some (s.submit t task fun x =>
        match TaskLike.affinity x with
        | some affinity => .pushing affinity x
        | none => .leastLoaded x 0 Scheduler.leastLoadedInit)
  | .spawnOnCore core task =>
      if core < s.numCores then some (s.submit t task (.pushing core)) else none
  | .wake task targetCore => some (s.submit t (task.setState .ready) (.pushing targetCore))
  | .preemptCurrent core task => some (s.submit t (task.setState .ready) (.pushing core))
  | .schedule core | .blockCurrent core =>
      if core < s.numCores then some (s.setCall t (.popping core)) else none

/-- The parts of a call that have to do with no queue. -/
def goOn (s : State T) (t : T) : Call Submission → Option (State T)
  | .leastLoaded task i acc =>
      if i < s.numCores then none else some (s.setCall t (.pushing acc.2 task))
  | .busiest core i acc =>
      if i < s.numCores then none
      else some (s.setCall t <|
        match acc.2 with
        | some victim => .stealing core victim
        | none => .returning core none)
  | .repushing core first [] => some (s.setCall t (.returning core (some first)))
  | .returning core result =>
      some ({ s with handedOut := s.handedOut ++ result.toList.map (core, ·) }.setCall t .idle)
  | .idle | .pushing _ _ | .popping _ | .stealing _ _ | .repushing _ _ (_ :: _) => none

/-- An operation on the queue of a core is called as the call asks for it, and
the call goes on when it returns. -/
def queueStep (s : State T) (core : ℕ) (a : AtomicQueue.Label T Submission) :
    Option (State T) :=
  match a with
  | .call t op =>
      if next s.numCores (s.calls t) = some (core, op) then
        (AtomicQueue.step (s.queues core) a).map (s.setQueue core)
      else none
  | .step _ | .spurious _ => (AtomicQueue.step (s.queues core) a).map (s.setQueue core)
  | .ret t =>
      match (s.queues core).pcs t with
      | .done r =>
          (AtomicQueue.step (s.queues core) a).map fun q =>
            (s.setQueue core q).setCall t (resume (s.calls t) r)
      | _ => none

def step (s : State T) : Label T → Option (State T)
  | .start t op => if s.calls t = .idle then start s t op else none
  | .goOn t => goOn s t (s.calls t)
  | .queue core a =>
      -- the index into `run_queues` panics behind the last queue
      if core < s.numCores then queueStep s core a else none

/-! ### One operation of the interleaving model -/

theorem set_getElem_of_getElem? {β : Type} {l : List β} {i : ℕ} {x : β} (h : l[i]? = some x) :
    l.set i x = l := by
  obtain ⟨hlt, rfl⟩ := List.getElem?_eq_some_iff.mp h
  exact List.set_getElem_self hlt

/-- A step of the interleaving model on a queue is the operation, performed as
one critical section, and the call goes on with its answer. -/
theorem advance_perform {m : Interleaving.State T} {t : T} {c : Call Submission} {core : ℕ}
    {op : AtomicQueue.Op Submission} {rq : RunQueue Submission}
    (hrq : m.sched.runQueues[core]? = some rq)
    (hnext : next m.sched.runQueues.length c = some (core, op)) :
    Interleaving.advance m t c = some
      ({ m with sched := { m.sched with
          runQueues := m.sched.runQueues.set core (AtomicQueue.perform rq op).1 } }.setCall t
        (resume c (AtomicQueue.perform rq op).2)) := by
  cases c with
  | idle | returning => cases hnext
  | leastLoaded task i acc | busiest c i acc =>
      simp only [next, Option.ite_none_right_eq_some, Option.some.injEq, Prod.mk.injEq] at hnext
      obtain ⟨-, rfl, rfl⟩ := hnext
      simp only [Interleaving.advance, hrq, AtomicQueue.perform, set_getElem_of_getElem? hrq]
      rfl
  | pushing c task =>
      cases hnext
      simp only [Interleaving.advance, Scheduler.pushTo, hrq, Option.map_some]
      rfl
  | popping c =>
      cases hnext
      simp only [Interleaving.advance, Scheduler.popFrom, hrq, Option.map_some,
        AtomicQueue.perform]
      cases rq.pop.1 <;> rfl
  | stealing c victim =>
      cases hnext
      simp only [Interleaving.advance, Scheduler.stealFrom, hrq, Option.map_some,
        AtomicQueue.perform]
      cases rq.stealHalf.1 <;> rfl
  | repushing c first rest =>
      cases rest with
      | nil => cases hnext
      | cons task rest =>
          cases hnext
          simp only [Interleaving.advance, Scheduler.pushTo, hrq, Option.map_some]
          rfl

/-! ### The simulation -/

/-- The atomic lists that the run queues stand for. -/
abbrev Lists (T : Type) :=
  ℕ → Atomic T (List Submission) (AtomicQueue.Op Submission) (AtomicQueue.Ret Submission)

/-- Where the interleaving model has a call that is at `c` here. It is at the
same place, until the operation of the call takes effect; from then to the
return of the operation it has gone on already. -/
inductive CallRel (numCores : ℕ) (lists : Lists T) (t : T) (c : Call Submission) :
    Call Submission → Prop
  | between (hidle : ∀ k < numCores, (lists k).phase t = .idle) : CallRel numCores lists t c c
  | pending {core : ℕ} {op : AtomicQueue.Op Submission} (hnext : next numCores c = some (core, op))
      (hcore : core < numCores) (hpending : (lists core).phase t = .pending op)
      (hidle : ∀ k < numCores, k ≠ core → (lists k).phase t = .idle) :
      CallRel numCores lists t c c
  | done {core : ℕ} {op : AtomicQueue.Op Submission} {r : AtomicQueue.Ret Submission}
      (hnext : next numCores c = some (core, op)) (hcore : core < numCores)
      (hdone : (lists core).phase t = .done r)
      (hidle : ∀ k < numCores, k ≠ core → (lists k).phase t = .idle) :
      CallRel numCores lists t c (resume c r)

/-- A state here, and the state of the interleaving model that it refines. -/
structure Rel (f : State T) (m : Interleaving.State T) (lists : Lists T) : Prop where
  cores : m.sched.numCores = f.numCores
  length : m.sched.runQueues.length = f.numCores
  sim : ∀ k < f.numCores, AtomicQueue.Sim (f.queues k) (lists k)
  queue : ∀ k rq, m.sched.runQueues[k]? = some rq →
    rq.queue = (lists k).state ∧ rq.len = rq.queue.length
  call : ∀ t, CallRel f.numCores lists t (f.calls t) (m.calls t)
  submitted : m.submitted = f.submitted
  handedOut : m.handedOut = f.handedOut

omit [DecidableEq T] in
theorem Rel.exists_queue {f : State T} {m : Interleaving.State T} {lists : Lists T}
    (h : Rel f m lists) {k : ℕ} (hk : k < f.numCores) : ∃ rq, m.sched.runQueues[k]? = some rq :=
  ⟨_, List.getElem?_eq_getElem (h.length ▸ hk)⟩

omit [DecidableEq T] in
theorem rel_new (numCores : ℕ) :
    Rel (new T numCores) (Interleaving.new T numCores) fun _ => ⟨[], fun _ => .idle⟩ where
  cores := rfl
  length := by simp [Interleaving.new, Scheduler.new, new]
  sim _ _ := AtomicQueue.sim_new
  queue k rq hrq := by
    obtain ⟨i, -, rfl⟩ := List.mem_map.mp (List.mem_of_getElem? hrq)
    exact ⟨rfl, rfl⟩
  call _ := .between fun _ _ => rfl
  submitted := rfl
  handedOut := rfl

section

variable {f f' : State T} {m : Interleaving.State T} {lists lists' : Lists T} {t u : T}
  {core n : ℕ} {c d : Call Submission}

omit [DecidableEq T] in
/-- Only the phases of the thread itself matter. -/
theorem CallRel.congr (h : CallRel n lists t c d)
    (hphase : ∀ k < n, (lists' k).phase t = (lists k).phase t) : CallRel n lists' t c d := by
  cases h with
  | between hidle => exact .between fun k hk => (hphase k hk).trans (hidle k hk)
  | pending hnext hcore hpending hidle =>
      exact .pending hnext hcore ((hphase _ hcore).trans hpending)
        fun k hk hne => (hphase k hk).trans (hidle k hk hne)
  | done hnext hcore hdone hidle =>
      exact .done hnext hcore ((hphase _ hcore).trans hdone)
        fun k hk hne => (hphase k hk).trans (hidle k hk hne)

omit [DecidableEq T] in
/-- A call that asks for no operation is in none. -/
theorem CallRel.of_next_eq_none (h : CallRel n lists t c d) (hnext : next n c = none) :
    d = c ∧ ∀ k < n, (lists k).phase t = .idle := by
  cases h with
  | between hidle => exact ⟨rfl, hidle⟩
  | pending hsome | done hsome => rw [hnext] at hsome; cases hsome

/-- The atomic list of one queue makes a step of thread `t`. -/
def setList (lists : Lists T) (core : ℕ)
    (a : Atomic T (List Submission) (AtomicQueue.Op Submission) (AtomicQueue.Ret Submission)) :
    Lists T := Function.update lists core a

omit [DecidableEq T] in
theorem phase_setList {a : Atomic T (List Submission) (AtomicQueue.Op Submission)
    (AtomicQueue.Ret Submission)} (ha : a.phase u = (lists core).phase u) (k : ℕ) :
    (setList lists core a k).phase u = (lists k).phase u := by
  unfold setList
  by_cases hk : k = core
  · subst hk
    rw [Function.update_self, ha]
  · rw [Function.update_of_ne hk]

omit [DecidableEq T] in
theorem sim_setList {q : AtomicQueue.State T Submission}
    {a : Atomic T (List Submission) (AtomicQueue.Op Submission) (AtomicQueue.Ret Submission)}
    (h : ∀ k < n, AtomicQueue.Sim (f.queues k) (lists k)) (hsim : AtomicQueue.Sim q a) (k : ℕ)
    (hk : k < n) :
    AtomicQueue.Sim ((f.setQueue core q).queues k) (setList lists core a k) := by
  unfold setList
  change AtomicQueue.Sim (Function.update f.queues core q k) _
  by_cases hcore : k = core
  · subst hcore
    rwa [Function.update_self, Function.update_self]
  · rw [Function.update_of_ne hcore, Function.update_of_ne hcore]
    exact h k hk

/-- A call that is in no operation goes on in the same way on both sides. -/
theorem Rel.setCall (h : Rel f m lists) (hidle : ∀ k < f.numCores, (lists k).phase t = .idle) :
    Rel (f.setCall t c) (m.setCall t c) lists where
  cores := h.cores
  length := h.length
  sim := h.sim
  queue := h.queue
  call u := by
    change CallRel f.numCores lists u (Function.update f.calls t c u)
      (Function.update m.calls t c u)
    by_cases hu : u = t
    · subst hu
      rw [Function.update_self, Function.update_self]
      exact .between hidle
    · rw [Function.update_of_ne hu, Function.update_of_ne hu]
      exact h.call u
  submitted := h.submitted
  handedOut := h.handedOut

theorem Rel.submit (h : Rel f m lists) (hidle : ∀ k < f.numCores, (lists k).phase t = .idle)
    (task : Task) (next : Submission → Call Submission) :
    Rel (f.submit t task next) (m.submit t task next) lists := by
  have hrecord : Rel { f with submitted := f.submitted ++ [⟨f.submitted.length, task⟩] }
      { m with submitted := m.submitted ++ [⟨m.submitted.length, task⟩] } lists :=
    { h with submitted := by rw [h.submitted] }
  have hcall := hrecord.setCall (t := t) (c := next ⟨f.submitted.length, task⟩) hidle
  unfold Interleaving.State.submit
  rw [h.submitted] at *
  exact hcall

theorem Rel.start (h : Rel f m lists) {op : Op} (hidle : f.calls t = .idle)
    (hstep : start f t op = some f') :
    ∃ m', Interleaving.step m (.start t op) = some m' ∧ Rel f' m' lists := by
  obtain ⟨hcall, hphase⟩ := (h.call t).of_next_eq_none (by rw [hidle]; rfl)
  have hstart : Interleaving.step m (.start t op) = Interleaving.start m t op :=
    if_pos (hcall.trans hidle)
  rw [hstart]
  cases op with
  | spawn task =>
      obtain rfl := Option.some.inj hstep
      exact ⟨_, rfl, h.submit hphase task _⟩
  | spawnOnCore core task =>
      obtain ⟨hlt, heq⟩ := Option.ite_none_right_eq_some.mp hstep
      obtain rfl := Option.some.inj heq
      exact ⟨_, if_pos (h.cores ▸ hlt), h.submit hphase task _⟩
  | wake task targetCore | preemptCurrent core task =>
      obtain rfl := Option.some.inj hstep
      exact ⟨_, rfl, h.submit hphase _ _⟩
  | schedule core | blockCurrent core =>
      obtain ⟨hlt, heq⟩ := Option.ite_none_right_eq_some.mp hstep
      obtain rfl := Option.some.inj heq
      exact ⟨_, if_pos (h.length ▸ hlt), h.setCall hphase⟩

theorem Rel.goOn (h : Rel f m lists) (hstep : goOn f t (f.calls t) = some f') :
    ∃ m', Interleaving.step m (.step t) = some m' ∧ Rel f' m' lists := by
  have hrel := h.call t
  have hpast : ∀ i, ¬i < f.numCores → m.sched.runQueues[i]? = none := fun i hi =>
    List.getElem?_eq_none (by rw [h.length]; omega)
  change ∃ m', Interleaving.advance m t (m.calls t) = some m' ∧ _
  cases hc : f.calls t with
  | idle | pushing | popping | stealing => simp [hc, FineGrained.goOn] at hstep
  | leastLoaded task i acc =>
      simp only [hc, FineGrained.goOn, Option.ite_none_left_eq_some, Option.some.injEq] at hstep
      obtain ⟨hi, rfl⟩ := hstep
      obtain ⟨hcall, hidle⟩ := hrel.of_next_eq_none (by rw [hc, next, if_neg hi])
      refine ⟨_, ?_, h.setCall hidle⟩
      simp only [hcall, hc, Interleaving.advance, hpast i hi]
  | busiest core i acc =>
      simp only [hc, FineGrained.goOn, Option.ite_none_left_eq_some, Option.some.injEq] at hstep
      obtain ⟨hi, rfl⟩ := hstep
      obtain ⟨hcall, hidle⟩ := hrel.of_next_eq_none (by rw [hc, next, if_neg hi])
      refine ⟨_, ?_, h.setCall hidle⟩
      cases hvictim : acc.2 with
      | none | some victim => simp only [hcall, hc, Interleaving.advance, hpast i hi, hvictim]
  | repushing core first rest =>
      cases rest with
      | cons => simp [hc, FineGrained.goOn] at hstep
      | nil =>
          obtain ⟨hcall, hidle⟩ := hrel.of_next_eq_none (by rw [hc, next])
          simp only [hc, FineGrained.goOn, Option.some.injEq] at hstep
          subst hstep
          refine ⟨_, ?_, h.setCall hidle⟩
          rw [hcall, hc, Interleaving.advance]
  | returning core result =>
      obtain ⟨hcall, hidle⟩ := hrel.of_next_eq_none (by rw [hc, next])
      simp only [hc, FineGrained.goOn, Option.some.injEq] at hstep
      subst hstep
      have hout : Rel { f with handedOut := f.handedOut ++ result.toList.map (core, ·) }
          { m with handedOut := m.handedOut ++ result.toList.map (core, ·) } lists :=
        { h with handedOut := by rw [h.handedOut] }
      refine ⟨_, ?_, hout.setCall hidle⟩
      rw [hcall, hc, Interleaving.advance]

omit [DecidableEq T] in
/-- An operation that is pending is the one that the call asks for. -/
theorem CallRel.of_pending (h : CallRel n lists t c d) (hcore : core < n)
    {op : AtomicQueue.Op Submission} (hpending : (lists core).phase t = .pending op) :
    next n c = some (core, op) ∧ d = c ∧
      ∀ k < n, k ≠ core → (lists k).phase t = .idle := by
  cases h with
  | between hidle => rw [hidle core hcore] at hpending; cases hpending
  | @pending core' op' hnext _ hpending' hidle =>
      by_cases hsame : core = core'
      · subst hsame
        rw [hpending'] at hpending
        cases hpending
        exact ⟨hnext, rfl, hidle⟩
      · rw [hidle core hcore hsame] at hpending
        cases hpending
  | @done core' _ _ _ _ hdone hidle =>
      by_cases hsame : core = core'
      · subst hsame
        rw [hdone] at hpending
        cases hpending
      · rw [hidle core hcore hsame] at hpending
        cases hpending

omit [DecidableEq T] in
/-- When an operation has taken effect, the interleaving model has gone on. -/
theorem CallRel.of_done (h : CallRel n lists t c d) (hcore : core < n)
    {r : AtomicQueue.Ret Submission} (hdone : (lists core).phase t = .done r) :
    d = resume c r ∧ ∀ k < n, k ≠ core → (lists k).phase t = .idle := by
  cases h with
  | between hidle => rw [hidle core hcore] at hdone; cases hdone
  | @pending core' _ _ _ hpending hidle =>
      by_cases hsame : core = core'
      · subst hsame
        rw [hpending] at hdone
        cases hdone
      · rw [hidle core hcore hsame] at hdone
        cases hdone
  | @done core' _ _ _ _ hdone' hidle =>
      by_cases hsame : core = core'
      · subst hsame
        rw [hdone'] at hdone
        cases hdone
        exact ⟨rfl, hidle⟩
      · rw [hidle core hcore hsame] at hdone
        cases hdone

omit [DecidableEq T] in
/-- A call that could call its operation is in none. -/
theorem CallRel.of_idle (h : CallRel n lists t c d) {op : AtomicQueue.Op Submission}
    (hnext : next n c = some (core, op)) (hidle : (lists core).phase t = .idle) :
    d = c ∧ ∀ k < n, (lists k).phase t = .idle := by
  cases h with
  | between hall => exact ⟨rfl, hall⟩
  | pending hnext' _ hpending =>
      obtain ⟨rfl, -⟩ := Prod.mk.inj (Option.some.inj (hnext.symm.trans hnext'))
      rw [hidle] at hpending
      cases hpending
  | done hnext' _ hdone =>
      obtain ⟨rfl, -⟩ := Prod.mk.inj (Option.some.inj (hnext.symm.trans hnext'))
      rw [hidle] at hdone
      cases hdone

/-- An operation on a queue is called, or returns, or makes an access that the
atomic list does not see: the queues of the interleaving model stay as they
are. -/
theorem Rel.setQueue (h : Rel f m lists) {q : AtomicQueue.State T Submission}
    {a : Atomic T (List Submission) (AtomicQueue.Op Submission) (AtomicQueue.Ret Submission)}
    (hsim : AtomicQueue.Sim q a) (hstate : a.state = (lists core).state)
    (hother : ∀ u, u ≠ t → a.phase u = (lists core).phase u) {c : Call Submission}
    (hcall : CallRel f.numCores (setList lists core a) t c (m.calls t)) :
    Rel ((f.setQueue core q).setCall t c) m (setList lists core a) where
  cores := h.cores
  length := h.length
  sim := sim_setList h.sim hsim
  queue k rq hrq := by
    unfold setList
    by_cases hk : k = core
    · subst hk
      rw [Function.update_self, hstate]
      exact h.queue k rq hrq
    · rw [Function.update_of_ne hk]
      exact h.queue k rq hrq
  call u := by
    change CallRel f.numCores _ u (Function.update f.calls t c u) _
    by_cases hu : u = t
    · subst hu
      rwa [Function.update_self]
    · rw [Function.update_of_ne hu]
      exact (h.call u).congr fun k _ => phase_setList (hother u hu) k
  submitted := h.submitted
  handedOut := h.handedOut

theorem setQueue_setCall_self (s : State T) (core : ℕ) (q : AtomicQueue.State T Submission)
    (t : T) : (s.setQueue core q).setCall t (s.calls t) = s.setQueue core q := by
  simp only [State.setCall, State.setQueue, Function.update_eq_self]

/-- Where an operation takes effect the interleaving model makes its step. -/
theorem Rel.effect (h : Rel f m lists) (hcore : core < f.numCores)
    {op : AtomicQueue.Op Submission} (hpending : (lists core).phase t = .pending op)
    {q : AtomicQueue.State T Submission}
    (hsim : AtomicQueue.Sim q
      ((lists core).effect (AtomicQueue.listObject Submission) t op)) :
    ∃ m', Interleaving.step m (.step t) = some m' ∧
      Rel (f.setQueue core q) m'
        (setList lists core ((lists core).effect (AtomicQueue.listObject Submission) t op)) := by
  obtain ⟨hnext, hcall, hidle⟩ := (h.call t).of_pending hcore hpending
  obtain ⟨rq, hrq⟩ := h.exists_queue hcore
  obtain ⟨hqueue, hlen⟩ := h.queue core rq hrq
  have hle : rq.queue.length ≤ AtomicQueue.maxTasks := hqueue ▸ (h.sim core hcore).length_le
  obtain ⟨happly, hlen'⟩ := AtomicQueue.perform_exact hlen hle op
  rw [hqueue] at happly
  have hstep : Interleaving.step m (.step t) = some _ :=
    advance_perform (c := m.calls t) hrq (by rw [h.length, hcall]; exact hnext)
  rw [hcall] at hstep
  refine ⟨_, hstep, ?_⟩
  · refine ⟨h.cores, ?_, sim_setList h.sim hsim, ?_, ?_, h.submitted, h.handedOut⟩
    · exact (List.length_set ..).trans h.length
    · intro k rq' hrq'
      change (m.sched.runQueues.set core _)[k]? = some rq' at hrq'
      unfold setList
      by_cases hk : k = core
      · subst hk
        rw [List.getElem?_set_self (h.length ▸ hcore), Option.some.injEq] at hrq'
        subst hrq'
        rw [Function.update_self]
        exact ⟨(congrArg Prod.fst happly).symm, hlen'⟩
      · rw [List.getElem?_set_ne (Ne.symm hk)] at hrq'
        rw [Function.update_of_ne hk]
        exact h.queue k rq' hrq'
    · intro u
      change CallRel f.numCores _ u (f.calls u) (Function.update m.calls t _ u)
      by_cases hu : u = t
      · subst hu
        rw [Function.update_self]
        refine .done hnext hcore ?_ fun k hk hne => ?_
        · unfold setList
          rw [Function.update_self]
          exact (Function.update_self ..).trans (congrArg Phase.done (congrArg Prod.snd happly))
        · unfold setList
          rw [Function.update_of_ne hne]
          exact hidle k hk hne
      · rw [Function.update_of_ne hu]
        exact (h.call u).congr fun k _ => phase_setList (Function.update_of_ne hu ..) k

/-- One step at this granularity is at most one step of the interleaving
model. -/
theorem rel_step (h : Rel f m lists) {a : Label T} (hstep : step f a = some f') :
    ∃ bs m' lists', run Interleaving.step m bs = some m' ∧ Rel f' m' lists' := by
  cases a with
  | start t op =>
      obtain ⟨hidle, hstart⟩ := Option.ite_none_right_eq_some.mp hstep
      obtain ⟨m', hm', hrel⟩ := h.start hidle hstart
      exact ⟨[.start t op], m', lists, (run_singleton m _).trans hm', hrel⟩
  | goOn t =>
      obtain ⟨m', hm', hrel⟩ := h.goOn hstep
      exact ⟨[.step t], m', lists, (run_singleton m _).trans hm', hrel⟩
  | queue core a =>
      obtain ⟨hcore, hqueue⟩ := Option.ite_none_right_eq_some.mp hstep
      have hsim := h.sim core hcore
      have haccess : ∀ t, a = .step t ∨ a = .spurious t →
          (AtomicQueue.step (f.queues core) a).map (f.setQueue core) = some f' →
          ∃ bs m' lists', run Interleaving.step m bs = some m' ∧ Rel f' m' lists' := by
        intro t ha hmap
        obtain ⟨q, hq, rfl⟩ := Option.map_eq_some_iff.mp hmap
        obtain hsame | ⟨op, hpending, heffect⟩ := AtomicQueue.sim_access hsim ha hq
        · have hself : setList lists core (lists core) = lists := Function.update_eq_self ..
          have hrel := h.setQueue (t := t) (c := f.calls t) hsame rfl (fun _ _ => rfl)
            (by rw [hself]; exact h.call t)
          exact ⟨[], m, _, rfl, by rwa [setQueue_setCall_self] at hrel⟩
        · obtain ⟨m', hm', hrel⟩ := h.effect hcore hpending heffect
          exact ⟨[.step t], m', _, (run_singleton m _).trans hm', hrel⟩
      cases a with
      | step t => exact haccess t (.inl rfl) hqueue
      | spurious t => exact haccess t (.inr rfl) hqueue
      | call t op =>
          obtain ⟨hnext, hmap⟩ := Option.ite_none_right_eq_some.mp hqueue
          obtain ⟨q, hq, rfl⟩ := Option.map_eq_some_iff.mp hmap
          obtain ⟨hidle, hcalled⟩ := AtomicQueue.sim_call hsim hq
          obtain ⟨hcall, hall⟩ := (h.call t).of_idle hnext hidle
          have hrel := h.setQueue (t := t) (c := f.calls t) hcalled rfl
            (fun u hu => Function.update_of_ne hu ..) (by
              rw [hcall]
              refine .pending hnext hcore ?_ fun k hk hne => ?_
              · unfold setList
                rw [Function.update_self]
                exact Function.update_self ..
              · unfold setList
                rw [Function.update_of_ne hne]
                exact hall k hk)
          exact ⟨[], m, _, rfl, by rwa [setQueue_setCall_self] at hrel⟩
      | ret t =>
          simp only [queueStep] at hqueue
          split at hqueue
          · rename_i r hpc
            obtain ⟨q, hq, rfl⟩ := Option.map_eq_some_iff.mp hqueue
            obtain ⟨hdone, hreturned⟩ := AtomicQueue.sim_ret hsim hpc hq
            obtain ⟨hcall, hidle⟩ := (h.call t).of_done hcore hdone
            refine ⟨[], m, _, rfl, h.setQueue hreturned rfl
              (fun u hu => Function.update_of_ne hu ..) ?_⟩
            rw [hcall]
            refine .between fun k hk => ?_
            unfold setList
            by_cases hk' : k = core
            · subst hk'
              rw [Function.update_self]
              exact Function.update_self ..
            · rw [Function.update_of_ne hk']
              exact hidle k hk hk'
          · cases hqueue

end

/-! ### Runs -/

/-- The queues are created once and for all. -/
theorem numCores_step {f f' : State T} {a : Label T} (hstep : step f a = some f') :
    f'.numCores = f.numCores := by
  cases a with
  | start t op =>
      obtain ⟨-, hstart⟩ := Option.ite_none_right_eq_some.mp hstep
      cases op with
      | spawn | wake | preemptCurrent =>
          cases hstart
          rfl
      | spawnOnCore | schedule | blockCurrent =>
          obtain ⟨-, heq⟩ := Option.ite_none_right_eq_some.mp hstart
          cases heq
          rfl
  | goOn t =>
      simp only [step] at hstep
      cases hc : f.calls t with
      | idle | pushing | popping | stealing => simp [hc, goOn] at hstep
      | leastLoaded | busiest =>
          simp only [hc, goOn, Option.ite_none_left_eq_some, Option.some.injEq] at hstep
          obtain ⟨-, rfl⟩ := hstep
          rfl
      | repushing core first rest =>
          cases rest <;> simp only [hc, goOn] at hstep <;> cases hstep
          rfl
      | returning =>
          simp only [hc, goOn, Option.some.injEq] at hstep
          subst hstep
          rfl
  | queue core a =>
      obtain ⟨-, hqueue⟩ := Option.ite_none_right_eq_some.mp hstep
      cases a with
      | step | spurious =>
          obtain ⟨q, -, rfl⟩ := Option.map_eq_some_iff.mp hqueue
          rfl
      | call =>
          obtain ⟨-, hmap⟩ := Option.ite_none_right_eq_some.mp hqueue
          obtain ⟨q, -, rfl⟩ := Option.map_eq_some_iff.mp hmap
          rfl
      | ret =>
          simp only [queueStep] at hqueue
          split at hqueue
          · obtain ⟨q, -, rfl⟩ := Option.map_eq_some_iff.mp hqueue
            rfl
          · cases hqueue

/-- Every run here is matched by a run of the interleaving model. -/
theorem rel_of_run {numCores : ℕ} {as : List (Label T)} {f : State T}
    (hrun : run step (new T numCores) as = some f) :
    f.numCores = numCores ∧ ∃ bs m lists,
      run Interleaving.step (Interleaving.new T numCores) bs = some m ∧ Rel f m lists := by
  refine run_invariant (I := fun f : State T => f.numCores = numCores ∧ ∃ bs m lists,
    run Interleaving.step (Interleaving.new T numCores) bs = some m ∧ Rel f m lists)
    ?_ ⟨rfl, [], _, _, rfl, rel_new numCores⟩ hrun
  rintro f a f' ⟨hcores, bs, m, lists, hm, hrel⟩ hstep
  obtain ⟨bs', m', lists', hm', hrel'⟩ := rel_step hrel hstep
  refine ⟨(numCores_step hstep).trans hcores, bs ++ bs', m', lists', ?_, hrel'⟩
  rw [run_append, hm, Option.bind_some, hm']

omit [DecidableEq T] in
/-- Between calls nobody is in a critical section: each deque is the list of
the interleaving model, and its counter is exact. -/
theorem Rel.quiescent {f : State T} {m : Interleaving.State T} {lists : Lists T}
    (h : Rel f m lists) (hidle : ∀ t, f.calls t = .idle) {k : ℕ} (hk : k < f.numCores) :
    (f.queues k).locked = false ∧ (f.queues k).deque = (lists k).state ∧
      (f.queues k).len = (f.queues k).deque.length := by
  have hsim := h.sim k hk
  have hfree : (f.queues k).locked = false := by
    by_contra hlocked
    obtain ⟨t, hholds, -⟩ := hsim.held (Bool.not_eq_false _ ▸ hlocked)
    have hphase := ((h.call t).of_next_eq_none (by rw [hidle t]; rfl)).2 k hk
    rw [hsim.phase_eq t] at hphase
    cases hpc : (f.queues k).pcs t <;> rw [hpc] at hphase hholds <;> cases hphase
    cases hholds
  have hdeque := (hsim.free hfree).1
  exact ⟨hfree, hdeque, by rw [hsim.len_eq, hdeque]⟩

omit [DecidableEq T] in
theorem Rel.queued_eq {f : State T} {m : Interleaving.State T} {lists : Lists T}
    (h : Rel f m lists) (hidle : ∀ t, f.calls t = .idle) :
    queued m.sched =
      ((List.range f.numCores).map fun k => ((f.queues k).deque : Multiset Submission)).sum := by
  unfold queued
  congr 1
  apply List.ext_getElem?
  intro k
  rw [List.getElem?_map, List.getElem?_map]
  by_cases hk : k < f.numCores
  · obtain ⟨rq, hrq⟩ := h.exists_queue hk
    rw [List.getElem?_range hk, hrq, Option.map_some, Option.map_some, (h.queue k rq hrq).1,
      (h.quiescent hidle hk).2.1]
  · have hpast : m.sched.runQueues[k]? = none :=
      List.getElem?_eq_none (by rw [h.length]; omega)
    rw [hpast, List.getElem?_eq_none (by rw [List.length_range]; omega)]
    rfl

/-- **The scheduler at the granularity of single accesses refines the
interleaving model**, and keeps its tasks as that does. After every run there
is a run of the interleaving model with the same submissions and the same tasks
handed out; no submission is handed out twice, or without having been made; and
between calls all locks are free, all counters exact, and every submission is
once in one deque or was handed out once. -/
theorem refines_interleaving [Fintype T] {numCores : ℕ} {as : List (Label T)} {f : State T}
    (hrun : run step (new T numCores) as = some f) :
    (∃ bs m, run Interleaving.step (Interleaving.new T numCores) bs = some m ∧
      m.submitted = f.submitted ∧ m.handedOut = f.handedOut) ∧
    f.submitted.Nodup ∧ (f.handedOut.map Prod.snd).Nodup ∧
    (∀ x ∈ f.handedOut.map Prod.snd, x ∈ f.submitted) ∧
    ((∀ t, f.calls t = .idle) →
      (∀ k < numCores, (f.queues k).locked = false ∧
        (f.queues k).len = (f.queues k).deque.length) ∧
      (f.submitted : Multiset Submission) = ↑(f.handedOut.map Prod.snd) +
        ((List.range numCores).map fun k => ((f.queues k).deque : Multiset Submission)).sum) := by
  obtain ⟨rfl, bs, m, lists, hm, hrel⟩ := rel_of_run hrun
  have hacc := accounted_of_run hm
  have hsub := hrel.submitted
  have hreturned : returned m = ↑(f.handedOut.map Prod.snd) := by
    unfold returned
    rw [hrel.handedOut]
  have htotal : (f.submitted : Multiset Submission) =
      ↑(f.handedOut.map Prod.snd) + (queued m.sched + inTransit m) := by
    rw [← hreturned, ← add_assoc, ← hacc.total, hsub]
  have hnodup : f.submitted.Nodup := hsub ▸ hacc.nodup
  have hparts : (f.submitted : Multiset Submission).Nodup := hnodup
  rw [htotal, Multiset.nodup_add] at hparts
  refine ⟨⟨bs, m, hm, hsub, hrel.handedOut⟩, hnodup, hparts.1, ?_, ?_⟩
  · intro x hx
    have hmem : x ∈ (f.submitted : Multiset Submission) := by
      rw [htotal, Multiset.mem_add]
      exact .inl hx
    exact hmem
  · intro hidle
    have hmidle : ∀ t, m.calls t = .idle := by
      intro t
      rw [((hrel.call t).of_next_eq_none (by rw [hidle t]; rfl)).1, hidle t]
    refine ⟨fun k hk => ?_, ?_⟩
    · obtain ⟨hfree, -, hlen⟩ := hrel.quiescent hidle hk
      exact ⟨hfree, hlen⟩
    · rw [htotal, inTransit_of_idle hmidle, add_zero, hrel.queued_eq hidle]

/-- Thread `t` makes its next `n` accesses on the queue of a core. -/
def accesses (core : ℕ) (t : Bool) (n : ℕ) : List (Label Bool) :=
  List.replicate n (.queue core (.step t))

/-- Two threads push on core 0, and the second one waits for the lock. The
first one then schedules on core 1, between the two accesses of the second
push, and steals the task when it is there. -/
def stealDuringPush : List (Label Bool) :=
  let task (id : ℕ) := Task.new id 0 "task" 0 0 0
  [.start true (.spawnOnCore 0 (task 7)), .start false (.spawnOnCore 0 (task 8)),
    .queue 0 (.call true (.locked (.push ⟨0, task 7⟩))),
    .queue 0 (.call false (.locked (.push ⟨1, task 8⟩)))] ++
  accesses 0 true 1 ++ accesses 0 false 1 ++ accesses 0 true 3 ++ accesses 0 false 3 ++
  [.queue 0 (.ret true), .start true (.schedule 1), .queue 1 (.call true (.locked .pop))] ++
  accesses 1 true 3 ++
  [.queue 1 (.ret true), .queue 0 (.call true .len)] ++ accesses 0 false 2 ++
  accesses 0 true 1 ++
  [.queue 0 (.ret false), .queue 0 (.ret true), .queue 1 (.call true .len)] ++
  accesses 1 true 1 ++
  [.queue 1 (.ret true), .goOn true, .queue 0 (.call true (.locked .stealHalf))] ++
  accesses 0 true 6 ++ [.queue 0 (.ret true), .goOn true, .goOn true]

theorem refines_interleaving_stealDuringPush :
    ∃ f, run step (new Bool 2) stealDuringPush = some f ∧
      f.handedOut.map Prod.fst = [1] ∧ (∀ t, f.calls t = .idle) ∧
      (f.submitted : Multiset Submission) = ↑(f.handedOut.map Prod.snd) +
        ((List.range 2).map fun k => ((f.queues k).deque : Multiset Submission)).sum := by
  obtain ⟨f, hrun, hout, hidle⟩ : ∃ f, run step (new Bool 2) stealDuringPush = some f ∧
      f.handedOut.map Prod.fst = [1] ∧ ∀ t, f.calls t = .idle := ⟨_, rfl, rfl, by decide⟩
  obtain ⟨-, -, -, -, hquiescent⟩ := refines_interleaving hrun
  exact ⟨f, hrun, hout, hidle, (hquiescent hidle).2⟩

end FineGrained

end SmpNostd
