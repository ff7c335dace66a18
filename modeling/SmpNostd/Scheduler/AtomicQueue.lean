import SmpNostd.Lib.Linearizability
import SmpNostd.Scheduler.RunQueue

/-!
The run queue at the granularity of single memory accesses, and its
linearizability.

`push`, `pop` and `steal_half` work on the deque under the spin lock and bring
the counter `len` up to date before they leave it; `len` reads the counter
without the lock. Inside a critical section the counter therefore lags behind
the deque, and a reader can look in between. What it reads is nevertheless
exact, because an operation may be taken to happen when it moves the counter
rather than when it touches the deque: `push` at its `fetch_add`, `pop` and
`steal_half` at their `fetch_sub`, and the ones that find nothing to take where
they find it. Between these points the abstract list is the deque with the
pending change undone, and its length is the counter.
-/

namespace SmpNostd.AtomicQueue

open Machine Lin

/-! ### The operations, and the list they are meant to work on -/

/-- The operations that take the lock. -/
inductive Locked (α : Type)
  | push (task : α)
  | pop
  | stealHalf
  deriving DecidableEq, Repr

inductive Op (α : Type)
  | locked (o : Locked α)
  | len
  deriving DecidableEq, Repr

inductive Ret (α : Type)
  | unit
  | task (task : Option α)
  | stolen (tasks : List α)
  | len (n : ℕ)
  deriving DecidableEq, Repr

/-- What a run queue is for: a list that `push` appends to, `pop` takes the
head of, `steal_half` takes the back half of, last task first, and `len`
counts. -/
def listObject (α : Type) : Object (List α) (Op α) (Ret α) where
  init := []
  apply l
    | .locked (.push task) => (l ++ [task], .unit)
    | .locked .pop => (l.tail, .task l.head?)
    | .locked .stealHalf =>
        (l.take (l.length - l.length / 2),
          .stolen (l.drop (l.length - l.length / 2)).reverse)
    | .len => (l, .len l.length)

/-- An operation as one critical section, as the scheduler's calls see it. -/
def perform {α : Type} (rq : RunQueue α) : Op α → RunQueue α × Ret α
  | .locked (.push task) => (rq.push task, .unit)
  | .locked .pop => (rq.pop.2, .task rq.pop.1)
  | .locked .stealHalf => (rq.stealHalf.2, .stolen rq.stealHalf.1)
  | .len => (rq, .len rq.len)

/-! ### The implementation -/

/-- The next access of a thread in an operation. -/
inductive Pc (α : Type)
  | idle
  /-- `compare_exchange_weak` on the lock word. -/
  | cas (o : Locked α)
  /-- The inner loop, which only reads the lock word. -/
  | spin (o : Locked α)
  | pushBack (task : α)
  | pushAdd (task : α)
  | popFront
  | popSub (task : α)
  /-- `q.len() / 2`. -/
  | stealCount
  /-- The loop, with the number of rounds to go. -/
  | stealPop (n : ℕ) (stolen : List α)
  | stealSub (stolen : List α)
  /-- The guard is dropped: `locked := false`. -/
  | unlock (r : Ret α)
  | lenLoad
  | done (r : Ret α)
  deriving DecidableEq, Repr

structure State (T α : Type) where
  locked : Bool
  deque : List α
  len : ℕ
  pcs : T → Pc α

/-- A new run queue. -/
def new (T α : Type) : State T α where
  locked := false
  deque := []
  len := 0
  pcs _ := .idle

/-- The number of boxes a `VecDeque` can hold: its buffer is at most
`isize::MAX` bytes, and growing it further panics. -/
def maxTasks : ℕ := (2 ^ 63 - 1) / 8

/-- A thread calls an operation, makes its next access, has the weak exchange
fail for no reason, or returns. -/
inductive Label (T α : Type)
  | call (t : T) (op : Op α)
  | step (t : T)
  | spurious (t : T)
  | ret (t : T)
  deriving DecidableEq, Repr

/-- Where a call starts. -/
def Op.start {α : Type} : Op α → Pc α
  | .locked o => .cas o
  | .len => .lenLoad

/-- Where a thread that has got the lock goes on. -/
def Locked.enter {α : Type} : Locked α → Pc α
  | .push task => .pushBack task
  | .pop => .popFront
  | .stealHalf => .stealCount

variable {T α : Type} [DecidableEq T]

def State.setPc (s : State T α) (t : T) (pc : Pc α) : State T α :=
  { s with pcs := Function.update s.pcs t pc }

/-- One access of a thread in the middle of an operation. -/
def advance (s : State T α) (t : T) : Pc α → Option (State T α)
  | .cas o =>
      if s.locked then some (s.setPc t (.spin o))
      else some ({ s with locked := true }.setPc t o.enter)
  | .spin o => if s.locked then some s else some (s.setPc t (.cas o))
  | .pushBack task =>
      if s.deque.length < maxTasks then
        some ({ s with deque := s.deque ++ [task] }.setPc t (.pushAdd task))
      else none
  | .pushAdd _ => some ({ s with len := RunQueue.fetchAdd s.len }.setPc t (.unlock .unit))
  | .popFront =>
      match s.deque with
      | [] => some (s.setPc t (.unlock (.task none)))
      | task :: deque => some ({ s with deque := deque }.setPc t (.popSub task))
  | .popSub task =>
      some ({ s with len := RunQueue.fetchSub s.len 1 }.setPc t (.unlock (.task (some task))))
  | .stealCount =>
      if s.deque.length / 2 = 0 then some (s.setPc t (.unlock (.stolen [])))
      else some (s.setPc t (.stealPop (s.deque.length / 2) []))
  | .stealPop 0 stolen => some (s.setPc t (.stealSub stolen))
  | .stealPop (n + 1) stolen =>
      match s.deque.getLast? with
      | some task =>
          some ({ s with deque := s.deque.dropLast }.setPc t (.stealPop n (stolen ++ [task])))
      | none => some (s.setPc t (.stealPop n stolen))
  | .stealSub stolen =>
      some ({ s with len := RunQueue.fetchSub s.len stolen.length }.setPc t
        (.unlock (.stolen stolen)))
  | .unlock r => some ({ s with locked := false }.setPc t (.done r))
  | .lenLoad => some (s.setPc t (.done (.len s.len)))
  | .idle | .done _ => none

def step (s : State T α) : Label T α → Option (State T α)
  | .call t op =>
      match s.pcs t with
      | .idle => some (s.setPc t op.start)
      | _ => none
  | .step t => advance s t (s.pcs t)
  | .spurious t =>
      match s.pcs t with
      | .cas o => some (s.setPc t (.spin o))
      | _ => none
  | .ret t =>
      match s.pcs t with
      | .done _ => some (s.setPc t .idle)
      | _ => none

/-- What is seen of a step: the calls, and the answers at the returns. -/
def visible (s : State T α) : Label T α → Option (Event T (Op α) (Ret α))
  | .call t op => some (.call t op)
  | .ret t =>
      match s.pcs t with
      | .done r => some (.ret t r)
      | _ => none
  | .step _ | .spurious _ => none

/-! ### The simulation -/

/-- Where the atomic object has a thread: its operation is pending until the
access that moves the counter or finds nothing to take. -/
def Pc.phase : Pc α → Phase (Op α) (Ret α)
  | .idle => .idle
  | .cas o | .spin o => .pending (.locked o)
  | .pushBack task | .pushAdd task => .pending (.locked (.push task))
  | .popFront | .popSub _ => .pending (.locked .pop)
  | .stealCount | .stealPop _ _ | .stealSub _ => .pending (.locked .stealHalf)
  | .lenLoad => .pending .len
  | .unlock r | .done r => .done r

/-- The thread is inside a critical section. -/
def Pc.holds : Pc α → Bool
  | .pushBack _ | .pushAdd _ | .popFront | .popSub _ | .stealCount | .stealPop _ _
  | .stealSub _ | .unlock _ => true
  | .idle | .cas _ | .spin _ | .lenLoad | .done _ => false

/-- What the deque is, compared with the abstract list `l`, at each point of
a critical section. -/
def Pc.View (deque l : List α) : Pc α → Prop
  | .pushAdd task => deque = l ++ [task] ∧ l.length < maxTasks
  | .popSub task => task :: deque = l
  | .stealPop n stolen => deque ++ stolen.reverse = l ∧ n + stolen.length = l.length / 2
  | .stealSub stolen => deque ++ stolen.reverse = l ∧ stolen.length = l.length / 2
  | _ => deque = l

/-- The states of the queue and of the atomic list that belong together. -/
structure Sim (s : State T α) (c : Atomic T (List α) (Op α) (Ret α)) : Prop where
  phase_eq : ∀ t, c.phase t = (s.pcs t).phase
  /-- The counter is exact for the abstract list, inside critical sections
  too. -/
  len_eq : s.len = c.state.length
  length_le : c.state.length ≤ maxTasks
  free : s.locked = false → s.deque = c.state ∧ ∀ t, (s.pcs t).holds = false
  held : s.locked = true → ∃ t, (s.pcs t).holds = true ∧
    (∀ u, (s.pcs u).holds = true → u = t) ∧ (s.pcs t).View s.deque c.state

omit [DecidableEq T] in
theorem sim_new : Sim (new T α) ⟨(listObject α).init, fun _ => .idle⟩ where
  phase_eq _ := rfl
  len_eq := rfl
  length_le := Nat.zero_le _
  free _ := ⟨rfl, fun _ => rfl⟩
  held h := by simp [new] at h

omit [DecidableEq T] in
/-- A thread inside a critical section is alone there. -/
theorem Sim.alone {s : State T α} {c : Atomic T (List α) (Op α) (Ret α)} (h : Sim s c)
    {t : T} {pc : Pc α} (hpc : s.pcs t = pc) (ht : pc.holds = true) :
    s.locked = true ∧ (∀ u, u ≠ t → (s.pcs u).holds = false) ∧
      pc.View s.deque c.state := by
  subst hpc
  cases hl : s.locked with
  | false => rw [(h.free hl).2 t] at ht; cases ht
  | true =>
      obtain ⟨v, -, huniq, hview⟩ := h.held hl
      obtain rfl := huniq t ht
      refine ⟨rfl, fun u hu => ?_, hview⟩
      cases hu' : (s.pcs u).holds with
      | false => rfl
      | true => exact absurd (huniq u hu') hu

theorem phase_update {s : State T α} {c : Atomic T (List α) (Op α) (Ret α)} (h : Sim s c)
    (t : T) (pc : Pc α) (u : T) :
    Function.update c.phase t pc.phase u = (Function.update s.pcs t pc u).phase := by
  by_cases hu : u = t
  · subst hu
    simp
  · simp [hu, h.phase_eq u]

/-- Moving on outside the critical sections. -/
theorem Sim.outside {s : State T α} {c : Atomic T (List α) (Op α) (Ret α)} (h : Sim s c)
    {t : T} (pc : Pc α) (hold : (s.pcs t).holds = false) (hnew : pc.holds = false) :
    Sim (s.setPc t pc) (c.setPhase t pc.phase) := by
  have hholds : ∀ u, (Function.update s.pcs t pc u).holds = (s.pcs u).holds := by
    intro u
    by_cases hu : u = t
    · subst hu
      simp [hold, hnew]
    · simp [hu]
  refine ⟨phase_update h t pc, h.len_eq, h.length_le, fun hl => ?_, fun hl => ?_⟩
  · obtain ⟨hdeque, hfree⟩ := h.free hl
    exact ⟨hdeque, fun u => (hholds u).trans (hfree u)⟩
  · obtain ⟨v, hv, huniq, hview⟩ := h.held hl
    refine ⟨v, (hholds v).trans hv, fun u hu => huniq u ((hholds u).symm.trans hu), ?_⟩
    have hvt : v ≠ t := by
      rintro rfl
      rw [hold] at hv
      cases hv
    change (Function.update s.pcs t pc v).View s.deque c.state
    rwa [Function.update_of_ne hvt]

/-- One access inside a critical section, after which the abstract list is
`l`. -/
theorem Sim.inside {s : State T α} {c : Atomic T (List α) (Op α) (Ret α)} (h : Sim s c)
    {t : T} {pc : Pc α} (hold : (s.pcs t).holds = true) (hnew : pc.holds = true)
    {deque l : List α} {len : ℕ} (hview : pc.View deque l) (hlen : len = l.length)
    (hle : l.length ≤ maxTasks) :
    Sim ({ s with deque := deque, len := len }.setPc t pc)
      ⟨l, Function.update c.phase t pc.phase⟩ := by
  obtain ⟨hlocked, hother, -⟩ := h.alone rfl hold
  refine ⟨phase_update h t pc, hlen, hle, fun hl => ?_, fun _ => ⟨t, ?_, ?_, ?_⟩⟩
  · change s.locked = false at hl
    rw [hlocked] at hl
    cases hl
  · change (Function.update s.pcs t pc t).holds = true
    rwa [Function.update_self]
  · intro u hu
    change (Function.update s.pcs t pc u).holds = true at hu
    by_contra hut
    rw [Function.update_of_ne hut, hother u hut] at hu
    cases hu
  · change (Function.update s.pcs t pc t).View deque l
    rwa [Function.update_self]

/-- An access that only moves on inside a critical section is not seen and
leaves the abstract list. -/
theorem Sim.silent {s : State T α} {c : Atomic T (List α) (Op α) (Ret α)} (h : Sim s c)
    {t : T} {pc : Pc α} (hpc : s.pcs t = pc) (hold : pc.holds = true) (pc' : Pc α)
    (deque : List α) (hnew : pc'.holds = true) (hphase : pc'.phase = pc.phase)
    (hview : pc'.View deque c.state) :
    ∃ c', Sim ({ s with deque := deque }.setPc t pc') c' ∧ (listObject α).History c [] c' := by
  have hsame : Function.update c.phase t pc'.phase = c.phase := by
    rw [hphase, ← hpc, ← h.phase_eq t, Function.update_eq_self]
  have hsim := h.inside (hpc ▸ hold) hnew hview h.len_eq h.length_le
  rw [hsame] at hsim
  exact ⟨c, hsim, .nil c⟩

/-- The access at which the operation of `t` takes effect. -/
theorem Sim.takesEffect {s : State T α} {c : Atomic T (List α) (Op α) (Ret α)} (h : Sim s c)
    {t : T} {pc : Pc α} (hpc : s.pcs t = pc) (hold : pc.holds = true) {op : Op α}
    (hpending : pc.phase = .pending op) {deque : List α} {len : ℕ}
    (hdeque : deque = ((listObject α).apply c.state op).1) (hlen : len = deque.length)
    (hle : deque.length ≤ maxTasks) :
    ∃ c', Sim ({ s with deque := deque, len := len }.setPc t
        (.unlock ((listObject α).apply c.state op).2)) c' ∧
      (listObject α).History c [] c' := by
  refine ⟨c.effect (listObject α) t op, ?_, ?_⟩
  · subst hdeque
    exact h.inside (hpc ▸ hold) rfl rfl hlen hle
  · exact Object.Step.history (.effect ((h.phase_eq t).trans (hpc ▸ hpending)))

theorem Sim.outside_silent {s : State T α} {c : Atomic T (List α) (Op α) (Ret α)}
    (h : Sim s c) {t : T} {pc pc' : Pc α} (hpc : s.pcs t = pc) (hold : pc.holds = false)
    (hnew : pc'.holds = false) (hphase : pc'.phase = pc.phase) :
    ∃ c', Sim (s.setPc t pc') c' ∧ (listObject α).History c [] c' := by
  have hsame : c.setPhase t pc'.phase = c := by
    rw [hphase, ← hpc, ← h.phase_eq t, Atomic.setPhase, Function.update_eq_self]
  have hsim := h.outside pc' (hpc ▸ hold) hnew
  rw [hsame] at hsim
  exact ⟨c, hsim, .nil c⟩

/-- The exchange on the lock word succeeds. -/
theorem Sim.acquire {s : State T α} {c : Atomic T (List α) (Op α) (Ret α)} (h : Sim s c)
    {t : T} {o : Locked α} (hpc : s.pcs t = .cas o) (hl : s.locked = false) :
    Sim ({ s with locked := true }.setPc t o.enter) c := by
  obtain ⟨hdeque, hfree⟩ := h.free hl
  have henter : o.enter.holds = true ∧ o.enter.View s.deque c.state ∧
      o.enter.phase = .pending (.locked o) := by
    cases o <;> exact ⟨rfl, hdeque, rfl⟩
  refine ⟨fun u => ?_, h.len_eq, h.length_le, nofun, fun _ => ⟨t, ?_, ?_, ?_⟩⟩
  · change c.phase u = (Function.update s.pcs t o.enter u).phase
    by_cases hu : u = t
    · subst hu
      rw [Function.update_self, henter.2.2, h.phase_eq u, hpc]
      rfl
    · rw [Function.update_of_ne hu, h.phase_eq u]
  · change (Function.update s.pcs t o.enter t).holds = true
    rw [Function.update_self, henter.1]
  · intro u hu
    change (Function.update s.pcs t o.enter u).holds = true at hu
    by_contra hut
    rw [Function.update_of_ne hut, hfree u] at hu
    cases hu
  · change (Function.update s.pcs t o.enter t).View s.deque c.state
    rw [Function.update_self]
    exact henter.2.1

/-- The lock is released. -/
theorem Sim.release {s : State T α} {c : Atomic T (List α) (Op α) (Ret α)} (h : Sim s c)
    {t : T} {r : Ret α} (hpc : s.pcs t = .unlock r) :
    Sim ({ s with locked := false }.setPc t (.done r)) c := by
  obtain ⟨-, hother, hview⟩ := h.alone hpc rfl
  refine ⟨fun u => ?_, h.len_eq, h.length_le, fun _ => ⟨hview, fun u => ?_⟩, nofun⟩
  · change c.phase u = (Function.update s.pcs t (.done r) u).phase
    by_cases hu : u = t
    · subst hu
      rw [Function.update_self, h.phase_eq u, hpc]
      rfl
    · rw [Function.update_of_ne hu, h.phase_eq u]
  · change (Function.update s.pcs t (.done r) u).holds = false
    by_cases hu : u = t
    · subst hu
      rw [Function.update_self]
      rfl
    · rw [Function.update_of_ne hu, hother u hu]

/-! ### Arithmetic of the counter -/

theorem fetchAdd_eq {n : ℕ} (h : n < maxTasks) : RunQueue.fetchAdd n = n + 1 :=
  RunQueue.fetchAdd_of_lt (by unfold maxTasks at h; omega)

theorem fetchSub_eq {n k : ℕ} (hk : k ≤ n) (hn : n ≤ maxTasks) :
    RunQueue.fetchSub n k = n - k :=
  RunQueue.fetchSub_of_le hk (by unfold maxTasks at hn; omega)

/-- The back half of a list, split off. -/
theorem split_half {deque stolen l : List α} (h : deque ++ stolen.reverse = l)
    (hlen : stolen.length = l.length / 2) :
    l.take (l.length - l.length / 2) = deque ∧
      (l.drop (l.length - l.length / 2)).reverse = stolen := by
  have hdeque : l.length - l.length / 2 = deque.length := by
    have := congrArg List.length h
    simp only [List.length_append, List.length_reverse] at this
    omega
  rw [hdeque, ← h]
  simp

theorem stealHalf_len {rq : RunQueue α} (hlen : rq.len = rq.queue.length)
    (hle : rq.queue.length ≤ maxTasks) :
    rq.stealHalf.2.len = rq.queue.length - rq.queue.length / 2 := by
  simp only [RunQueue.stealHalf]
  split
  · rename_i hzero
    rw [hzero, hlen, Nat.sub_zero]
  · simp only [RunQueue.stealLoop_eq _ _ _ (Nat.div_le_self _ 2), List.nil_append,
      List.length_reverse, List.length_drop]
    rw [hlen, fetchSub_eq (by omega) hle]
    omega

/-- A critical section as a whole is the operation on the list, and keeps the
counter exact. -/
theorem perform_refines {rq : RunQueue α} (hlen : rq.len = rq.queue.length)
    (hroom : rq.queue.length < maxTasks) (op : Op α) :
    (listObject α).apply rq.queue op = ((perform rq op).1.queue, (perform rq op).2) ∧
      (perform rq op).1.len = (perform rq op).1.queue.length := by
  cases op with
  | len => exact ⟨by simp [listObject, perform, hlen], hlen⟩
  | locked o =>
      cases o with
      | push task =>
          refine ⟨rfl, ?_⟩
          show RunQueue.fetchAdd rq.len = (rq.queue ++ [task]).length
          rw [hlen, fetchAdd_eq hroom, List.length_append, List.length_singleton]
      | pop =>
          obtain ⟨coreId, queue, len⟩ := rq
          cases queue with
          | nil => exact ⟨rfl, hlen⟩
          | cons task queue =>
              refine ⟨rfl, ?_⟩
              show RunQueue.fetchSub len 1 = queue.length
              simp only [List.length_cons] at hlen hroom
              rw [hlen, fetchSub_eq (by omega) (by omega)]
              omega
      | stealHalf =>
          constructor
          · simp [listObject, perform, RunQueue.stealHalf_fst, RunQueue.stealHalf_snd_queue]
          · show rq.stealHalf.2.len = rq.stealHalf.2.queue.length
            rw [stealHalf_len hlen (Nat.le_of_lt hroom), RunQueue.stealHalf_snd_queue,
              List.length_take]
            omega

/-! ### The steps of `steal_half` -/

section

variable {s s' : State T α} {c : Atomic T (List α) (Op α) (Ret α)} {t : T} {n : ℕ}
  {stolen : List α}

theorem Sim.stealCount (h : Sim s c) (hpc : s.pcs t = .stealCount)
    (hstep : advance s t .stealCount = some s') :
    ∃ c', Sim s' c' ∧ (listObject α).History c [] c' := by
  have hlen := h.len_eq
  have hle := h.length_le
  have hview : s.deque = c.state := (h.alone hpc rfl).2.2
  simp only [advance] at hstep
  split at hstep <;> cases hstep
  · rename_i hzero
    rw [hview] at hzero
    have heffect := h.takesEffect hpc rfl rfl
      (show s.deque = c.state.take (c.state.length - c.state.length / 2) by
        simp [hzero, hview])
      (hlen.trans (congrArg _ hview.symm)) (by rw [hview]; exact hle)
    simpa [listObject, hzero] using heffect
  · exact h.silent hpc rfl (.stealPop _ []) s.deque rfl rfl
      ⟨by simp [hview], by simp [hview]⟩

/-- The tasks are taken one by one, and nobody else sees the deque in between. -/
theorem Sim.stealPop (h : Sim s c) (hpc : s.pcs t = .stealPop n stolen)
    (hstep : advance s t (.stealPop n stolen) = some s') :
    ∃ c', Sim s' c' ∧ (listObject α).History c [] c' := by
  obtain ⟨hdeque, hcount⟩ : s.deque ++ stolen.reverse = c.state ∧
      n + stolen.length = c.state.length / 2 := (h.alone hpc rfl).2.2
  cases n with
  | zero =>
      simp only [advance, Option.some.injEq] at hstep
      subst hstep
      exact h.silent hpc rfl (.stealSub stolen) s.deque rfl rfl ⟨hdeque, by omega⟩
  | succ n =>
      -- half of what there was is still in the deque, so there is a last task
      rcases List.eq_nil_or_concat' s.deque with hnil | ⟨front, task, hlast⟩
      · rw [hnil, List.nil_append] at hdeque
        rw [← hdeque, List.length_reverse] at hcount
        omega
      · simp only [advance, hlast, List.getLast?_concat, List.dropLast_concat,
          Option.some.injEq] at hstep
        subst hstep
        refine h.silent hpc rfl (.stealPop n (stolen ++ [task])) front rfl rfl ⟨?_, ?_⟩
        · rw [← hdeque, hlast]
          simp
        · rw [List.length_append, List.length_singleton]
          omega

/-- When they have all been taken and counted, half of the queue is gone at once. -/
theorem Sim.stealSub (h : Sim s c) (hpc : s.pcs t = .stealSub stolen)
    (hstep : advance s t (.stealSub stolen) = some s') :
    ∃ c', Sim s' c' ∧ (listObject α).History c [] c' := by
  have hlen := h.len_eq
  have hle := h.length_le
  obtain ⟨hdeque, hcount⟩ : s.deque ++ stolen.reverse = c.state ∧
      stolen.length = c.state.length / 2 := (h.alone hpc rfl).2.2
  obtain ⟨htake, hdrop⟩ := split_half hdeque hcount
  have hlength : s.deque.length + stolen.length = c.state.length := by
    rw [← hdeque, List.length_append, List.length_reverse]
  simp only [advance, Option.some.injEq] at hstep
  subst hstep
  have heffect := h.takesEffect hpc rfl rfl htake.symm
    (show RunQueue.fetchSub s.len stolen.length = s.deque.length by
      rw [hlen, fetchSub_eq (by omega) hle]; omega)
    (by omega)
  simp only [listObject, hdrop] at heffect
  exact heffect

end

/-! ### Steps and runs -/

theorem sim_advance {s s' : State T α} {c : Atomic T (List α) (Op α) (Ret α)} (h : Sim s c)
    {t : T} (hstep : advance s t (s.pcs t) = some s') :
    ∃ c', Sim s' c' ∧ (listObject α).History c [] c' := by
  have hlen := h.len_eq
  have hle := h.length_le
  cases hpc : s.pcs t with
  | idle | done r => simp [hpc, advance] at hstep
  | cas o =>
      simp only [hpc, advance] at hstep
      split at hstep <;> cases hstep
      · exact h.outside_silent hpc rfl rfl rfl
      · rename_i hl
        exact ⟨c, h.acquire hpc (by simpa using hl), .nil c⟩
  | spin o =>
      simp only [hpc, advance] at hstep
      split at hstep <;> cases hstep
      · exact ⟨c, h, .nil c⟩
      · exact h.outside_silent hpc rfl rfl rfl
  | lenLoad =>
      simp only [hpc, advance, Option.some.injEq] at hstep
      subst hstep
      have hsim := h.outside (t := t) (.done (.len s.len)) (by rw [hpc]; rfl) rfl
      refine ⟨c.effect (listObject α) t .len, ?_, Object.Step.history (.effect ?_)⟩
      · rw [hlen] at hsim ⊢
        exact hsim
      · rw [h.phase_eq t, hpc]
        rfl
  | unlock r =>
      simp only [hpc, advance, Option.some.injEq] at hstep
      subst hstep
      exact ⟨c, h.release hpc, .nil c⟩
  | pushBack task =>
      have hview : s.deque = c.state := (h.alone hpc rfl).2.2
      simp only [hpc, advance] at hstep
      split at hstep <;> cases hstep
      rename_i hroom
      rw [hview] at hroom ⊢
      exact h.silent hpc rfl (.pushAdd task) _ rfl rfl ⟨rfl, hroom⟩
  | pushAdd task =>
      obtain ⟨hdeque, hroom⟩ : s.deque = c.state ++ [task] ∧ c.state.length < maxTasks :=
        (h.alone hpc rfl).2.2
      simp only [hpc, advance, Option.some.injEq] at hstep
      subst hstep
      refine h.takesEffect hpc rfl rfl hdeque ?_ ?_
      · rw [hlen, fetchAdd_eq hroom, hdeque, List.length_append, List.length_singleton]
      · rw [hdeque, List.length_append]
        exact hroom
  | popFront =>
      have hview : s.deque = c.state := (h.alone hpc rfl).2.2
      simp only [hpc, advance] at hstep
      split at hstep <;> cases hstep
      · rename_i hnil
        have hempty : c.state = [] := hview.symm.trans hnil
        have heffect := h.takesEffect hpc rfl rfl
          (show s.deque = c.state.tail by rw [hnil, hempty]; rfl)
          (hlen.trans (congrArg _ hview.symm)) (by simp [hnil])
        simpa [listObject, hempty] using heffect
      · rename_i task deque hcons
        exact h.silent hpc rfl (.popSub task) deque rfl rfl (hcons.symm.trans hview)
  | popSub task =>
      have hview : task :: s.deque = c.state := (h.alone hpc rfl).2.2
      have hlength : s.deque.length + 1 = c.state.length := by rw [← hview, List.length_cons]
      simp only [hpc, advance, Option.some.injEq] at hstep
      subst hstep
      have heffect := h.takesEffect hpc rfl rfl
        (show s.deque = c.state.tail by rw [← hview]; rfl)
        (show RunQueue.fetchSub s.len 1 = s.deque.length by
          rw [hlen, fetchSub_eq (by omega) hle]; omega)
        (by omega)
      rwa [← hview] at heffect
  | stealCount => exact h.stealCount hpc (hpc ▸ hstep)
  | stealPop n stolen => exact h.stealPop hpc (hpc ▸ hstep)
  | stealSub stolen => exact h.stealSub hpc (hpc ▸ hstep)

theorem sim_step {s s' : State T α} {a : Label T α} {c : Atomic T (List α) (Op α) (Ret α)}
    (h : Sim s c) (hstep : step s a = some s') :
    ∃ c', Sim s' c' ∧ (listObject α).History c (visible s a).toList c' := by
  cases a with
  | step t => exact sim_advance h hstep
  | call t op =>
      simp only [step] at hstep
      split at hstep <;> cases hstep
      rename_i hpc
      have hphase : c.phase t = .idle := by rw [h.phase_eq t, hpc]; rfl
      have hstart : op.start.holds = false ∧ op.start.phase = .pending op := by
        cases op <;> exact ⟨rfl, rfl⟩
      refine ⟨_, h.outside op.start (by rw [hpc]; rfl) hstart.1, ?_⟩
      rw [hstart.2]
      exact Object.Step.history (.call op hphase)
  | spurious t =>
      simp only [step] at hstep
      split at hstep <;> cases hstep
      rename_i o hpc
      exact h.outside_silent hpc rfl rfl rfl
  | ret t =>
      simp only [step] at hstep
      split at hstep <;> cases hstep
      rename_i r hpc
      refine ⟨_, h.outside .idle (by rw [hpc]; rfl) rfl, ?_⟩
      simp only [visible, hpc]
      exact Object.Step.history (.ret (by rw [h.phase_eq t, hpc]; rfl))

/-- **The run queue is linearizable**, its unlocked length included: whatever
the threads do and however their accesses interleave, calls and answers are
those of an atomic list. The counter is the length of the deque whenever the
lock is free, and no `fetch_sub` takes it below zero. -/
theorem runQueue_linearizable {as : List (Label T α)} {s : State T α}
    (hrun : run step (new T α) as = some s) :
    (listObject α).Linearizable (history step visible (new T α) as) ∧
    (s.locked = false → s.len = s.deque.length) ∧
    (∀ t task, s.pcs t = .popSub task → 1 ≤ s.len) ∧
    (∀ t stolen, s.pcs t = .stealSub stolen → stolen.length ≤ s.len) := by
  obtain ⟨c, hsim, hhist⟩ := simulation Sim (fun _ _ _ _ h hstep => sim_step h hstep)
    sim_new hrun
  refine ⟨⟨c, hhist⟩, fun hl => ?_, fun t task hpc => ?_, fun t stolen hpc => ?_⟩
  · rw [hsim.len_eq, (hsim.free hl).1]
  · have hview : task :: s.deque = c.state := (hsim.alone hpc rfl).2.2
    rw [hsim.len_eq, ← hview, List.length_cons]
    omega
  · obtain ⟨hdeque, -⟩ : s.deque ++ stolen.reverse = c.state ∧ _ := (hsim.alone hpc rfl).2.2
    rw [hsim.len_eq, ← hdeque, List.length_append, List.length_reverse]
    omega

/-- A length read between the `push_back` and the `fetch_add` of a push: it
answers for the list without the new task, and the push comes after it. -/
theorem runQueue_linearizable_len_inside_push :
    let as : List (Label Bool ℕ) := [.call true (.locked (.push 7)), .step true, .step true,
      .call false .len, .step false, .ret false, .step true, .step true, .ret true]
    let h : List (Event Bool (Op ℕ) (Ret ℕ)) := [.call true (.locked (.push 7)),
      .call false .len, .ret false (.len 0), .ret true .unit]
    history step visible (new Bool ℕ) as = h ∧ (listObject ℕ).Linearizable h := by
  intro as h
  have hrun : ∃ s, run step (new Bool ℕ) as = some s := ⟨_, rfl⟩
  obtain ⟨s, hs⟩ := hrun
  exact ⟨rfl, (runQueue_linearizable hs).1⟩

end SmpNostd.AtomicQueue
