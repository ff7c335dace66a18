import SmpNostd.Scheduler.AtomicQueue
import SmpNostd.Scheduler.Overtaking

/-!
The placement of tasks without affinity (`spawn` and `least_loaded_core`).

The scan of the lengths ends with the first of the shortest queues. A task put
there cannot make the longest queue longer unless all queues were equally long,
so the queues do not drift apart; a scheduler that is given nothing but such
tasks deals them out to the cores in turn.
-/

namespace SmpNostd

namespace Scheduler

variable {τ : Type} {s t : Scheduler τ} {core : ℕ}

/-- The lowest-numbered core among those of the shortest queues. -/
structure IsLeastLoaded (s : Scheduler τ) (core : ℕ) : Prop where
  lt : core < s.numCores
  shortest : ∀ i < s.numCores, (s.queueOf core).length ≤ (s.queueOf i).length
  lowest : ∀ i < core, (s.queueOf core).length < (s.queueOf i).length

/-- The lengths of the queues, by core. -/
def loads (s : Scheduler τ) : List ℕ := s.runQueues.map (·.queue.length)

/-- The longest queue less the shortest one. -/
def gap (s : Scheduler τ) : ℕ := s.loads.max?.getD 0 - s.loads.min?.getD 0

/-- No deque is longer than a deque can get. -/
def Fits (s : Scheduler τ) : Prop :=
  ∀ rq ∈ s.runQueues, rq.queue.length ≤ AtomicQueue.maxTasks

instance (s : Scheduler τ) : Decidable s.Fits :=
  inferInstanceAs (Decidable (∀ rq ∈ s.runQueues, rq.queue.length ≤ AtomicQueue.maxTasks))

/-- A call of `spawn` as a step of a run: `push_back` panics if the deque cannot
take one more. -/
def spawnStep [TaskLike τ] (s : Scheduler τ) (task : τ) : Option (Scheduler τ) :=
  (s.spawn task).filter fun t => t.Fits

/-! ### The scan for the shortest queue -/

/-- What `least_loaded_core` knows after it has looked at the queues `rqs`. As
long as it has not found a queue that is shorter than `u64::MAX`, it stays with
core 0. -/
def ScannedLeast (rqs : List (RunQueue τ)) (acc : ℕ × ℕ) : Prop :=
  (acc = leastLoadedInit ∧ ∀ (i : ℕ) (rq : RunQueue τ), rqs[i]? = some rq → 2 ^ 64 - 1 ≤ rq.len) ∨
    (∃ rq, rqs[acc.2]? = some rq ∧ rq.len = acc.1) ∧
      ∀ (i : ℕ) (rq : RunQueue τ), rqs[i]? = some rq → acc.1 ≤ rq.len ∧ (i < acc.2 → acc.1 < rq.len)

theorem ScannedLeast.le {rqs : List (RunQueue τ)} {acc : ℕ × ℕ} (h : ScannedLeast rqs acc)
    {i : ℕ} {rq : RunQueue τ} (hi : rqs[i]? = some rq) : acc.1 ≤ rq.len := by
  obtain ⟨rfl, hall⟩ | ⟨-, hall⟩ := h
  · exact hall i rq hi
  · exact (hall i rq hi).1

/-- The next queue is no shorter than the one in hand. -/
theorem ScannedLeast.keep {rqs : List (RunQueue τ)} {acc : ℕ × ℕ} (h : ScannedLeast rqs acc)
    {rq : RunQueue τ} (hrq : acc.1 ≤ rq.len) : ScannedLeast (rqs ++ [rq]) acc := by
  obtain ⟨rfl, hall⟩ | ⟨⟨rqm, hm, hload⟩, hall⟩ := h
  · refine .inl ⟨rfl, fun i rq' hi => ?_⟩
    rcases getElem?_snoc hi with hi | ⟨-, rfl⟩
    · exact hall i rq' hi
    · exact hrq
  · have hlt : acc.2 < rqs.length := (List.getElem?_eq_some_iff.mp hm).1
    refine .inr ⟨⟨rqm, by rwa [List.getElem?_append_left hlt], hload⟩, fun i rq' hi => ?_⟩
    rcases getElem?_snoc hi with hi | ⟨rfl, rfl⟩
    · exact hall i rq' hi
    · exact ⟨hrq, fun hless => absurd hless hlt.not_gt⟩

/-- The next queue is shorter than every queue before it. -/
theorem ScannedLeast.replace {rqs : List (RunQueue τ)} {acc : ℕ × ℕ} (h : ScannedLeast rqs acc)
    {rq : RunQueue τ} (hless : rq.len < acc.1) :
    ScannedLeast (rqs ++ [rq]) (rq.len, rqs.length) := by
  refine .inr ⟨⟨rq, by simp, rfl⟩, fun i rq' hi => ?_⟩
  rcases getElem?_snoc hi with hi | ⟨rfl, rfl⟩
  · have hlt := hless.trans_le (h.le hi)
    exact ⟨hlt.le, fun _ => hlt⟩
  · exact ⟨le_rfl, fun hlt => absurd hlt (Nat.lt_irrefl _)⟩

theorem ScannedLeast.snoc {rqs : List (RunQueue τ)} {acc : ℕ × ℕ} (h : ScannedLeast rqs acc)
    (rq : RunQueue τ) : ScannedLeast (rqs ++ [rq]) (leastLoadedStep acc rqs.length rq.len) := by
  unfold leastLoadedStep
  split_ifs with hless
  · exact h.replace hless
  · exact h.keep (Nat.not_lt.mp hless)

theorem scannedLeast_foldl (rqs : List (RunQueue τ)) :
    ScannedLeast rqs
      (rqs.zipIdx.foldl (fun acc q => leastLoadedStep acc q.2 q.1.len) leastLoadedInit) := by
  induction rqs using List.reverseRecOn with
  | nil => exact .inl ⟨rfl, fun i rq hi => by simp at hi⟩
  | append_singleton rqs rq ih => simpa [List.zipIdx_append] using ih.snoc rq

/-- Whatever the counters say, `least_loaded_core` finds a core that exists. -/
theorem leastLoadedCore_lt (h : 0 < s.runQueues.length) :
    s.leastLoadedCore < s.runQueues.length := by
  have hscan := scannedLeast_foldl s.runQueues
  rw [show s.leastLoadedCore = (s.runQueues.zipIdx.foldl
    (fun acc q => leastLoadedStep acc q.2 q.1.len) leastLoadedInit).2 from rfl]
  obtain ⟨hinit, -⟩ | ⟨⟨rq, hrq, -⟩, -⟩ := hscan
  · rw [hinit]
    exact h
  · exact (List.getElem?_eq_some_iff.mp hrq).1

/-- `least_loaded_core` finds the core it is meant to find. -/
theorem Counted.leastLoadedCore_spec (h : s.Counted) (hcores : 1 ≤ s.numCores) :
    s.IsLeastLoaded s.leastLoadedCore := by
  have hscan := scannedLeast_foldl s.runQueues
  rw [show s.leastLoadedCore = (s.runQueues.zipIdx.foldl
    (fun acc q => leastLoadedStep acc q.2 q.1.len) leastLoadedInit).2 from rfl]
  generalize s.runQueues.zipIdx.foldl
    (fun acc q => leastLoadedStep acc q.2 q.1.len) leastLoadedInit = acc at hscan
  have hlen : ∀ i rq, s.runQueues[i]? = some rq → (s.queueOf i).length = rq.len := by
    intro i rq hrq
    rw [queueOf_of_getElem? hrq, (h.getElem? hrq).len_eq]
  have hqueue : ∀ i < s.numCores, ∃ rq, s.runQueues[i]? = some rq := fun i hi => by
    obtain ⟨rq, hrq, -⟩ := h.exists_queue hi
    exact ⟨rq, hrq⟩
  obtain ⟨rfl, hall⟩ | ⟨⟨rqm, hm, hload⟩, hall⟩ := hscan
  · refine ⟨hcores, fun i hi => ?_, fun i hi => absurd hi (Nat.not_lt_zero i)⟩
    obtain ⟨rq, hrq⟩ := hqueue i hi
    have hmax := h.length_queueOf_lt 0
    have hle := hall i rq hrq
    rw [hlen i rq hrq]
    exact (Nat.le_sub_one_of_lt hmax).trans hle
  · have hlt := (List.getElem?_eq_some_iff.mp hm).1
    rw [h.length] at hlt
    refine ⟨hlt, fun i hi => ?_, fun i hi => ?_⟩
    · obtain ⟨rq, hrq⟩ := hqueue i hi
      rw [hlen _ _ hm, hlen i rq hrq, hload]
      exact (hall i rq hrq).1
    · obtain ⟨rq, hrq⟩ := hqueue i (hi.trans hlt)
      rw [hlen _ _ hm, hlen i rq hrq, hload]
      exact (hall i rq hrq).2 hi

/-! ### The gap -/

theorem mem_loads (h : s.runQueues.length = s.numCores) {n : ℕ} :
    n ∈ s.loads ↔ ∃ i < s.numCores, (s.queueOf i).length = n := by
  rw [loads, List.mem_map]
  constructor
  · rintro ⟨rq, hmem, rfl⟩
    obtain ⟨i, hi⟩ := List.mem_iff_getElem?.mp hmem
    refine ⟨i, ?_, by rw [queueOf_of_getElem? hi]⟩
    rw [← h]
    exact (List.getElem?_eq_some_iff.mp hi).1
  · rintro ⟨i, hi, rfl⟩
    obtain ⟨rq, hrq, hmem⟩ := exists_queue_of_lt (h ▸ hi)
    exact ⟨rq, hmem, by rw [queueOf_of_getElem? hrq]⟩

theorem gap_le_iff (h : s.runQueues.length = s.numCores) (hcores : 1 ≤ s.numCores) {g : ℕ} :
    s.gap ≤ g ↔ ∀ i < s.numCores, ∀ j < s.numCores,
      (s.queueOf i).length ≤ (s.queueOf j).length + g := by
  have hne : s.loads ≠ [] := List.ne_nil_of_mem ((mem_loads h).mpr ⟨0, hcores, rfl⟩)
  obtain ⟨longest, hlongest⟩ := Option.isSome_iff_exists.mp (List.isSome_max?_of_ne_nil hne)
  obtain ⟨shortest, hshortest⟩ := Option.isSome_iff_exists.mp (List.isSome_min?_of_ne_nil hne)
  obtain ⟨hmax, hle⟩ := List.max?_eq_some_iff.mp hlongest
  obtain ⟨hmin, hge⟩ := List.min?_eq_some_iff.mp hshortest
  rw [gap, hlongest, hshortest, Option.getD_some, Option.getD_some]
  constructor
  · intro hgap i hi j hj
    have hi' := hle _ ((mem_loads h).mpr ⟨i, hi, rfl⟩)
    have hj' := hge _ ((mem_loads h).mpr ⟨j, hj, rfl⟩)
    omega
  · intro hall
    obtain ⟨i, hi, rfl⟩ := (mem_loads h).mp hmax
    obtain ⟨j, hj, rfl⟩ := (mem_loads h).mp hmin
    have hij := hall i hi j hj
    omega

/-! ### One call -/

theorem exists_pushTo (h : core < s.runQueues.length) (task : τ) :
    ∃ t, s.pushTo core task = some t ∧ t.numCores = s.numCores ∧
      t.runQueues.length = s.runQueues.length := by
  obtain ⟨rq, hrq, -⟩ := exists_queue_of_lt h
  exact ⟨{ s with runQueues := s.runQueues.set core (rq.push task) },
    by rw [pushTo, hrq, Option.map_some], rfl, List.length_set⟩

theorem spawn_unpinned [TaskLike τ] {task : τ} (h : TaskLike.affinity task = none) :
    s.spawn task = s.pushTo s.leastLoadedCore task := by
  rw [spawn, h]

/-- The task goes to one of the shortest queues, and the gap does not grow
beyond one. -/
theorem Counted.spawn_least_loaded [TaskLike τ] {task : τ} (hs : s.Counted)
    (hcores : 1 ≤ s.numCores) (hunpinned : TaskLike.affinity task = none) :
    ∃ core t, s.spawn task = some t ∧ core < s.numCores ∧
      (∀ i < s.numCores, (s.queueOf core).length ≤ (s.queueOf i).length) ∧
      t.queueOf core = s.queueOf core ++ [task] ∧
      (∀ i, i ≠ core → t.queueOf i = s.queueOf i) ∧ t.gap ≤ max s.gap 1 := by
  obtain ⟨hlt, hshortest, -⟩ := hs.leastLoadedCore_spec hcores
  obtain ⟨t, hpush, hnum, hlength⟩ := exists_pushTo (hs.length ▸ hlt) task
  have hqueues := queueOf_pushTo hpush
  have hself : t.queueOf s.leastLoadedCore = s.queueOf s.leastLoadedCore ++ [task] := by
    rw [hqueues, Function.update_self]
  have hother : ∀ i, i ≠ s.leastLoadedCore → t.queueOf i = s.queueOf i := fun i hi => by
    rw [hqueues, Function.update_of_ne hi]
  have hgap := (gap_le_iff hs.length hcores).mp (le_refl s.gap)
  refine ⟨_, t, (spawn_unpinned hunpinned).trans hpush, hlt, hshortest, hself, hother, ?_⟩
  rw [gap_le_iff (by rw [hlength, hnum, hs.length]) (hnum ▸ hcores), hnum]
  have hlen : (t.queueOf s.leastLoadedCore).length =
      (s.queueOf s.leastLoadedCore).length + 1 := by simp [hself]
  intro i hi j hj
  by_cases hicore : i = s.leastLoadedCore
  · -- the longer queue is the one that has got the task
    have hmin := hshortest j hj
    by_cases hjcore : j = s.leastLoadedCore
    · rw [hicore, hjcore]
      omega
    · rw [hicore, hother j hjcore]
      omega
  · have hij := hgap i hi j hj
    rw [hother i hicore]
    by_cases hjcore : j = s.leastLoadedCore
    · subst hjcore
      omega
    · rw [hother j hjcore]
      omega

/-! ### Runs of calls -/

/-- Every core has got `q` tasks, and the first `r` one more. -/
structure Dealt (n q r : ℕ) (s : Scheduler τ) : Prop where
  counted : s.Counted
  numCores : s.numCores = n
  lt : r < n
  length : ∀ i < n, (s.queueOf i).length = if i < r then q + 1 else q

variable {n q r : ℕ} {task : τ}

theorem queueOf_new (n core : ℕ) : (new n : Scheduler τ).queueOf core = [] := by
  simp only [queueOf, new, List.getElem?_map]
  cases (List.range n)[core]? <;> rfl

theorem counted_new (n : ℕ) : (new n : Scheduler τ).Counted where
  length := by simp [new]
  queues rq hrq := by
    obtain ⟨core, -, rfl⟩ := List.mem_map.mp hrq
    exact ⟨rfl, Nat.two_pow_pos 64⟩

theorem fits_new (n : ℕ) : (new n : Scheduler τ).Fits := by
  intro rq hrq
  obtain ⟨core, -, rfl⟩ := List.mem_map.mp hrq
  exact Nat.zero_le _

theorem dealt_new (hn : 1 ≤ n) : Dealt n 0 0 (new n : Scheduler τ) :=
  ⟨counted_new n, rfl, hn, fun i _ => by rw [queueOf_new]; rfl⟩

/-- It is the next core's turn. -/
theorem Dealt.leastLoadedCore (h : Dealt n q r s) : s.leastLoadedCore = r := by
  have hcores : 1 ≤ s.numCores := by
    rw [h.numCores]
    exact Nat.one_le_of_lt h.lt
  obtain ⟨hlt, hshortest, hlowest⟩ := h.counted.leastLoadedCore_spec hcores
  rw [h.numCores] at hlt hshortest
  have hcore := h.length _ hlt
  have hr := h.length r h.lt
  rw [if_neg (Nat.lt_irrefl r)] at hr
  rcases Nat.lt_trichotomy s.leastLoadedCore r with hless | heq | hmore
  · have hle := hshortest r h.lt
    rw [if_pos hless] at hcore
    omega
  · exact heq
  · have hless := hlowest r hmore
    rw [if_neg hmore.not_gt] at hcore
    omega

theorem Dealt.fits_iff (h : Dealt n q r s) :
    s.Fits ↔ q ≤ AtomicQueue.maxTasks ∧ (0 < r → q < AtomicQueue.maxTasks) := by
  have hfits : s.Fits ↔ ∀ i < n, (s.queueOf i).length ≤ AtomicQueue.maxTasks := by
    constructor
    · intro hall i hi
      obtain ⟨rq, hrq, -⟩ := h.counted.exists_queue (h.numCores.symm ▸ hi)
      rw [queueOf_of_getElem? hrq]
      exact hall rq (List.mem_of_getElem? hrq)
    · intro hall rq hrq
      obtain ⟨i, hi⟩ := List.mem_iff_getElem?.mp hrq
      have hlt := (List.getElem?_eq_some_iff.mp hi).1
      rw [h.counted.length, h.numCores] at hlt
      exact queueOf_of_getElem? hi ▸ hall i hlt
  rw [hfits]
  constructor
  · intro hall
    have hlast := hall r h.lt
    rw [h.length r h.lt, if_neg (Nat.lt_irrefl r)] at hlast
    refine ⟨hlast, fun hr => ?_⟩
    have hfirst := hall 0 (hr.trans h.lt)
    rwa [h.length 0 (hr.trans h.lt), if_pos hr] at hfirst
  · rintro ⟨hq, hmore⟩ i hi
    rw [h.length i hi]
    split
    case isTrue hlt => exact hmore (Nat.zero_lt_of_lt hlt)
    case isFalse => exact hq

/-- The lengths differ by at most one, and do not increase with the core. -/
structure Level (s : Scheduler τ) : Prop where
  within_one : ∀ i < s.numCores, ∀ j < s.numCores,
    (s.queueOf i).length ≤ (s.queueOf j).length + 1
  antitone : ∀ j < s.numCores, ∀ i ≤ j, (s.queueOf j).length ≤ (s.queueOf i).length

theorem Dealt.level (h : Dealt n q r s) : s.Level where
  within_one i hi j hj := by
    rw [h.numCores] at hi hj
    rw [h.length i hi, h.length j hj]
    split_ifs <;> omega
  antitone j hj i hij := by
    rw [h.numCores] at hj
    rw [h.length i (hij.trans_lt hj), h.length j hj]
    split_ifs <;> omega

variable [TaskLike τ]

/-- One more task goes to the core whose turn it is. -/
theorem Dealt.spawn (h : Dealt n q r s) (hfits : s.Fits)
    (hunpinned : TaskLike.affinity task = none) :
    ∃ t q' r', s.spawn task = some t ∧ Dealt n q' r' t ∧ n * q' + r' = n * q + r + 1 := by
  have hq := (h.fits_iff.mp hfits).1
  have hlt := h.lt
  have hr := h.length r hlt
  rw [if_neg (Nat.lt_irrefl r)] at hr
  have hcore : r < s.numCores := h.numCores ▸ hlt
  have hroom : (s.queueOf r ++ [task]).length < 2 ^ 64 := by
    rw [List.length_append, List.length_singleton, hr]
    unfold AtomicQueue.maxTasks at hq
    omega
  have hself := queueOf_setQueue_self (h.counted.length ▸ hcore) (s.queueOf r ++ [task])
  have hcounted : (s.setQueue r (s.queueOf r ++ [task])).Counted := h.counted.setQueue hroom
  have hlength : ∀ i < n, ((s.setQueue r (s.queueOf r ++ [task])).queueOf i).length =
      if i < r + 1 then q + 1 else q := by
    intro i hi
    by_cases hir : i = r
    · subst hir
      rw [hself, List.length_append, List.length_singleton, hr, if_pos (Nat.lt_succ_self i)]
    · rw [queueOf_setQueue_of_ne hir, h.length i hi]
      exact if_congr (by omega) rfl rfl
  have hspawn : s.spawn task = some (s.setQueue r (s.queueOf r ++ [task])) := by
    rw [spawn_unpinned hunpinned, h.leastLoadedCore]
    exact h.counted.pushTo_eq hcore (by simpa using hroom) task
  by_cases hround : r + 1 = n
  · refine ⟨_, q + 1, 0, hspawn, ⟨hcounted, h.numCores, Nat.zero_lt_of_lt hlt, fun i hi => ?_⟩, ?_⟩
    · rw [hlength i hi, if_pos (by omega), if_neg (Nat.not_lt_zero i)]
    · rw [Nat.mul_succ]
      omega
  · exact ⟨_, q, r + 1, hspawn, ⟨hcounted, h.numCores, by omega, hlength⟩, rfl⟩

open Machine

variable {tasks : List τ}

theorem Dealt.run (h : Dealt n q r s) (hfits : s.Fits)
    (hunpinned : ∀ task ∈ tasks, TaskLike.affinity task = none)
    (hrun : Machine.run spawnStep s tasks = some t) : ∃ q' r', Dealt n q' r' t := by
  induction tasks generalizing s q r with
  | nil =>
      obtain rfl := Option.some.inj hrun
      exact ⟨q, r, h⟩
  | cons task tasks ih =>
      obtain ⟨htask, htasks⟩ := List.forall_mem_cons.mp hunpinned
      obtain ⟨m, hm, hrest⟩ := run_cons_eq_some.mp hrun
      obtain ⟨hspawn, hfits'⟩ := Option.filter_eq_some_iff.mp hm
      obtain ⟨m', q', r', hspawn', hdealt, -⟩ := h.spawn hfits htask
      obtain rfl := Option.some.inj (hspawn'.symm.trans hspawn)
      exact ih hdealt (of_decide_eq_true hfits') htasks hrest

/-- Nothing panics as long as there is room for the tasks in the deques. -/
theorem Dealt.isSome_run (h : Dealt n q r s) (hfits : s.Fits)
    (hunpinned : ∀ task ∈ tasks, TaskLike.affinity task = none)
    (hroom : n * q + r + tasks.length ≤ n * AtomicQueue.maxTasks) :
    (Machine.run spawnStep s tasks).isSome := by
  induction tasks generalizing s q r with
  | nil => rfl
  | cons task tasks ih =>
      obtain ⟨htask, htasks⟩ := List.forall_mem_cons.mp hunpinned
      rw [List.length_cons] at hroom
      obtain ⟨t, q', r', hspawn, hdealt, hcount⟩ := h.spawn hfits htask
      have hn : 0 < n := Nat.zero_lt_of_lt h.lt
      have hfits' : t.Fits := by
        refine hdealt.fits_iff.mpr ⟨?_, fun hr => ?_⟩
        · exact Nat.le_of_mul_le_mul_left (by omega : n * q' ≤ n * _) hn
        · exact Nat.lt_of_mul_lt_mul_left (by omega : n * q' < n * _)
      have hstep : spawnStep s task = some t :=
        Option.filter_eq_some_iff.mpr ⟨hspawn, decide_eq_true hfits'⟩
      rw [run_cons, hstep, Option.bind_some]
      exact ih hdealt hfits' htasks (by omega)

/-! ### Placement -/

/-- `spawn` puts a task without affinity on one of the shortest queues, and the
gap between the longest and the shortest queue does not grow beyond one. A
scheduler that is only ever given such tasks keeps its queues level, and takes
all of them as long as the deques have room. -/
theorem least_loaded_placement :
    (∀ (s : Scheduler τ) (task : τ), s.Counted → 1 ≤ s.numCores →
      TaskLike.affinity task = none →
      ∃ core t, s.spawn task = some t ∧ core < s.numCores ∧
        (∀ i < s.numCores, (s.queueOf core).length ≤ (s.queueOf i).length) ∧
        t.queueOf core = s.queueOf core ++ [task] ∧
        (∀ i, i ≠ core → t.queueOf i = s.queueOf i) ∧ t.gap ≤ max s.gap 1) ∧
    ∀ (n : ℕ) (tasks : List τ), 1 ≤ n → (∀ task ∈ tasks, TaskLike.affinity task = none) →
      (∀ t, run spawnStep (new n) tasks = some t → t.numCores = n ∧ t.Level) ∧
      (tasks.length ≤ n * AtomicQueue.maxTasks →
        (run spawnStep (new n : Scheduler τ) tasks).isSome) := by
  refine ⟨fun s task hs hcores hunpinned => hs.spawn_least_loaded hcores hunpinned,
    fun n tasks hn hunpinned => ⟨fun t hrun => ?_, fun hroom => ?_⟩⟩
  · obtain ⟨q, r, hdealt⟩ := (dealt_new hn).run (fits_new n) hunpinned hrun
    exact ⟨hdealt.numCores, hdealt.level⟩
  · exact (dealt_new hn).isSome_run (fits_new n) hunpinned (by simpa using hroom)

/-- Two cores, the first of which has got a task; and two cores given three. -/
theorem least_loaded_placement_two_cores :
    let task := Task.new 1 0x1000 "a" 0x2000 0 0x1000
    let s : Scheduler Task := ⟨[⟨0, [task], 1⟩, ⟨1, [], 0⟩], 2⟩
    (∃ core t, s.spawn task = some t ∧ core < 2 ∧ t.gap ≤ 1) ∧
      ∃ t, run spawnStep (new 2) [task, task, task] = some t ∧ t.Level := by
  intro task s
  obtain ⟨hspawn, hruns⟩ := @least_loaded_placement Task _
  obtain ⟨core, t, hrun, hlt, -, -, -, hgap⟩ := hspawn s task (by decide) (by decide) rfl
  refine ⟨⟨core, t, hrun, hlt, hgap⟩, ?_⟩
  obtain ⟨hlevel, hroom⟩ := hruns 2 [task, task, task] (by decide) (by simp [task]; rfl)
  obtain ⟨u, hu⟩ := Option.isSome_iff_exists.mp (hroom (by decide))
  exact ⟨u, hu, (hlevel u hu).2⟩

end Scheduler

end SmpNostd
