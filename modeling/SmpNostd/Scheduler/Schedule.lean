import Mathlib.Data.List.Induction
import Mathlib.Order.Nat
import SmpNostd.Scheduler.Scheduler

/-!
What one call of `schedule` does, run alone.

As long as the length counters are the lengths of the queues, the three loops
of `schedule` (the scan for a victim, the loop of `steal_half` and the loop
that pushes what was stolen) come down to taking a list apart: the own queue
loses its head, or the longest other queue loses its back half, the last task
of which is returned and the rest of which ends up on the own queue in reverse.
-/

namespace SmpNostd

namespace RunQueue

variable {α : Type}

/-- The counter is the length of the queue, and is a `u64`. -/
structure Counted (rq : RunQueue α) : Prop where
  len_eq : rq.len = rq.queue.length
  len_lt : rq.len < 2 ^ 64

instance (rq : RunQueue α) : Decidable rq.Counted :=
  decidable_of_iff (rq.len = rq.queue.length ∧ rq.len < 2 ^ 64)
    ⟨fun h => ⟨h.1, h.2⟩, fun h => ⟨h.1, h.2⟩⟩

/-- The queue of the same core that holds `queue` and has counted it. -/
def withQueue (rq : RunQueue α) (queue : List α) : RunQueue α :=
  { rq with queue := queue, len := queue.length }

variable {rq : RunQueue α}

theorem Counted.withQueue_self (h : rq.Counted) : rq.withQueue rq.queue = rq := by
  simp [withQueue, ← h.len_eq]

theorem Counted.length_lt (h : rq.Counted) : rq.queue.length < 2 ^ 64 := by
  rw [← h.len_eq]
  exact h.len_lt

theorem counted_withQueue {queue : List α} (h : queue.length < 2 ^ 64) :
    (rq.withQueue queue).Counted :=
  ⟨rfl, h⟩

theorem Counted.push_eq (h : rq.Counted) (hroom : rq.queue.length + 1 < 2 ^ 64) (task : α) :
    rq.push task = rq.withQueue (rq.queue ++ [task]) := by
  simp [push, withQueue, h.len_eq, fetchAdd_of_lt hroom]

theorem Counted.pop_cons (h : rq.Counted) {task : α} {rest : List α}
    (hqueue : rq.queue = task :: rest) : rq.pop = (some task, rq.withQueue rest) := by
  have hlen : rq.len = rest.length + 1 := by rw [h.len_eq, hqueue, List.length_cons]
  have hlt := h.len_lt
  have hsub : fetchSub rq.len 1 = rest.length := by
    rw [fetchSub_of_le (by omega) hlt, hlen, Nat.add_sub_cancel]
  simp [pop, hqueue, withQueue, hsub]

theorem pop_nil (hqueue : rq.queue = []) : rq.pop = (none, rq) := by
  simp [pop, hqueue]

theorem Counted.stealHalf_eq (h : rq.Counted) :
    rq.stealHalf = ((rq.queue.drop (rq.queue.length - rq.queue.length / 2)).reverse,
      rq.withQueue (rq.queue.take (rq.queue.length - rq.queue.length / 2))) := by
  simp only [stealHalf]
  split
  · rename_i hzero
    simp [hzero, h.withQueue_self]
  · have hsub : fetchSub rq.len (rq.queue.length / 2) =
        rq.queue.length - rq.queue.length / 2 := by
      rw [fetchSub_of_le (h.len_eq ▸ Nat.div_le_self ..) h.len_lt, h.len_eq]
    have hhalf : rq.queue.length - (rq.queue.length - rq.queue.length / 2) =
        rq.queue.length / 2 := by omega
    simp [stealLoop_eq _ _ _ (Nat.div_le_self _ 2), withQueue, hhalf, hsub]

end RunQueue

namespace Scheduler

variable {τ : Type} {s : Scheduler τ} {core victim : ℕ}

/-- The tasks in the queue of a core, the front one first. -/
def queueOf (s : Scheduler τ) (core : ℕ) : List τ :=
  match s.runQueues[core]? with
  | some rq => rq.queue
  | none => []

/-- There is a queue for every core, and every counter is the length of its
queue. -/
structure Counted (s : Scheduler τ) : Prop where
  length : s.runQueues.length = s.numCores
  queues : ∀ rq ∈ s.runQueues, rq.Counted

instance (s : Scheduler τ) : Decidable s.Counted :=
  decidable_of_iff (s.runQueues.length = s.numCores ∧ ∀ rq ∈ s.runQueues, rq.Counted)
    ⟨fun h => ⟨h.1, h.2⟩, fun h => ⟨h.1, h.2⟩⟩

/-- The scheduler with `queue` as the queue of `core`, counted. -/
def setQueue (s : Scheduler τ) (core : ℕ) (queue : List τ) : Scheduler τ :=
  { s with runQueues := s.runQueues.modify core (RunQueue.withQueue · queue) }

/-- The lowest-numbered core among those of the longest queues, `core` itself
apart, if there is more than one task to be had. -/
structure IsBusiest (s : Scheduler τ) (core victim : ℕ) : Prop where
  ne : victim ≠ core
  lt : victim < s.numCores
  two_le : 2 ≤ (s.queueOf victim).length
  longest : ∀ i, i ≠ core → (s.queueOf i).length ≤ (s.queueOf victim).length
  lowest : ∀ i < victim, i ≠ core → (s.queueOf i).length < (s.queueOf victim).length

/-! ### Queues by core -/

theorem queueOf_of_getElem? {rq : RunQueue τ} (h : s.runQueues[core]? = some rq) :
    s.queueOf core = rq.queue := by
  simp [queueOf, h]

theorem queueOf_setQueue_self (h : core < s.runQueues.length) (queue : List τ) :
    (s.setQueue core queue).queueOf core = queue := by
  simp [queueOf, setQueue, List.getElem?_eq_getElem h, RunQueue.withQueue]

theorem queueOf_setQueue_of_ne {i : ℕ} (h : i ≠ core) (queue : List τ) :
    (s.setQueue core queue).queueOf i = s.queueOf i := by
  simp [queueOf, setQueue, List.getElem?_modify_ne _ _ h.symm]

theorem setQueue_of_getElem? {rq : RunQueue τ} (h : s.runQueues[core]? = some rq)
    (queue : List τ) :
    { s with runQueues := s.runQueues.set core (rq.withQueue queue) } =
      s.setQueue core queue := by
  obtain ⟨hlt, rfl⟩ := List.getElem?_eq_some_iff.mp h
  simp [setQueue, List.modify_eq_set_getElem?, List.getElem?_eq_getElem hlt]

theorem setQueue_setQueue (s : Scheduler τ) (core : ℕ) (q q' : List τ) :
    (s.setQueue core q).setQueue core q' = s.setQueue core q' := by
  simp only [setQueue, mk.injEq, and_true]
  apply List.ext_getElem?
  intro i
  by_cases hi : core = i
  · subst hi
    simp [Function.comp_def, RunQueue.withQueue]
  · simp [hi]

theorem exists_queue_of_lt (h : core < s.runQueues.length) :
    ∃ rq, s.runQueues[core]? = some rq ∧ rq ∈ s.runQueues :=
  ⟨_, List.getElem?_eq_getElem h, List.getElem_mem h⟩

theorem Counted.getElem? (h : s.Counted) {rq : RunQueue τ}
    (hrq : s.runQueues[core]? = some rq) : rq.Counted :=
  h.queues rq (List.mem_of_getElem? hrq)

theorem Counted.length_queueOf_lt (h : s.Counted) (core : ℕ) :
    (s.queueOf core).length < 2 ^ 64 := by
  unfold queueOf
  split
  · rename_i rq hrq
    exact (h.getElem? hrq).length_lt
  · simp

theorem Counted.setQueue (h : s.Counted) {queue : List τ} (hlt : queue.length < 2 ^ 64) :
    (s.setQueue core queue).Counted where
  length := by simpa [Scheduler.setQueue] using h.length
  queues rq hrq := by
    obtain ⟨i, hi⟩ := List.mem_iff_getElem?.mp hrq
    simp only [Scheduler.setQueue, List.getElem?_modify] at hi
    split at hi
    · obtain ⟨rq', -, rfl⟩ := Option.map_eq_some_iff.mp hi
      exact RunQueue.counted_withQueue hlt
    · exact h.getElem? (by simpa using hi)

theorem Counted.setQueue_queueOf (h : s.Counted) (core : ℕ) :
    s.setQueue core (s.queueOf core) = s := by
  by_cases hlt : core < s.runQueues.length
  · obtain ⟨rq, hrq, hmem⟩ := exists_queue_of_lt hlt
    obtain ⟨hi, rfl⟩ := List.getElem?_eq_some_iff.mp hrq
    rw [queueOf_of_getElem? hrq, ← setQueue_of_getElem? hrq, (h.queues _ hmem).withQueue_self,
      List.set_getElem_self]
  · rw [Scheduler.setQueue, List.modify_eq_self (Nat.not_lt.mp hlt)]

/-! ### The operations on the queues -/

theorem Counted.exists_queue (h : s.Counted) (hcore : core < s.numCores) :
    ∃ rq, s.runQueues[core]? = some rq ∧ rq.Counted := by
  obtain ⟨rq, hrq, hmem⟩ := exists_queue_of_lt (h.length ▸ hcore)
  exact ⟨rq, hrq, h.queues rq hmem⟩

theorem Counted.pushTo_eq (h : s.Counted) (hcore : core < s.numCores)
    (hroom : (s.queueOf core).length + 1 < 2 ^ 64) (task : τ) :
    s.pushTo core task = some (s.setQueue core (s.queueOf core ++ [task])) := by
  obtain ⟨rq, hrq, hcounted⟩ := h.exists_queue hcore
  rw [queueOf_of_getElem? hrq] at hroom ⊢
  rw [pushTo, hrq, Option.map_some, hcounted.push_eq hroom, setQueue_of_getElem? hrq]

theorem Counted.popFrom_cons (h : s.Counted) (hcore : core < s.numCores) {task : τ}
    {rest : List τ} (hqueue : s.queueOf core = task :: rest) :
    s.popFrom core = some (some task, s.setQueue core rest) := by
  obtain ⟨rq, hrq, hcounted⟩ := h.exists_queue hcore
  rw [queueOf_of_getElem? hrq] at hqueue
  rw [popFrom, hrq, Option.map_some, hcounted.pop_cons hqueue, setQueue_of_getElem? hrq]

theorem Counted.popFrom_nil (h : s.Counted) (hcore : core < s.numCores)
    (hqueue : s.queueOf core = []) : s.popFrom core = some (none, s) := by
  obtain ⟨rq, hrq, hcounted⟩ := h.exists_queue hcore
  rw [queueOf_of_getElem? hrq] at hqueue
  obtain ⟨hi, rfl⟩ := List.getElem?_eq_some_iff.mp hrq
  rw [popFrom, hrq, Option.map_some, RunQueue.pop_nil hqueue, List.set_getElem_self]

theorem Counted.stealFrom_eq (h : s.Counted) (hvictim : victim < s.numCores) :
    s.stealFrom victim =
      let queue := s.queueOf victim
      let kept := queue.length - queue.length / 2
      some ((queue.drop kept).reverse, s.setQueue victim (queue.take kept)) := by
  obtain ⟨rq, hrq, hcounted⟩ := h.exists_queue hvictim
  rw [queueOf_of_getElem? hrq, stealFrom, hrq, Option.map_some, hcounted.stealHalf_eq,
    setQueue_of_getElem? hrq]

/-- The loop that pushes what was stolen appends it to the own queue. -/
theorem Counted.repush_eq (h : s.Counted) (hcore : core < s.numCores) (rest : List τ)
    (hroom : (s.queueOf core).length + rest.length < 2 ^ 64) :
    s.repush core rest = some (s.setQueue core (s.queueOf core ++ rest)) := by
  induction rest generalizing s with
  | nil => rw [repush, List.append_nil, h.setQueue_queueOf]
  | cons task rest ih =>
      rw [List.length_cons] at hroom
      have hpush := h.pushTo_eq hcore (by omega) task
      have hlen : (s.queueOf core ++ [task]).length = (s.queueOf core).length + 1 := by simp
      have hqueue := queueOf_setQueue_self (h.length ▸ hcore) (s.queueOf core ++ [task])
      have hcounted : (s.setQueue core (s.queueOf core ++ [task])).Counted :=
        h.setQueue (by omega)
      have hrest := ih hcounted hcore (by rw [hqueue, hlen]; omega)
      rw [repush, hpush, Option.bind_some, hrest, hqueue, setQueue_setQueue, List.append_assoc,
        List.singleton_append]

/-! ### The scan for a victim -/

/-- What `busiest_core` knows after it has looked at the queues `rqs`. -/
def Scanned (core : ℕ) (rqs : List (RunQueue τ)) : ℕ × Option ℕ → Prop
  | (load, none) => load = 1 ∧ ∀ i rq, rqs[i]? = some rq → i ≠ core → rq.len ≤ 1
  | (load, some victim) =>
      victim ≠ core ∧ (∃ rq, rqs[victim]? = some rq ∧ rq.len = load) ∧ 1 < load ∧
        ∀ i rq, rqs[i]? = some rq → i ≠ core → rq.len ≤ load ∧ (i < victim → rq.len < load)

theorem Scanned.one_le {rqs : List (RunQueue τ)} {acc : ℕ × Option ℕ}
    (h : Scanned core rqs acc) : 1 ≤ acc.1 := by
  obtain ⟨load, _ | victim⟩ := acc
  · exact h.1.ge
  · exact h.2.2.1.le

theorem Scanned.le {rqs : List (RunQueue τ)} {acc : ℕ × Option ℕ} (h : Scanned core rqs acc)
    {i : ℕ} {rq : RunQueue τ} (hi : rqs[i]? = some rq) (hne : i ≠ core) : rq.len ≤ acc.1 := by
  obtain ⟨load, _ | victim⟩ := acc
  · obtain ⟨rfl, hmax⟩ := h
    exact hmax i rq hi hne
  · exact (h.2.2.2 i rq hi hne).1

theorem getElem?_snoc {rqs : List (RunQueue τ)} {rq rq' : RunQueue τ} {i : ℕ}
    (h : (rqs ++ [rq])[i]? = some rq') : rqs[i]? = some rq' ∨ i = rqs.length ∧ rq' = rq := by
  rcases Nat.lt_trichotomy i rqs.length with hlt | rfl | hgt
  · exact .inl (by rwa [List.getElem?_append_left hlt] at h)
  · exact .inr ⟨rfl, by simpa using h.symm⟩
  · rw [List.getElem?_eq_none (by simp; omega)] at h
    exact absurd h (by simp)

/-- The next queue is the thief's own, or no longer than the one in hand. -/
theorem Scanned.keep {rqs : List (RunQueue τ)} {acc : ℕ × Option ℕ} (h : Scanned core rqs acc)
    {rq : RunQueue τ} (hrq : rqs.length = core ∨ rq.len ≤ acc.1) :
    Scanned core (rqs ++ [rq]) acc := by
  obtain ⟨load, _ | victim⟩ := acc
  · obtain ⟨rfl, hmax⟩ := h
    refine ⟨rfl, fun i rq' hi hne => ?_⟩
    rcases getElem?_snoc hi with hi | ⟨rfl, rfl⟩
    · exact hmax i rq' hi hne
    · exact hrq.resolve_left hne
  · obtain ⟨hne, ⟨rqv, hv, hload⟩, hone, hmax⟩ := h
    have hlt : victim < rqs.length := (List.getElem?_eq_some_iff.mp hv).1
    have hv' : (rqs ++ [rq])[victim]? = some rqv := by rwa [List.getElem?_append_left hlt]
    refine ⟨hne, ⟨rqv, hv', hload⟩, hone, fun i rq' hi hnei => ?_⟩
    rcases getElem?_snoc hi with hi | ⟨rfl, rfl⟩
    · exact hmax i rq' hi hnei
    · exact ⟨hrq.resolve_left hnei, fun hless => absurd hless (Nat.not_lt.mpr hlt.le)⟩

/-- The next queue is longer than every queue before it. -/
theorem Scanned.replace {rqs : List (RunQueue τ)} {acc : ℕ × Option ℕ}
    (h : Scanned core rqs acc) {rq : RunQueue τ} (hne : rqs.length ≠ core)
    (hmore : acc.1 < rq.len) :
    Scanned core (rqs ++ [rq]) (rq.len, some rqs.length) := by
  have hone := h.one_le
  refine ⟨hne, ⟨rq, by simp, rfl⟩, by omega, fun i rq' hi hnei => ?_⟩
  rcases getElem?_snoc hi with hi | ⟨rfl, rfl⟩
  · have hle := h.le hi hnei
    omega
  · exact ⟨le_rfl, fun hless => absurd hless (Nat.lt_irrefl _)⟩

theorem Scanned.snoc {rqs : List (RunQueue τ)} {acc : ℕ × Option ℕ} (h : Scanned core rqs acc)
    (rq : RunQueue τ) :
    Scanned core (rqs ++ [rq]) (busiestStep core acc rqs.length rq.len) := by
  unfold busiestStep
  split_ifs with hcore hmore
  · exact h.keep (.inl hcore)
  · exact h.replace hcore hmore
  · exact h.keep (.inr (Nat.not_lt.mp hmore))

theorem scanned_foldl (core : ℕ) (rqs : List (RunQueue τ)) :
    Scanned core rqs (rqs.zipIdx.foldl (fun acc q => busiestStep core acc q.2 q.1.len)
      busiestInit) := by
  induction rqs using List.reverseRecOn with
  | nil => exact ⟨rfl, fun i rq hi => by simp at hi⟩
  | append_singleton rqs rq ih => simpa [List.zipIdx_append] using ih.snoc rq

theorem Counted.length_queueOf (h : s.Counted) {i n : ℕ} (hpos : 0 < n)
    (hqueue : ∀ rq, s.runQueues[i]? = some rq → rq.len < n) : (s.queueOf i).length < n := by
  unfold queueOf
  split
  · rename_i rq hrq
    rw [← (h.getElem? hrq).len_eq]
    exact hqueue rq hrq
  · exact hpos

/-- `busiest_core` finds the core it is meant to find, if there is one. -/
theorem Counted.busiestCore_spec (h : s.Counted) (core : ℕ) :
    match s.busiestCore core with
    | some victim => s.IsBusiest core victim
    | none => ∀ i, i ≠ core → (s.queueOf i).length ≤ 1 := by
  have hscan := scanned_foldl core s.runQueues
  rw [show s.busiestCore core = (s.runQueues.zipIdx.foldl
    (fun acc q => busiestStep core acc q.2 q.1.len) busiestInit).2 from rfl]
  generalize s.runQueues.zipIdx.foldl
    (fun acc q => busiestStep core acc q.2 q.1.len) busiestInit = acc at hscan
  obtain ⟨load, _ | victim⟩ := acc
  · intro i hne
    exact Nat.le_of_lt_succ (h.length_queueOf Nat.two_pos fun rq hrq =>
      Nat.lt_succ_of_le (hscan.2 i rq hrq hne))
  · obtain ⟨hne, ⟨rq, hrq, hload⟩, hone, hmax⟩ := hscan
    have hlen : (s.queueOf victim).length = load := by
      rw [queueOf_of_getElem? hrq, ← (h.getElem? hrq).len_eq, hload]
    refine ⟨hne, h.length ▸ (List.getElem?_eq_some_iff.mp hrq).1, hlen ▸ hone, ?_, ?_⟩
    · intro i hnei
      rw [hlen]
      exact Nat.le_of_lt_succ (h.length_queueOf (Nat.succ_pos load) fun rq hrq =>
        Nat.lt_succ_of_le (hmax i rq hrq hnei).1)
    · intro i hlt hnei
      rw [hlen]
      exact h.length_queueOf (by omega) fun rq hrq => (hmax i rq hrq hnei).2 hlt

/-! ### One call -/

/-- Stealing the back half of a queue into the own, empty one. -/
theorem Counted.schedule_steal (h : s.Counted) (hcore : core < s.numCores)
    (hempty : s.queueOf core = []) (hbusiest : s.busiestCore core = some victim)
    (hvictim : s.IsBusiest core victim) :
    let queue := s.queueOf victim
    let kept := queue.length - queue.length / 2
    s.schedule core = some (queue.getLast?,
      (s.setQueue victim (queue.take kept)).setQueue core (queue.drop kept).dropLast.reverse) := by
  intro queue kept
  have hlen : 2 ≤ queue.length := hvictim.two_le
  have hlt : queue.length < 2 ^ 64 := h.length_queueOf_lt victim
  have hkept : (queue.take kept).length < 2 ^ 64 := by
    rw [List.length_take]
    omega
  have hback : queue.drop kept ≠ [] := by
    rw [Ne, List.drop_eq_nil_iff]
    omega
  have hreverse : (queue.drop kept).reverse =
      (queue.drop kept).getLast hback :: (queue.drop kept).dropLast.reverse := by
    rw [← List.reverse_concat, List.dropLast_append_getLast]
  have hown : (s.setQueue victim (queue.take kept)).queueOf core = [] := by
    rw [queueOf_setQueue_of_ne hvictim.ne.symm, hempty]
  have hroom : ((s.setQueue victim (queue.take kept)).queueOf core).length +
      (queue.drop kept).dropLast.reverse.length < 2 ^ 64 := by
    rw [hown, List.length_nil, List.length_reverse, List.length_dropLast, List.length_drop]
    omega
  have hlast : some ((queue.drop kept).getLast hback) = queue.getLast? := by
    rw [← List.getLast?_eq_some_getLast, List.getLast?_drop, if_neg (by omega)]
  simp only [schedule, h.popFrom_nil hcore hempty, Option.bind_some, hbusiest,
    h.stealFrom_eq hvictim.lt]
  rw [show (s.queueOf victim).drop _ = queue.drop kept from rfl, hreverse]
  simp only [(h.setQueue hkept).repush_eq hcore _ hroom, hown, Option.map_some, List.nil_append,
    hlast, queue, kept]

/-- **What `schedule` does**, in every state whose length counters are exact.
(1) It takes the head of the own queue. (2) If that is empty, it takes the
back half of the longest other queue, returns the last task and keeps the rest
in reverse. (3) If there is nothing to take, it changes nothing. The counters
stay exact. -/
theorem schedule_exact (s : Scheduler τ) (core : ℕ) (hs : s.Counted)
    (hcore : core < s.numCores) :
    ∃ result s', s.schedule core = some (result, s') ∧ s'.Counted ∧
      (∀ task rest, s.queueOf core = task :: rest →
        result = some task ∧ s' = s.setQueue core rest) ∧
      (s.queueOf core = [] → (∃ i, i ≠ core ∧ 2 ≤ (s.queueOf i).length) →
        ∃ victim, s.IsBusiest core victim ∧
          let queue := s.queueOf victim
          let kept := queue.length - queue.length / 2
          result = queue.getLast? ∧
            s' = (s.setQueue victim (queue.take kept)).setQueue core
              (queue.drop kept).dropLast.reverse) ∧
      (s.queueOf core = [] → (∀ i, i ≠ core → (s.queueOf i).length ≤ 1) →
        result = none ∧ s' = s) ∧
      (result = none ↔
        s.queueOf core = [] ∧ ∀ i, i ≠ core → (s.queueOf i).length ≤ 1) := by
  cases hown : s.queueOf core with
  | cons task rest =>
      have hlen : rest.length < 2 ^ 64 := by
        have hlt := hs.length_queueOf_lt core
        rw [hown, List.length_cons] at hlt
        omega
      refine ⟨some task, s.setQueue core rest, ?_, hs.setQueue hlen, ?_, ?_, ?_, ?_⟩
      · simp [schedule, hs.popFrom_cons hcore hown]
      · rintro task' rest' heq
        obtain ⟨rfl, rfl⟩ := List.cons.inj heq
        exact ⟨rfl, rfl⟩
      all_goals simp
  | nil =>
      have hspec := hs.busiestCore_spec core
      cases hbusiest : s.busiestCore core with
      | none =>
          rw [hbusiest] at hspec
          refine ⟨none, s, ?_, hs, by simp, ?_, fun _ _ => ⟨rfl, rfl⟩, by simpa using hspec⟩
          · simp [schedule, hs.popFrom_nil hcore hown, hbusiest]
          · rintro - ⟨i, hne, hlen⟩
            exact absurd (hspec i hne) (by omega)
      | some victim =>
          rw [hbusiest] at hspec
          have hsteal := hs.schedule_steal hcore hown hbusiest hspec
          have hlt := hs.length_queueOf_lt victim
          have htwo := hspec.two_le
          have hmany : ¬∀ i, i ≠ core → (s.queueOf i).length ≤ 1 := fun hall => by
            have := hall victim hspec.ne
            omega
          have hsome : (s.queueOf victim).getLast? ≠ none := by
            rw [Ne, List.getLast?_eq_none_iff, ← List.length_eq_zero_iff]
            omega
          refine ⟨_, _, hsteal, (hs.setQueue ?_).setQueue ?_, by simp,
            fun _ _ => ⟨victim, hspec, rfl, rfl⟩, fun _ hall => absurd hall hmany,
            ⟨fun hnone => absurd hnone hsome, fun hall => absurd hall.2 hmany⟩⟩
          · rw [List.length_take]
            omega
          · rw [List.length_reverse, List.length_dropLast, List.length_drop]
            omega

/-- Core 0 has nothing to do: of the two queues of four tasks it takes the back
half of the first. -/
theorem schedule_exact_steals :
    let s : Scheduler ℕ :=
      ⟨[⟨0, [], 0⟩, ⟨1, [1, 2, 3, 4], 4⟩, ⟨2, [5, 6, 7, 8], 4⟩], 3⟩
    ∃ result s', s.schedule 0 = some (result, s') ∧ s'.Counted ∧
      ∃ victim, s.IsBusiest 0 victim ∧ result = (s.queueOf victim).getLast? := by
  intro s
  have hs : s.Counted := by decide
  obtain ⟨result, s', hrun, hcounted, -, hsteal, -⟩ := schedule_exact s 0 hs (by decide)
  obtain ⟨victim, hvictim, hresult, -⟩ := hsteal rfl ⟨1, by decide, by decide⟩
  exact ⟨result, s', hrun, hcounted, victim, hvictim, hresult⟩

end Scheduler

end SmpNostd
