import Mathlib.Algebra.Group.Nat.Defs
import Mathlib.Data.List.Basic
import Mathlib.Tactic.Common

/-!
The run queue of one core (`RunQueue` in `scheduler.rs`), each operation as
one critical section.

A run queue is a deque behind a lock and, next to it, a counter of its length
that can be read without the lock. The queue does not look at the tasks in it,
so they are of any type here.
-/

namespace SmpNostd

/-- Run queue for a single CPU core. The front of the deque is the head of
the list; `len` is an `AtomicU64`. -/
structure RunQueue (α : Type) where
  coreId : ℕ
  queue : List α
  len : ℕ
  deriving DecidableEq, Repr

namespace RunQueue

variable {α : Type}

/-- `fetch_add(1)` on an `AtomicU64`. -/
def fetchAdd (n : ℕ) : ℕ := (n + 1) % 2 ^ 64

/-- `fetch_sub(k)` on an `AtomicU64`, for a `u64` operand. -/
def fetchSub (n k : ℕ) : ℕ := (n + 2 ^ 64 - k) % 2 ^ 64

/-- A new, empty run queue for the given core. -/
def new (coreId : ℕ) : RunQueue α where
  coreId := coreId
  queue := []
  len := 0

/-- Push a task onto the back of the queue. -/
def push (rq : RunQueue α) (task : α) : RunQueue α :=
  { rq with queue := rq.queue ++ [task], len := fetchAdd rq.len }

/-- Pop a task from the front of the queue. -/
def pop (rq : RunQueue α) : Option α × RunQueue α :=
  match rq.queue with
  | [] => (none, rq)
  | task :: queue => (some task, { rq with queue := queue, len := fetchSub rq.len 1 })

/-- The loop of `steal_half`: `n` times, pop from the back and append to
`stolen` what came off. Returns `stolen` and what is left. -/
def stealLoop : ℕ → List α → List α → List α × List α
  | 0, queue, stolen => (stolen, queue)
  | n + 1, queue, stolen =>
      match queue.getLast? with
      | some task => stealLoop n queue.dropLast (stolen ++ [task])
      | none => stealLoop n queue stolen

/-- Steal half the tasks from this queue. -/
def stealHalf (rq : RunQueue α) : List α × RunQueue α :=
  let stealCount := rq.queue.length / 2
  if stealCount = 0 then ([], rq)
  else
    let (stolen, queue) := stealLoop stealCount rq.queue []
    (stolen, { rq with queue := queue, len := fetchSub rq.len stolen.length })

/-! ### Arithmetic of the counter -/

theorem fetchAdd_of_lt {n : ℕ} (h : n + 1 < 2 ^ 64) : fetchAdd n = n + 1 :=
  Nat.mod_eq_of_lt h

theorem fetchSub_of_le {n k : ℕ} (hk : k ≤ n) (hn : n < 2 ^ 64) : fetchSub n k = n - k := by
  unfold fetchSub
  omega

/-! ### What the loop of `steal_half` takes -/

theorem stealLoop_eq (n : ℕ) (queue stolen : List α) (h : n ≤ queue.length) :
    stealLoop n queue stolen =
      (stolen ++ (queue.drop (queue.length - n)).reverse, queue.take (queue.length - n)) := by
  induction n generalizing queue stolen with
  | zero => simp [stealLoop]
  | succ n ih =>
      rcases List.eq_nil_or_concat' queue with rfl | ⟨front, last, rfl⟩
      · simp at h
      have hn : n ≤ front.length := by simpa using h
      have hlen : (front ++ [last]).length - (n + 1) = front.length - n := by simp
      simp only [stealLoop, List.getLast?_concat, List.dropLast_concat]
      rw [ih front _ hn, hlen, List.drop_append_of_le_length (Nat.sub_le _ _),
        List.take_append_of_le_length (Nat.sub_le _ _)]
      simp

/-- What `steal_half` returns: the last `⌊n/2⌋` tasks, the last one first. -/
theorem stealHalf_fst (rq : RunQueue α) :
    rq.stealHalf.1 = (rq.queue.drop (rq.queue.length - rq.queue.length / 2)).reverse := by
  simp only [stealHalf]
  split
  · rename_i h
    simp [h]
  · simp only [stealLoop_eq _ _ _ (Nat.div_le_self _ 2), List.nil_append]

/-- What `steal_half` leaves: the first `n - ⌊n/2⌋` tasks, in order. -/
theorem stealHalf_snd_queue (rq : RunQueue α) :
    rq.stealHalf.2.queue = rq.queue.take (rq.queue.length - rq.queue.length / 2) := by
  simp only [stealHalf]
  split
  · rename_i h
    simp [h]
  · simp only [stealLoop_eq _ _ _ (Nat.div_le_self _ 2)]

end RunQueue

end SmpNostd
