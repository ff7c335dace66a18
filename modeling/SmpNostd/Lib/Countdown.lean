import Mathlib.Algebra.Order.Group.Nat
import Mathlib.Data.Nat.Init
import Mathlib.Logic.Function.Iterate
import Mathlib.Tactic.Common
import Mathlib.Tactic.Ring

/-!
Counters that count down, and the clock that drives them.

A counter that stands above zero goes down by one with every tick. When it gets
to zero it expires, and starts over from its reload value; with a reload value
of zero it expires once. A prescaler passes on every `d`-th clock of a clock that
runs freely, so between two points in time it passes on as many ticks as there
are multiples of `d` between them, whenever the counter was started.
-/

namespace SmpNostd.Countdown

/-! ### The counter -/

/-- A counter, with the number of times it has expired. -/
structure Counter where
  current : ℕ
  reload : ℕ
  expired : ℕ
  deriving DecidableEq, Repr

def Counter.tick (c : Counter) : Counter :=
  match c.current with
  | 0 => c
  | 1 => { c with current := c.reload, expired := c.expired + 1 }
  | n + 2 => { c with current := n + 1 }

theorem iterate_tick_zero (k reload expired : ℕ) :
    Counter.tick^[k] ⟨0, reload, expired⟩ = ⟨0, reload, expired⟩ := by
  induction k with
  | zero => rfl
  | succ k ih => rw [Function.iterate_succ_apply', ih, Counter.tick]

/-- A counter without a reload value expires once, when it has been through its
count. -/
theorem iterate_tick_once {count : ℕ} (hcount : 0 < count) (k expired : ℕ) :
    Counter.tick^[k] ⟨count, 0, expired⟩ =
      ⟨count - k, 0, expired + if count ≤ k then 1 else 0⟩ := by
  induction k with
  | zero => simp [Nat.not_le.mpr hcount]
  | succ k ih =>
      rw [Function.iterate_succ_apply', ih]
      obtain hlt | rfl | hgt := Nat.lt_trichotomy (k + 1) count
      · obtain ⟨n, hn⟩ : ∃ n, count - k = n + 2 := ⟨count - k - 2, by omega⟩
        have hnext : count - (k + 1) = n + 1 := by omega
        simp [Counter.tick, hn, hnext, Nat.not_le.mpr hlt,
          Nat.not_le.mpr (show k < count by omega)]
      · have hone : k + 1 - k = 1 := by omega
        simp [Counter.tick, hone]
      · have hzero : count - k = 0 := by omega
        have hzero' : count - (k + 1) = 0 := by omega
        simp [Counter.tick, hzero, hzero', show count ≤ k by omega, show count ≤ k + 1 by omega]

/-- Without a reload value a counter that has expired is over. -/
theorem expired_of_no_reload (count k : ℕ) :
    (Counter.tick^[k] ⟨count, 0, 0⟩).expired +
      (if (Counter.tick^[k] ⟨count, 0, 0⟩).current = 0 then 0 else 1) ≤ 1 := by
  obtain rfl | hpos := Nat.eq_zero_or_pos count
  · rw [iterate_tick_zero]
    simp
  · rw [iterate_tick_once hpos]
    simp only
    split <;> split <;> omega

/-- A counter expires no more often than it ticks. -/
theorem expired_le (c : Counter) (k : ℕ) : (Counter.tick^[k] c).expired ≤ c.expired + k := by
  induction k with
  | zero => exact Nat.le_refl _
  | succ k ih =>
      have hstep : ∀ c : Counter, c.tick.expired ≤ c.expired + 1 := by
        intro c
        unfold Counter.tick
        split <;> simp
      rw [Function.iterate_succ_apply']
      exact (hstep _).trans (Nat.succ_le_succ ih)

/-- A counter that reloads its own count expires once in every `period` ticks. -/
theorem iterate_tick_periodic {period : ℕ} (hperiod : 0 < period) (k expired : ℕ) :
    Counter.tick^[k] ⟨period, period, expired⟩ =
      ⟨period - k % period, period, expired + k / period⟩ := by
  induction k with
  | zero => simp
  | succ k ih =>
      rw [Function.iterate_succ_apply', ih]
      have hmod : k % period < period := Nat.mod_lt k hperiod
      by_cases hlast : k % period + 1 = period
      · -- the count runs out with this tick
        have hdvd : period ∣ k + 1 := by
          have hdiv := Nat.div_add_mod k period
          exact ⟨k / period + 1, by rw [Nat.mul_add_one]; omega⟩
        have hone : period - k % period = 1 := by omega
        rw [Nat.succ_div_of_dvd hdvd, Nat.dvd_iff_mod_eq_zero.mp hdvd, hone]
        rfl
      · obtain ⟨n, hn⟩ : ∃ n, period - k % period = n + 2 := ⟨period - k % period - 2, by omega⟩
        have hmod' : (k + 1) % period = k % period + 1 := by
          rw [Nat.add_mod, Nat.mod_eq_of_lt (by omega : 1 < period), Nat.mod_eq_of_lt (by omega)]
        have hdvd : ¬period ∣ k + 1 := by
          rw [Nat.dvd_iff_mod_eq_zero, hmod']
          omega
        rw [Nat.succ_div_of_not_dvd hdvd, hmod', hn]
        have hnext : period - (k % period + 1) = n + 1 := by omega
        rw [hnext]
        rfl

/-! ### The prescaler -/

/-- How many ticks a prescaler passes on in the `n` clocks after time `now`. -/
def ticks (d now n : ℕ) : ℕ := (now + n) / d - now / d

@[simp] theorem ticks_zero (d now : ℕ) : ticks d now 0 = 0 := Nat.sub_self _

theorem ticks_succ (d now n : ℕ) :
    ticks d now (n + 1) = ticks d now n + if d ∣ now + n + 1 then 1 else 0 := by
  have hmono : now / d ≤ (now + n) / d := Nat.div_le_div_right (Nat.le_add_right now n)
  rw [ticks, ticks, ← Nat.add_assoc, Nat.succ_div]
  omega

/-- Whenever the prescaler was started, its ticks stand for the clocks up to one
tick. -/
theorem ticks_bounds {d : ℕ} (hd : 0 < d) (now n : ℕ) :
    d * ticks d now n < n + d ∧ n < d * ticks d now n + d := by
  have hmono : now / d ≤ (now + n) / d := Nat.div_le_div_right (Nat.le_add_right now n)
  have hnow := Nat.div_add_mod now d
  have hlater := Nat.div_add_mod (now + n) d
  have hmod : now % d < d := Nat.mod_lt now hd
  have hmod' : (now + n) % d < d := Nat.mod_lt (now + n) hd
  have hsub : d * ticks d now n = d * ((now + n) / d) - d * (now / d) := Nat.mul_sub ..
  have hle : d * (now / d) ≤ d * ((now + n) / d) := Nat.mul_le_mul_left d hmono
  omega

/-- Counted in whole periods of `period` ticks. -/
theorem periods_bounds {d period : ℕ} (hd : 0 < d) (hperiod : 0 < period) (now n : ℕ) :
    ticks d now n / period * (d * period) < n + d ∧
      n < (ticks d now n / period + 1) * (d * period) := by
  obtain ⟨hupper, hlower⟩ := ticks_bounds hd now n
  have hdiv := Nat.div_add_mod (ticks d now n) period
  have hmod := Nat.mod_lt (ticks d now n) hperiod
  generalize ticks d now n = k at *
  constructor
  · calc k / period * (d * period) = d * (period * (k / period)) := by ring
      _ ≤ d * k := Nat.mul_le_mul_left d (Nat.mul_div_le k period)
      _ < n + d := hupper
  · calc n < d * k + d := hlower
      _ = d * (k + 1) := by ring
      _ ≤ d * (period * (k / period) + period) := Nat.mul_le_mul_left d (by omega)
      _ = (k / period + 1) * (d * period) := by ring

end SmpNostd.Countdown
