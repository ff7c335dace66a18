import SmpNostd.Apic.Ipi
import SmpNostd.Lib.Countdown

/-!
The timer of the local APIC (`setup_timer`, `stop_timer` and `calibrate_timer` in
`apic.rs`).

The timer counts down at the rate of the bus clock divided by its divide
configuration. A write to the initial count starts it; when it has counted down to
zero it raises the interrupt of its LVT entry, unless that is masked, and starts
over in periodic mode. In TSC-deadline mode the count is not used: writes to the
initial count are ignored, and there is nothing to count.

Bus clocks go by between any two accesses of the driver. The prescaler runs freely,
so a count may lose almost a whole tick at its start.
-/

namespace SmpNostd.LocalApic

open Countdown

/-- LVT Timer register. -/
def regLvtTimer : BitVec 32 := 0x320

/-- Timer Initial Count register. -/
def regTimerInitial : BitVec 32 := 0x380

/-- Timer Current Count register (read-only). -/
def regTimerCurrent : BitVec 32 := 0x390

/-- Timer Divide Configuration register. -/
def regTimerDivide : BitVec 32 := 0x3E0

/-- LVT Timer mode: Periodic. -/
def timerPeriodic : BitVec 32 := 0b01 <<< 17

/-- LVT mask bit. -/
def lvtMasked : BitVec 32 := 1 <<< 16

/-- Divide by 16. -/
def timerDiv16 : BitVec 32 := 0b0011

/-! ### The device -/

/-- The registers of the timer, the bus clocks since reset, and the vectors of the
interrupts that it has raised. -/
structure Timer where
  now : ℕ
  divideConfig : BitVec 32
  lvt : BitVec 32
  initial : BitVec 32
  current : BitVec 32
  fired : List (BitVec 8)
  deriving DecidableEq, Repr

/-- The divide value that a divide configuration selects with its bits 3, 1
and 0. -/
def divisor (config : BitVec 32) : ℕ :=
  match config.getLsbD 3, config.getLsbD 1, config.getLsbD 0 with
  | false, false, false => 2
  | false, false, true => 4
  | false, true, false => 8
  | false, true, true => 16
  | true, false, false => 32
  | true, false, true => 64
  | true, true, false => 128
  | true, true, true => 1

/-- Bits 17 and 18 of an LVT entry are those of TSC-deadline mode. -/
def isTscDeadline (lvt : BitVec 32) : Bool := !lvt.getLsbD 17 && lvt.getLsbD 18

def isPeriodic (lvt : BitVec 32) : Bool := lvt.getLsbD 17 && !lvt.getLsbD 18

namespace Timer

def masked (t : Timer) : Bool := t.lvt.getLsbD 16

def vector (t : Timer) : BitVec 8 := t.lvt.setWidth 8

/-- What the count starts over from when it has run out. -/
def reload (t : Timer) : BitVec 32 := if isPeriodic t.lvt then t.initial else 0

/-- One step of the count. -/
def tick (t : Timer) : Timer :=
  if t.current = 0 then t
  else if t.current = 1 then
    { t with
      current := t.reload
      fired := if t.masked then t.fired else t.fired ++ [t.vector] }
  else { t with current := t.current - 1 }

/-- One bus clock. -/
def clock (t : Timer) : Timer :=
  let t := { t with now := t.now + 1 }
  if divisor t.divideConfig ∣ t.now then t.tick else t

/-- `n` bus clocks. -/
def clocks (t : Timer) : ℕ → Timer
  | 0 => t
  | n + 1 => (t.clocks n).clock

/-- A write to a register of the xAPIC. A change from or to TSC-deadline mode, where
nothing is counted, disarms the timer. -/
def write (t : Timer) (offset value : BitVec 32) : Timer :=
  if offset = regTimerDivide then { t with divideConfig := value }
  else if offset = regLvtTimer then
    { t with
      lvt := value
      current := if isTscDeadline value || isTscDeadline t.lvt then 0 else t.current }
  else if offset = regTimerInitial then
    if isTscDeadline t.lvt then t else { t with initial := value, current := value }
  else t

/-- A read of a register of the xAPIC. -/
def read (t : Timer) (offset : BitVec 32) : BitVec 32 :=
  if offset = regTimerDivide then t.divideConfig
  else if offset = regLvtTimer then t.lvt
  else if offset = regTimerInitial then t.initial
  else if offset = regTimerCurrent then t.current
  else 0

/-- A write to an MSR of the x2APIC. -/
def wrmsr (t : Timer) (msr : BitVec 32) (value : BitVec 64) : Timer :=
  if msr = 0x83E then t.write regTimerDivide (value.setWidth 32)
  else if msr = 0x832 then t.write regLvtTimer (value.setWidth 32)
  else if msr = 0x838 then t.write regTimerInitial (value.setWidth 32)
  else t

/-- A read of an MSR of the x2APIC. -/
def rdmsr (t : Timer) (msr : BitVec 32) : BitVec 64 :=
  if msr = 0x83E then t.divideConfig.setWidth 64
  else if msr = 0x832 then t.lvt.setWidth 64
  else if msr = 0x838 then t.initial.setWidth 64
  else if msr = 0x839 then t.current.setWidth 64
  else 0

end Timer

/-! ### The driver -/

/-- Read a 32-bit local APIC register. -/
def readReg (x2apic : Bool) (t : Timer) (offset : BitVec 32) : BitVec 32 :=
  if x2apic then (t.rdmsr (x2apicMsrBase + (offset >>> 4))).setWidth 32 else t.read offset

/-- Write a 32-bit local APIC register. -/
def writeReg (x2apic : Bool) (t : Timer) (offset value : BitVec 32) : Timer :=
  if x2apic then t.wrmsr (x2apicMsrBase + (offset >>> 4)) (value.setWidth 64)
  else t.write offset value

/-- Set up the APIC timer. `wait i` bus clocks go by after the `i`-th access. -/
def setupTimer (x2apic : Bool) (vector : BitVec 8) (mode divide initialCount : BitVec 32)
    (wait : ℕ → ℕ) (t : Timer) : Timer :=
  let t := (writeReg x2apic t regTimerDivide divide).clocks (wait 0)
  let t := (writeReg x2apic t regLvtTimer (mode ||| vector.setWidth 32)).clocks (wait 1)
  writeReg x2apic t regTimerInitial initialCount

/-- Stop the APIC timer by masking the LVT Timer entry and zeroing the count. -/
def stopTimer (x2apic : Bool) (wait : ℕ → ℕ) (t : Timer) : Timer :=
  let t := (writeReg x2apic t regLvtTimer lvtMasked).clocks (wait 0)
  writeReg x2apic t regTimerInitial 0

/-- Read the current timer count. -/
def timerCurrentCount (x2apic : Bool) (t : Timer) : BitVec 32 := readReg x2apic t regTimerCurrent

/-- Calibrate the APIC timer frequency by counting ticks over a known delay. The
delay is what goes by after the third access; a delay of zero milliseconds makes
the division panic. -/
def calibrateTimer (x2apic : Bool) (delayMs : BitVec 32) (wait : ℕ → ℕ) (t : Timer) :
    Option (BitVec 32 × Timer) :=
  let t := (writeReg x2apic t regTimerDivide timerDiv16).clocks (wait 0)
  let t := (writeReg x2apic t regLvtTimer lvtMasked).clocks (wait 1)
  let t := (writeReg x2apic t regTimerInitial 0xFFFFFFFF).clocks (wait 2)
  let remaining := timerCurrentCount x2apic t
  let t := writeReg x2apic (t.clocks (wait 3)) regTimerInitial 0
  let elapsed := 0xFFFFFFFF - remaining
  if delayMs = 0 then none else some (elapsed / delayMs, t)

/-! ### The two access modes -/

variable {t : Timer} {x2apic : Bool}

/-- The registers of the timer are the same ones in both modes. -/
theorem writeReg_eq {offset : BitVec 32}
    (h : offset ∈ [regTimerDivide, regLvtTimer, regTimerInitial]) (value : BitVec 32) :
    writeReg x2apic t offset value = t.write offset value := by
  cases x2apic with
  | false => rfl
  | true =>
      have hwidth : (value.setWidth 64).setWidth 32 = value := by simp
      simp only [List.mem_cons, List.not_mem_nil, or_false] at h
      obtain rfl | rfl | rfl := h
      all_goals
        simp only [writeReg, Timer.wrmsr, if_true, hwidth]
        rfl

theorem timerCurrentCount_eq : timerCurrentCount x2apic t = t.current := by
  cases x2apic with
  | false => rfl
  | true =>
      have hwidth : (t.current.setWidth 64).setWidth 32 = t.current := by simp
      exact hwidth

namespace Timer

theorem write_divide (t : Timer) (value : BitVec 32) :
    t.write regTimerDivide value = { t with divideConfig := value } := rfl

theorem write_lvt (t : Timer) (value : BitVec 32) :
    t.write regLvtTimer value =
      { t with
        lvt := value
        current := if isTscDeadline value || isTscDeadline t.lvt then 0 else t.current } := rfl

theorem write_initial (t : Timer) (value : BitVec 32) :
    t.write regTimerInitial value =
      if isTscDeadline t.lvt then t else { t with initial := value, current := value } := rfl

theorem write_initial_of_counts (h : isTscDeadline t.lvt = false) (value : BitVec 32) :
    t.write regTimerInitial value = { t with initial := value, current := value } := by
  rw [write_initial, h]
  rfl

@[simp] theorem write_initial_lvt (t : Timer) (value : BitVec 32) :
    (t.write regTimerInitial value).lvt = t.lvt := by
  rw [write_initial]
  split <;> rfl

@[simp] theorem write_initial_fired (t : Timer) (value : BitVec 32) :
    (t.write regTimerInitial value).fired = t.fired := by
  rw [write_initial]
  split <;> rfl

end Timer

/-! ### The timer as a counter -/

namespace Timer

/-- The timer at time `now`, with `c` for its count and for the interrupts raised
since `t`. -/
def counted (t : Timer) (c : Counter) (now : ℕ) : Timer :=
  { t with
    now := now
    current := BitVec.ofNat 32 c.current
    fired := t.fired ++ List.replicate (if t.masked then 0 else c.expired) t.vector }

/-- The count that the timer has before it. -/
def counter (t : Timer) : Counter := ⟨t.current.toNat, t.reload.toNat, 0⟩

theorem counted_counter (t : Timer) : t.counted t.counter t.now = t := by
  simp [counted, counter]

@[simp] theorem counted_reload (t : Timer) (c : Counter) (now : ℕ) :
    (t.counted c now).reload = t.reload := rfl

@[simp] theorem counted_masked (t : Timer) (c : Counter) (now : ℕ) :
    (t.counted c now).masked = t.masked := rfl

@[simp] theorem counted_vector (t : Timer) (c : Counter) (now : ℕ) :
    (t.counted c now).vector = t.vector := rfl

theorem tick_of_one (h : t.current = 1) : t.tick =
    { t with
      current := t.reload
      fired := if t.masked then t.fired else t.fired ++ [t.vector] } := by
  simp [Timer.tick, h]

theorem tick_of_more {n : ℕ} (hn : n + 2 < 2 ^ 32) (h : t.current = BitVec.ofNat 32 (n + 2)) :
    t.tick = { t with current := BitVec.ofNat 32 (n + 1) } := by
  have htoNat : t.current.toNat = n + 2 := by
    rw [h, BitVec.toNat_ofNat, Nat.mod_eq_of_lt hn]
  have hzero : t.current ≠ 0 := fun h => by simp [h] at htoNat
  have hone : t.current ≠ 1 := fun h => by simp [h] at htoNat
  have hsub : t.current - 1 = BitVec.ofNat 32 (n + 1) := by
    apply BitVec.eq_of_toNat_eq
    have hone : (1 : BitVec 32).toNat = 1 := rfl
    rw [BitVec.toNat_sub, htoNat, BitVec.toNat_ofNat, hone]
    omega
  rw [Timer.tick, if_neg hzero, if_neg hone, hsub]

/-- An interrupt is raised exactly if the count runs out and the entry is not
masked. -/
theorem tick_counted {c : Counter} (hcurrent : c.current < 2 ^ 32)
    (hreload : c.reload = t.reload.toNat) (now : ℕ) :
    (t.counted c now).tick = t.counted c.tick now := by
  obtain ⟨current, reload, expired⟩ := c
  obtain rfl : reload = t.reload.toNat := hreload
  match current with
  | 0 => simp [counted, Timer.tick, Counter.tick]
  | 1 =>
      rw [tick_of_one rfl, counted_reload, counted_masked, counted_vector]
      cases hmasked : t.masked with
      | true => simp [counted, Counter.tick, hmasked]
      | false => simp [counted, Counter.tick, hmasked, List.replicate_succ']
  | n + 2 =>
      rw [tick_of_more hcurrent rfl]
      rfl

theorem clock_counted {c : Counter} (hcurrent : c.current < 2 ^ 32)
    (hreload : c.reload = t.reload.toNat) (now : ℕ) :
    (t.counted c now).clock =
      t.counted (if divisor t.divideConfig ∣ now + 1 then c.tick else c) (now + 1) := by
  change (if divisor t.divideConfig ∣ now + 1 then (t.counted c (now + 1)).tick
    else t.counted c (now + 1)) = _
  split
  · exact tick_counted hcurrent hreload (now + 1)
  · rfl

/-- A counter does not get above what it starts from and what it starts over
from. -/
theorem tick_inRange {c : Counter} (h : c.current < 2 ^ 32 ∧ c.reload < 2 ^ 32) :
    c.tick.current < 2 ^ 32 ∧ c.tick.reload = c.reload := by
  obtain ⟨hcurrent, hreload⟩ := h
  unfold Counter.tick
  split
  · exact ⟨hcurrent, rfl⟩
  · exact ⟨hreload, rfl⟩
  · rename_i n hn
    exact ⟨by simp only; omega, rfl⟩

theorem iterate_tick_inRange {c : Counter} (h : c.current < 2 ^ 32 ∧ c.reload < 2 ^ 32) (k : ℕ) :
    (Counter.tick^[k] c).current < 2 ^ 32 ∧ (Counter.tick^[k] c).reload = c.reload := by
  induction k with
  | zero => exact ⟨h.1, rfl⟩
  | succ k ih =>
      rw [Function.iterate_succ_apply']
      have hnext := tick_inRange ⟨ih.1, ih.2 ▸ h.2⟩
      exact ⟨hnext.1, hnext.2.trans ih.2⟩

/-- The bus clocks count as many ticks as the prescaler passes on. -/
theorem clocks_eq (t : Timer) (n : ℕ) :
    t.clocks n = t.counted (Counter.tick^[ticks (divisor t.divideConfig) t.now n] t.counter)
      (t.now + n) := by
  have hrange : t.counter.current < 2 ^ 32 ∧ t.counter.reload < 2 ^ 32 :=
    ⟨t.current.isLt, t.reload.isLt⟩
  induction n with
  | zero => rw [ticks_zero]; exact (counted_counter t).symm
  | succ n ih =>
      have hcounter := iterate_tick_inRange hrange (ticks (divisor t.divideConfig) t.now n)
      rw [clocks, ih, clock_counted hcounter.1 hcounter.2, ticks_succ]
      congr 1
      split
      · exact (Function.iterate_succ_apply' ..).symm
      · rfl

@[simp] theorem clocks_now (t : Timer) (n : ℕ) : (t.clocks n).now = t.now + n := by
  rw [clocks_eq]
  rfl

@[simp] theorem clocks_lvt (t : Timer) (n : ℕ) : (t.clocks n).lvt = t.lvt := by
  rw [clocks_eq]
  rfl

@[simp] theorem clocks_divideConfig (t : Timer) (n : ℕ) :
    (t.clocks n).divideConfig = t.divideConfig := by
  rw [clocks_eq]
  rfl

/-- A masked timer is silent. -/
theorem fired_of_masked (h : t.masked = true) (n : ℕ) : (t.clocks n).fired = t.fired := by
  rw [clocks_eq]
  simp [counted, h]

/-- The interrupts that a timer raises. -/
theorem fired_of_not_masked (h : t.masked = false) (n : ℕ) :
    (t.clocks n).fired = t.fired ++ List.replicate
      (Counter.tick^[ticks (divisor t.divideConfig) t.now n] t.counter).expired t.vector := by
  rw [clocks_eq]
  simp [counted, h]

/-- A timer that does not count raises nothing. -/
theorem clocks_of_zero (h : t.current = 0) (n : ℕ) :
    (t.clocks n).current = 0 ∧ (t.clocks n).fired = t.fired := by
  have hcounter : t.counter = ⟨0, t.reload.toNat, 0⟩ := by simp [counter, h]
  rw [clocks_eq, hcounter, iterate_tick_zero]
  simp [counted]

/-- What a timer raises by itself while the prescaler passes on `k` ticks: its
interrupt `e` times, after which its count is `current`. -/
structure Raises (t : Timer) (k e : ℕ) (current : BitVec 32) : Prop where
  le : e ≤ k
  masked : t.masked = true → e = 0
  stopped : t.current = 0 → e = 0
  once : isPeriodic t.lvt = false → e ≤ 1 ∧ (e = 1 → current = 0)

theorem clocks_raises (t : Timer) (n : ℕ) :
    ∃ e, (t.clocks n).fired = t.fired ++ List.replicate e t.vector ∧
      Raises t (ticks (divisor t.divideConfig) t.now n) e (t.clocks n).current := by
  rw [clocks_eq]
  generalize ticks (divisor t.divideConfig) t.now n = k
  refine ⟨if t.masked then 0 else (Counter.tick^[k] t.counter).expired, rfl, ?_⟩
  have hexpired : (if t.masked then 0 else (Counter.tick^[k] t.counter).expired) ≤
      (Counter.tick^[k] t.counter).expired := by
    split <;> omega
  constructor
  case le => exact (hexpired.trans (expired_le t.counter k)).trans_eq (Nat.zero_add k)
  case masked => exact fun hmasked => if_pos hmasked
  case stopped =>
    intro hstopped
    have hcounter : t.counter = ⟨0, t.reload.toNat, 0⟩ := by simp [counter, hstopped]
    rw [hcounter, iterate_tick_zero, ite_self]
  case once =>
    intro hnot
    have hcounter : t.counter = ⟨t.current.toNat, 0, 0⟩ := by simp [counter, Timer.reload, hnot]
    have hover := expired_of_no_reload t.current.toNat k
    rw [hcounter] at hexpired ⊢
    refine ⟨by omega, fun hone => ?_⟩
    have hend : (Counter.tick^[k] ⟨t.current.toNat, 0, 0⟩).current = 0 := by
      by_contra hne
      rw [if_neg hne] at hover
      omega
    rw [counted, hend]
    rfl

end Timer

/-! ### The operations -/

open Timer

/-- What `setup_timer` leaves behind. -/
structure SetUp (t : Timer) (now : ℕ) (lvt divide initialCount : BitVec 32) : Prop where
  now_eq : t.now = now
  lvt_eq : t.lvt = lvt
  divideConfig_eq : t.divideConfig = divide
  counts : isTscDeadline lvt = false → t.initial = initialCount ∧ t.current = initialCount
  disarmed : isTscDeadline lvt = true → t.current = 0

theorem setupTimer_setUp (x2apic : Bool) (vector : BitVec 8) (mode divide initialCount : BitVec 32)
    (wait : ℕ → ℕ) (t : Timer) :
    SetUp (setupTimer x2apic vector mode divide initialCount wait t) (t.now + wait 0 + wait 1)
      (mode ||| vector.setWidth 32) divide initialCount := by
  simp only [setupTimer]
  rw [writeReg_eq (by simp), writeReg_eq (by simp), writeReg_eq (by simp)]
  generalize mode ||| vector.setWidth 32 = lvt
  generalize hm : ((t.write regTimerDivide divide).clocks (wait 0)).write regLvtTimer lvt = m
  have hlvt : m.lvt = lvt := by rw [← hm, write_lvt]
  have hnow : m.now = t.now + wait 0 := by rw [← hm, write_lvt, clocks_now, write_divide]
  have hdivide : m.divideConfig = divide := by
    rw [← hm, write_lvt, clocks_divideConfig, write_divide]
  have hcurrent : isTscDeadline lvt = true → m.current = 0 := by
    intro htsc
    rw [← hm, write_lvt, htsc]
    rfl
  rw [write_initial, clocks_lvt, hlvt]
  cases htsc : isTscDeadline lvt with
  | true =>
      refine ⟨?_, ?_, ?_, fun h => absurd (htsc.symm.trans h) (by decide),
        fun _ => (clocks_of_zero (hcurrent htsc) _).1⟩
      · exact (clocks_now m _).trans (by rw [hnow])
      · exact (clocks_lvt m _).trans hlvt
      · exact (clocks_divideConfig m _).trans hdivide
  | false =>
      refine ⟨?_, rfl, ?_, fun _ => ⟨rfl, rfl⟩, fun h => absurd (htsc.symm.trans h) (by decide)⟩
      · exact (clocks_now m _).trans (by rw [hnow])
      · exact (clocks_divideConfig m _).trans hdivide

/-- An LVT entry of one of the modes, with a vector and nothing else. -/
theorem lvt_bits {mode : BitVec 32} (hmode : ∀ i < 17, mode.getLsbD i = false)
    (vector : BitVec 8) : (mode ||| vector.setWidth 32).setWidth 8 = vector ∧
      ∀ i, 16 ≤ i → (mode ||| vector.setWidth 32).getLsbD i = mode.getLsbD i := by
  constructor
  · ext i hi
    have hlow := hmode i (by omega)
    simp only [BitVec.getElem_setWidth, BitVec.getLsbD_or, BitVec.getLsbD_setWidth, hlow]
    rw [Bool.false_or, decide_eq_true (by omega), Bool.true_and, BitVec.getLsbD_eq_getElem hi]
  · intro i hi
    rw [BitVec.getLsbD_or, BitVec.getLsbD_setWidth, BitVec.getLsbD_of_ge vector i (by omega),
      Bool.and_false, Bool.or_false]

/-- What is raised while `setup_timer` makes its accesses: `old` times the interrupt
of the entry there was, and `new` times that of the new one. Between the accesses the
prescaler passes on `k` and `k'` ticks to the count that has not been replaced yet. -/
structure RaisedMeanwhile (t : Timer) (mode : BitVec 32) (k k' old new : ℕ) : Prop where
  stopped : t.current = 0 → old = 0 ∧ new = 0
  masked : t.masked = true → old = 0
  old_le : old ≤ k
  new_le : new ≤ k'
  once : isPeriodic mode = false → new ≤ 1 ∧ (isPeriodic t.lvt = false → old + new ≤ 1)
  disarmed : isTscDeadline mode = true ∨ isTscDeadline t.lvt = true → new = 0

/-- The old count runs on until the new one is written, in the new mode from the
second access on. -/
theorem fired_setupTimer (x2apic : Bool) (vector : BitVec 8) {mode : BitVec 32}
    (hmode : ∀ i < 17, mode.getLsbD i = false) (divide initialCount : BitVec 32)
    (wait : ℕ → ℕ) (t : Timer) :
    ∃ old new, (setupTimer x2apic vector mode divide initialCount wait t).fired =
        t.fired ++ List.replicate old t.vector ++ List.replicate new vector ∧
      RaisedMeanwhile t mode (ticks (divisor divide) t.now (wait 0))
        (ticks (divisor divide) (t.now + wait 0) (wait 1)) old new := by
  obtain ⟨hvector, hbits⟩ := lvt_bits hmode vector
  have htsc : isTscDeadline (mode ||| vector.setWidth 32) = isTscDeadline mode := by
    rw [isTscDeadline, isTscDeadline, hbits 17 (by omega), hbits 18 (by omega)]
  have hperiodic : isPeriodic (mode ||| vector.setWidth 32) = isPeriodic mode := by
    rw [isPeriodic, isPeriodic, hbits 17 (by omega), hbits 18 (by omega)]
  simp only [setupTimer]
  rw [writeReg_eq (by simp), writeReg_eq (by simp), writeReg_eq (by simp), write_initial_fired]
  -- up to the second access
  obtain ⟨old, hfired, hold⟩ := clocks_raises (t.write regTimerDivide divide) (wait 0)
  have hzero : t.current = 0 →
      ((t.write regTimerDivide divide).clocks (wait 0)).current = 0 :=
    fun h => (clocks_of_zero (t := t.write regTimerDivide divide) h (wait 0)).1
  have hnow := clocks_now (t.write regTimerDivide divide) (wait 0)
  have hdivide := clocks_divideConfig (t.write regTimerDivide divide) (wait 0)
  have hlvt := clocks_lvt (t.write regTimerDivide divide) (wait 0)
  generalize (t.write regTimerDivide divide).clocks (wait 0) = s at *
  -- and from it on
  obtain ⟨new, hfired', hnew⟩ :=
    clocks_raises (s.write regLvtTimer (mode ||| vector.setWidth 32)) (wait 1)
  have hcurrent : (s.write regLvtTimer (mode ||| vector.setWidth 32)).current =
      if isTscDeadline mode || isTscDeadline t.lvt then 0 else s.current := by
    rw [write_lvt, htsc, hlvt]
    rfl
  refine ⟨old, new, ?_, ?_⟩
  · rw [hfired', write_lvt, hfired]
    show _ ++ List.replicate new ((mode ||| vector.setWidth 32).setWidth 8) = _
    rw [hvector]
    rfl
  constructor
  case stopped =>
    intro hstopped
    refine ⟨hold.stopped hstopped, hnew.stopped ?_⟩
    rw [hcurrent, hzero hstopped]
    exact ite_self 0
  case masked => exact hold.masked
  case old_le => exact hold.le
  case new_le =>
    have hle := hnew.le
    rw [write_lvt] at hle
    simp only [hnow, hdivide] at hle
    exact hle
  case once =>
    intro hnot
    obtain ⟨hone, -⟩ := hnew.once (hperiodic.trans hnot)
    refine ⟨hone, fun hnot' => ?_⟩
    obtain ⟨hone', hend⟩ := hold.once hnot'
    by_cases heq : old = 1
    · rw [hnew.stopped (by rw [hcurrent, hend heq]; exact ite_self 0), heq]
    · omega
  case disarmed =>
    intro hdeadline
    refine hnew.stopped ?_
    rw [hcurrent, if_pos]
    simpa using hdeadline

/-- The interrupts of a timer that has been set up, by what its counter does. -/
theorem SetUp.fired {vector : BitVec 8} {mode divide initialCount : BitVec 32} {now : ℕ}
    (h : SetUp t now (mode ||| vector.setWidth 32) divide initialCount)
    (hmode : ∀ i < 17, mode.getLsbD i = false) (hcounts : isTscDeadline mode = false) (n : ℕ) :
    (t.clocks n).fired = t.fired ++ List.replicate
      (Counter.tick^[ticks (divisor divide) now n] ⟨initialCount.toNat,
        if isPeriodic mode then initialCount.toNat else 0, 0⟩).expired vector := by
  obtain ⟨hvector, hbits⟩ := lvt_bits hmode vector
  have htsc : isTscDeadline (mode ||| vector.setWidth 32) = false := by
    rw [isTscDeadline, hbits 17 (by omega), hbits 18 (by omega)]
    exact hcounts
  have hperiodic : isPeriodic (mode ||| vector.setWidth 32) = isPeriodic mode := by
    rw [isPeriodic, isPeriodic, hbits 17 (by omega), hbits 18 (by omega)]
  obtain ⟨hinitial, hcurrent⟩ := h.counts htsc
  have hmasked : t.masked = false := by
    rw [masked, h.lvt_eq, hbits 16 (by omega), hmode 16 (by omega)]
  have hcounter : t.counter = ⟨initialCount.toNat,
      if isPeriodic mode then initialCount.toNat else 0, 0⟩ := by
    rw [counter, hcurrent, Timer.reload, h.lvt_eq, hperiodic, hinitial]
    split <;> rfl
  rw [fired_of_not_masked hmasked, hcounter, h.divideConfig_eq, h.now_eq, Timer.vector, h.lvt_eq,
    hvector]

/-- What a calibration over a delay that is not zero gives: the ticks of the delay
by its milliseconds, and a timer that is stopped and has raised nothing since its
entry was masked. -/
structure Calibrated (delayMs : BitVec 32) (k : ℕ) (fired : List (BitVec 8)) (r : BitVec 32)
    (t : Timer) : Prop where
  result : r.toNat = min k (2 ^ 32 - 1) / delayMs.toNat
  stopped : t.current = 0
  lvt_eq : t.lvt = lvtMasked
  fired_eq : t.fired = fired

theorem calibrateTimer_calibrated {delayMs : BitVec 32} (hdelay : delayMs ≠ 0) (x2apic : Bool)
    (wait : ℕ → ℕ) (t : Timer) :
    ∃ r t', calibrateTimer x2apic delayMs wait t = some (r, t') ∧
      Calibrated delayMs (ticks 16 (t.now + wait 0 + wait 1) (wait 2))
        ((t.write regTimerDivide timerDiv16).clocks (wait 0)).fired r t' := by
  simp only [calibrateTimer, if_neg hdelay, timerCurrentCount_eq]
  rw [writeReg_eq (by simp), writeReg_eq (by simp), writeReg_eq (by simp), writeReg_eq (by simp)]
  refine ⟨_, _, rfl, ?_⟩
  -- the timer when the LVT entry has been masked
  generalize hm : ((t.write regTimerDivide timerDiv16).clocks (wait 0)).write regLvtTimer
    lvtMasked = m
  have hlvt : m.lvt = lvtMasked := by rw [← hm, write_lvt]
  have hdivide : m.divideConfig = timerDiv16 := by
    rw [← hm, write_lvt, clocks_divideConfig, write_divide]
  have hnow : m.now = t.now + wait 0 := by rw [← hm, write_lvt, clocks_now, write_divide]
  have hfired : m.fired = ((t.write regTimerDivide timerDiv16).clocks (wait 0)).fired := by
    rw [← hm, write_lvt]
  -- and when its count has been started
  generalize hs : (m.clocks (wait 1)).write regTimerInitial 0xFFFFFFFF = s
  have hlvt' : s.lvt = lvtMasked := by rw [← hs, write_initial_lvt, clocks_lvt, hlvt]
  have hmasked : ∀ u : Timer, u.lvt = lvtMasked → u.masked = true := by
    intro u hu
    rw [masked, hu]
    decide
  have hstart : s = { m.clocks (wait 1) with initial := 0xFFFFFFFF, current := 0xFFFFFFFF } := by
    rw [← hs, write_initial_of_counts (by rw [clocks_lvt, hlvt]; decide)]
  have hfired' : s.fired = m.fired := by
    rw [← hs, write_initial_fired, fired_of_masked (hmasked m hlvt)]
  have hticks : ticks (divisor s.divideConfig) s.now (wait 2) =
      ticks 16 (t.now + wait 0 + wait 1) (wait 2) := by
    rw [hstart]
    simp only [clocks_divideConfig, clocks_now, hdivide, hnow]
    rfl
  generalize ticks 16 (t.now + wait 0 + wait 1) (wait 2) = k at hticks
  have hcounter : s.counter = ⟨2 ^ 32 - 1, 0, 0⟩ := by
    have hperiodic : isPeriodic s.lvt = false := by
      rw [hlvt']
      decide
    rw [counter, Timer.reload, hperiodic, hstart]
    rfl
  have hremaining : (s.clocks (wait 2)).current.toNat = 2 ^ 32 - 1 - k := by
    rw [clocks_eq, hticks, hcounter, iterate_tick_once (by decide)]
    change (2 ^ 32 - 1 - k) % 2 ^ 32 = _
    omega
  have hlvt'' : ((s.clocks (wait 2)).clocks (wait 3)).lvt = lvtMasked := by
    rw [clocks_lvt, clocks_lvt, hlvt']
  refine ⟨?_, ?_, ?_, ?_⟩
  · have hall : (0xFFFFFFFF : BitVec 32).toNat = 2 ^ 32 - 1 := rfl
    have helapsed : (2 ^ 32 - (2 ^ 32 - 1 - k) + (2 ^ 32 - 1)) % 2 ^ 32 = min k (2 ^ 32 - 1) := by
      omega
    rw [BitVec.toNat_udiv, BitVec.toNat_sub, hremaining, hall, helapsed]
  · rw [write_initial_of_counts (by rw [hlvt'']; decide)]
  · rw [write_initial_lvt, hlvt'']
  · rw [write_initial_fired, fired_of_masked (hmasked _ (by rw [clocks_lvt, hlvt'])),
      fired_of_masked (hmasked _ hlvt'), hfired', hfired]

/-- The ticks per millisecond of a calibration whose delay is exact: `c` bus clocks a
millisecond, to within one tick. -/
theorem Calibrated.bounds {delayMs r : BitVec 32} {now c : ℕ} {fired : List (BitVec 8)}
    (hdelay : 0 < delayMs.toNat) (hfits : delayMs.toNat * c + 16 ≤ 16 * (2 ^ 32 - 1))
    (h : Calibrated delayMs (ticks 16 now (delayMs.toNat * c)) fired r t) :
    c < 16 * r.toNat + 16 ∧ 16 * r.toNat < c + 16 := by
  obtain ⟨hupper, hlower⟩ := ticks_bounds (d := 16) (by omega) now (delayMs.toNat * c)
  have hresult := h.result
  generalize hk : ticks 16 now (delayMs.toNat * c) = k at hresult hupper hlower
  rw [min_eq_left (by omega)] at hresult
  have hdiv := Nat.div_add_mod k delayMs.toNat
  have hmod := Nat.mod_lt k hdelay
  rw [← hresult] at hdiv
  generalize delayMs.toNat = d at *
  constructor
  · by_contra hge
    have hmul : d * (16 * r.toNat + 16) ≤ d * c := Nat.mul_le_mul_left d (Nat.not_lt.mp hge)
    have hexpand : d * (16 * r.toNat + 16) = 16 * (d * r.toNat) + 16 * d := by ring
    omega
  · by_contra hge
    have hmul : d * (c + 16) ≤ d * (16 * r.toNat) := Nat.mul_le_mul_left d (Nat.not_lt.mp hge)
    have hexpand : d * (c + 16) = d * c + 16 * d := by ring
    have hexpand' : d * (16 * r.toNat) = 16 * (d * r.toNat) := by ring
    omega

/-- A timer that is stopped raises nothing while it is set up. -/
theorem fired_setupTimer_of_stopped (h : t.current = 0) (x2apic : Bool) (vector : BitVec 8)
    {mode : BitVec 32} (hmode : ∀ i < 17, mode.getLsbD i = false)
    (divide initialCount : BitVec 32) (wait : ℕ → ℕ) :
    (setupTimer x2apic vector mode divide initialCount wait t).fired = t.fired := by
  obtain ⟨old, new, hfired, hraised⟩ :=
    fired_setupTimer x2apic vector hmode divide initialCount wait t
  obtain ⟨rfl, rfl⟩ := hraised.stopped h
  simpa using hfired

/-- **A calibrated timer keeps the time.** Let `c` bus clocks be a millisecond and the
delay of a calibration exact, and set the timer up in periodic mode with what the
calibration gives. In either access mode and at any speed of the accesses, its
period is a millisecond to within one tick of 16 clocks, it raises one interrupt
in every period from its start on, and none before. -/
theorem calibrated_timer {delayMs : BitVec 32} {c : ℕ} (hdelay : delayMs ≠ 0) (hc : 16 ≤ c)
    (hfits : delayMs.toNat * c + 16 ≤ 16 * (2 ^ 32 - 1)) (x2apic : Bool) {wait : ℕ → ℕ}
    (hwait : wait 2 = delayMs.toNat * c) (t : Timer) :
    ∃ r t', calibrateTimer x2apic delayMs wait t = some (r, t') ∧
      c < 16 * r.toNat + 16 ∧ 16 * r.toNat < c + 16 ∧
      ∀ vector wait' n,
        let s := setupTimer x2apic vector timerPeriodic timerDiv16 r wait' t'
        s.fired = t'.fired ∧ ∃ k, (s.clocks n).fired = s.fired ++ List.replicate k vector ∧
          k * (16 * r.toNat) < n + 16 ∧ n < (k + 1) * (16 * r.toNat) := by
  obtain ⟨r, t', hrun, hcal⟩ := calibrateTimer_calibrated hdelay x2apic wait t
  have hpos : 0 < delayMs.toNat := Nat.pos_of_ne_zero fun h => hdelay (BitVec.eq_of_toNat_eq h)
  rw [hwait] at hcal
  obtain ⟨hlower, hupper⟩ := hcal.bounds hpos hfits
  refine ⟨r, t', hrun, hlower, hupper, fun vector wait' n => ?_⟩
  intro s
  have hsetUp := setupTimer_setUp x2apic vector timerPeriodic timerDiv16 r wait' t'
  have hperiod : 0 < r.toNat := by omega
  refine ⟨fired_setupTimer_of_stopped hcal.stopped _ _ (by decide) ..,
    ticks 16 (t'.now + wait' 0 + wait' 1) n / r.toNat, ?_,
    periods_bounds (by omega) hperiod _ _⟩
  rw [hsetUp.fired (by decide) (by decide)]
  congr 2
  change (Counter.tick^[_] ⟨r.toNat, r.toNat, 0⟩).expired = _
  rw [iterate_tick_periodic hperiod, Nat.zero_add]
  rfl

/-- The pauses of a calibration over ten milliseconds at 1000 bus clocks a
millisecond. -/
def tenMs (i : ℕ) : ℕ := if i = 2 then 10000 else 7

theorem calibrated_timer_ten_ms :
    ∃ r t', calibrateTimer true 10 tenMs ⟨5, 0, lvtMasked, 0, 0, []⟩ = some (r, t') ∧
      1000 < 16 * r.toNat + 16 ∧ 16 * r.toNat < 1016 := by
  have hdelay : (10 : BitVec 32) ≠ 0 := by decide
  have hwait : tenMs 2 = (10 : BitVec 32).toNat * 1000 := rfl
  obtain ⟨r, t', hrun, hlower, hupper, -⟩ := calibrated_timer hdelay (by decide) (by decide) true
    hwait ⟨5, 0, lvtMasked, 0, 0, []⟩
  exact ⟨r, t', hrun, hlower, hupper⟩

end SmpNostd.LocalApic
