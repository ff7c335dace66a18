import Mathlib.Algebra.BigOperators.Fin
import Mathlib.Algebra.Order.BigOperators.Group.Finset
import SmpNostd.Boot.Controller
import SmpNostd.Lib.Accounting

/-!
How the cores register themselves (`percpu.rs`, and `ap_entry` in `driver.rs`).

An AP signals through the mailbox that it is ready before it calls `ap_entry`,
and it is that signal which the BSP waits for and counts the AP by. Only then
does the AP enable its APIC, enter itself into the array of cores and count
itself as booted. Here every AP comes up in time, so the wait never times out,
and has its index from the iteration that starts it. Each access to what the
cores share is one step.
-/

namespace SmpNostd

/-! ### Per-CPU data -/

/-- The per-CPU data of one core, as far as other cores look at it. -/
structure PerCpu where
  cpuIndex : BitVec 32
  apicId : BitVec 32
  isBsp : Bool
  deriving DecidableEq, Repr

/-- `PERCPU_ARRAY` and `PERCPU_COUNT`. -/
structure PerCpus where
  array : ℕ → Option PerCpu
  count : ℕ

namespace PerCpus

def maxCpus : ℕ := 256

def empty : PerCpus where
  array _ := none
  count := 0

/-- The data of the CPU with the given index, if it has been registered. -/
def getCpu (percpus : PerCpus) (index : ℕ) : Option PerCpu :=
  if maxCpus ≤ index then none else percpus.array index

/-- `PERCPU_ARRAY[index] = ptr`. -/
def store (percpus : PerCpus) (cpu : PerCpu) : PerCpus :=
  { percpus with array := Function.update percpus.array cpu.cpuIndex.toNat (some cpu) }

/-- `PERCPU_COUNT.fetch_add(1)`. -/
def incrCount (percpus : PerCpus) : PerCpus :=
  { percpus with count := (percpus.count + 1) % 2 ^ 64 }

/-- `ICR_FIXED | ICR_DEST_PHYSICAL | ICR_NO_SHORTHAND`. -/
def icrFlags : BitVec 32 := 0b000 <<< 8 ||| 0 <<< 11 ||| 0b00 <<< 18

/-- What `ipi_send` asks the local APIC to send, the destination and the low
word of the command; nothing if the core is not registered. -/
def ipiSend (percpus : PerCpus) (targetCore : ℕ) (vector : BitVec 8) :
    Option (BitVec 32 × BitVec 32) :=
  (percpus.getCpu targetCore).map fun cpu => (cpu.apicId, icrFlags ||| vector.setWidth 32)

theorem getCpu_of_lt {percpus : PerCpus} {index : ℕ} (h : index < maxCpus) :
    percpus.getCpu index = percpus.array index := if_neg (Nat.not_le.mpr h)

theorem isSome_store {percpus : PerCpus} {index : ℕ} (h : (percpus.array index).isSome)
    (cpu : PerCpu) : ((percpus.store cpu).array index).isSome := by
  simp only [store, Function.update_apply]
  split
  · rfl
  · exact h

end PerCpus

namespace Registration

open Machine Handoff

/-! ### The model -/

/-- Where an AP is. -/
inductive ApPc
  | waitForSipi
  /-- In the trampoline, about to signal that it is ready. -/
  | trampoline
  /-- In `ap_entry`, about to enable its APIC. -/
  | enabling
  | registering
  | counting
  /-- About to count itself in `APS_BOOTED`. -/
  | signalling
  | idle
  | panicked
  deriving DecidableEq, Repr

/-- Where the BSP is in `init`. -/
inductive BspPc
  | registering
  | counting
  /-- `set_ap_data` is about to clear `ap_ready` for AP `i`. -/
  | clearing (i : ℕ)
  | starting (i : ℕ)
  | waiting (i : ℕ)
  | returned
  deriving DecidableEq, Repr

structure State (n : ℕ) where
  pc : BspPc
  apReady : Bool
  aps : Fin n → ApPc
  percpus : PerCpus
  /-- `APS_BOOTED`. -/
  apsBooted : BitVec 32
  totalCores : BitVec 32

inductive Label (n : ℕ)
  | bsp
  | ap (i : Fin n)
  deriving DecidableEq, Repr

namespace State

variable {n : ℕ}

def setAp (s : State n) (i : Fin n) (pc : ApPc) : State n :=
  { s with aps := Function.update s.aps i pc }

/-- `num_cores()`. -/
def numCores (s : State n) : ℕ := s.totalCores.toNat

/-- `ap_count()`. -/
def apCount (s : State n) : ℕ := s.apsBooted.toNat

end State

/-- A startup IPI has no effect on an AP that does not wait for one. -/
def ApPc.startup : ApPc → ApPc
  | .waitForSipi => .trampoline
  | pc => pc

/-- Nobody is registered, and the APs wait to be started. -/
def init (n : ℕ) : State n where
  pc := .registering
  apReady := false
  aps _ := .waitForSipi
  percpus := .empty
  apsBooted := 0
  totalCores := 1

section

variable (aps : List MadtLocalApic) (bspApicId : BitVec 32)

/-- Where iteration `i` of the loop of `boot_aps` begins, if there is one. -/
def iterationStart (i : ℕ) : BspPc := if i < aps.length then .clearing i else .returned

/-- The next step of `init`, from the registration of the BSP on. -/
def bspStep (s : State aps.length) : Option (State aps.length) :=
  match s.pc with
  | .registering => some { s with percpus := s.percpus.store ⟨0, bspApicId, true⟩, pc := .counting }
  | .counting => some { s with percpus := s.percpus.incrCount, pc := iterationStart aps 0 }
  | .clearing i => some { s with apReady := false, pc := .starting i }
  | .starting i =>
      if hi : i < aps.length then
        some { s.setAp ⟨i, hi⟩ (s.aps ⟨i, hi⟩).startup with pc := .waiting i }
      else none
  | .waiting i =>
      if s.apReady then
        some { s with totalCores := s.totalCores + 1, pc := iterationStart aps (i + 1) }
      else some s
  | .returned => none

/-- What AP `i` registers. Its APIC reports the id that the MADT has. -/
def apPerCpu (i : Fin aps.length) : PerCpu where
  cpuIndex := BootEnv.cpuIndex i
  apicId := (aps.get i).apicId.setWidth 32
  isBsp := false

/-- The next step of AP `i`. -/
def apStep (s : State aps.length) (i : Fin aps.length) : Option (State aps.length) :=
  match s.aps i with
  | .waitForSipi => none
  | .trampoline => some { s.setAp i .enabling with apReady := true }
  | .enabling => some (s.setAp i .registering)
  | .registering =>
      if (apPerCpu aps i).cpuIndex.toNat < PerCpus.maxCpus then
        some { s.setAp i .counting with percpus := s.percpus.store (apPerCpu aps i) }
      else some (s.setAp i .panicked)
  | .counting => some { s.setAp i .signalling with percpus := s.percpus.incrCount }
  | .signalling => some { s.setAp i .idle with apsBooted := s.apsBooted + 1 }
  | .idle | .panicked => none

def step (s : State aps.length) : Label aps.length → Option (State aps.length)
  | .bsp => bspStep aps bspApicId s
  | .ap i => apStep aps s i

end

/-- Every core that is counted is registered, so that it can be sent an IPI,
and was counted by itself. -/
structure State.Usable {n : ℕ} (s : State n) : Prop where
  registered : ∀ c < s.numCores, (s.percpus.getCpu c).isSome
  ipi : ∀ c < s.numCores, ∀ vector, (s.percpus.ipiSend c vector).isSome
  counted : s.apCount + 1 = s.numCores

/-! ### The invariant -/

/-- The AP has stored its data. -/
def ApPc.Stored : ApPc → Prop
  | .counting | .signalling | .idle => True
  | .waitForSipi | .trampoline | .enabling | .registering | .panicked => False

/-- What the AP has added to `APS_BOOTED`. -/
def ApPc.boots : ApPc → ℕ
  | .idle => 1
  | _ => 0

/-- How many APs the BSP has counted. -/
def BspPc.counted (n : ℕ) : BspPc → ℕ
  | .registering | .counting => 0
  | .clearing i | .starting i | .waiting i => i
  | .returned => n

structure Inv {n : ℕ} (s : State n) : Prop where
  bsp : s.pc ≠ .registering → (s.percpus.array 0).isSome
  stored : ∀ i : Fin n, (s.aps i).Stored →
    (BootEnv.cpuIndex i).toNat < PerCpus.maxCpus ∧
      (s.percpus.array (BootEnv.cpuIndex i).toNat).isSome
  booted : s.apsBooted = BitVec.ofNat 32 (∑ i, (s.aps i).boots)
  loop : s.pc.counted n ≤ n ∧ ∀ i, s.pc = .waiting i → i < n
  total : s.totalCores = BitVec.ofNat 32 (1 + s.pc.counted n)

theorem init_inv (n : ℕ) : Inv (init n) where
  bsp h := absurd rfl h
  stored _ h := h.elim
  booted := by simp [init, ApPc.boots]
  loop := ⟨Nat.zero_le _, nofun⟩
  total := rfl

section

variable {aps : List MadtLocalApic} {bspApicId : BitVec 32}

theorem counted_iterationStart {i : ℕ} (hi : i ≤ aps.length) :
    (iterationStart aps i).counted aps.length = i := by
  unfold iterationStart
  split
  · rfl
  · exact (Nat.le_antisymm hi (by omega)).symm

theorem iterationStart_ne (i j : ℕ) :
    iterationStart aps i ≠ .registering ∧ iterationStart aps i ≠ .waiting j := by
  unfold iterationStart
  split <;> exact ⟨nofun, nofun⟩

/-- The BSP gets to another point with the same number of APs counted. -/
theorem Inv.setPc {n : ℕ} {s : State n} (h : Inv s) {pc : BspPc}
    (hcounted : pc.counted n = s.pc.counted n) (hbsp : s.pc ≠ .registering)
    (hwaiting : ∀ i, pc = .waiting i → i < n) : Inv { s with pc := pc } where
  bsp _ := h.bsp hbsp
  stored := h.stored
  booted := h.booted
  loop := ⟨hcounted.trans_le h.loop.1, hwaiting⟩
  total := hcounted ▸ h.total

/-- An AP gets to another point, with the counter of the booted APs to match. -/
theorem Inv.setAp {n : ℕ} {s : State n} (h : Inv s) {i : Fin n} {pc : ApPc} {booted : BitVec 32}
    (hstored : pc.Stored → (BootEnv.cpuIndex i).toNat < PerCpus.maxCpus ∧
      (s.percpus.array (BootEnv.cpuIndex i).toNat).isSome)
    (hbooted : booted + BitVec.ofNat 32 (s.aps i).boots =
      s.apsBooted + BitVec.ofNat 32 pc.boots) :
    Inv { s.setAp i pc with apsBooted := booted } where
  bsp := h.bsp
  stored j hj := by
    by_cases hij : j = i
    · subst hij
      exact hstored (by simpa [State.setAp] using hj)
    · exact h.stored j (by simpa [State.setAp, hij] using hj)
  booted := by
    have hsum := Accounting.sum_update ApPc.boots s.aps i pc
    rw [h.booted, ← BitVec.ofNat_add, ← hsum, BitVec.ofNat_add] at hbooted
    exact (BitVec.add_left_inj _).mp hbooted
  loop := h.loop
  total := h.total

theorem Inv.bspStep {s s' : State aps.length} (h : Inv s)
    (hstep : bspStep aps bspApicId s = some s') : Inv s' := by
  cases hpc : s.pc with
  | registering =>
      simp only [Registration.bspStep, hpc, Option.some.injEq] at hstep
      subst hstep
      refine ⟨fun _ => by simp [PerCpus.store], fun i hi => ?_, h.booted, ⟨Nat.zero_le _, nofun⟩,
        ?_⟩
      · obtain ⟨hlt, hsome⟩ := h.stored i hi
        exact ⟨hlt, PerCpus.isSome_store hsome _⟩
      · have htotal := h.total
        rwa [hpc] at htotal
  | counting =>
      simp only [Registration.bspStep, hpc, Option.some.injEq] at hstep
      subst hstep
      have hcount : Inv { s with percpus := s.percpus.incrCount } := ⟨h.bsp, h.stored, h.booted,
        h.loop, h.total⟩
      refine hcount.setPc ?_ (by rw [hpc]; nofun)
        fun j hj => absurd hj (iterationStart_ne 0 j).2
      rw [counted_iterationStart (Nat.zero_le _), hpc]
      rfl
  | clearing i =>
      simp only [Registration.bspStep, hpc, Option.some.injEq] at hstep
      subst hstep
      have hcleared : Inv { s with apReady := false } := ⟨h.bsp, h.stored, h.booted, h.loop,
        h.total⟩
      exact hcleared.setPc (by rw [hpc]; rfl) (by rw [hpc]; nofun) nofun
  | starting i =>
      simp only [Registration.bspStep, hpc] at hstep
      split at hstep
      · rename_i hi
        obtain rfl := Option.some.inj hstep
        have hstarted : Inv (s.setAp ⟨i, hi⟩ (s.aps ⟨i, hi⟩).startup) := by
          apply h.setAp
          · intro hstored
            apply h.stored
            cases hap : s.aps ⟨i, hi⟩ <;> rw [hap] at hstored <;> exact hstored
          · cases s.aps ⟨i, hi⟩ <;> rfl
        refine hstarted.setPc (by rw [show (s.setAp _ _).pc = s.pc from rfl, hpc]; rfl)
          (by rw [show (s.setAp _ _).pc = s.pc from rfl, hpc]; nofun) ?_
        rintro j ⟨rfl⟩
        exact hi
      · cases hstep
  | waiting i =>
      simp only [Registration.bspStep, hpc] at hstep
      have hi : i < aps.length := h.loop.2 i hpc
      have htotal := h.total
      rw [hpc] at htotal
      split at hstep <;> obtain rfl := Option.some.inj hstep
      · refine ⟨fun _ => h.bsp (by rw [hpc]; nofun), h.stored, h.booted,
          ⟨?_, fun j hj => absurd hj (iterationStart_ne _ j).2⟩, ?_⟩
        · rw [counted_iterationStart hi]
          exact hi
        · rw [counted_iterationStart hi]
          show s.totalCores + 1 = _
          rw [htotal, Nat.succ_eq_add_one, ← Nat.add_assoc]
          exact (BitVec.ofNat_add ..).symm
      · exact h
  | returned => simp [Registration.bspStep, hpc] at hstep

theorem Inv.apStep {s s' : State aps.length} (h : Inv s) {i : Fin aps.length}
    (hstep : apStep aps s i = some s') : Inv s' := by
  cases hap : s.aps i with
  | waitForSipi | idle | panicked => simp [Registration.apStep, hap] at hstep
  | trampoline =>
      simp only [Registration.apStep, hap, Option.some.injEq] at hstep
      subst hstep
      have hready : Inv { s with apReady := true } := ⟨h.bsp, h.stored, h.booted, h.loop, h.total⟩
      exact hready.setAp False.elim (by rw [show (State.aps _ i) = _ from hap]; rfl)
  | enabling =>
      simp only [Registration.apStep, hap, Option.some.injEq] at hstep
      subst hstep
      exact h.setAp False.elim (by rw [hap]; rfl)
  | registering =>
      simp only [Registration.apStep, hap] at hstep
      split at hstep <;> obtain rfl := Option.some.inj hstep
      · rename_i hlt
        have hstore : Inv { s with percpus := s.percpus.store (apPerCpu aps i) } := by
          refine ⟨fun hpc => PerCpus.isSome_store (h.bsp hpc) _, fun j hj => ?_, h.booted, h.loop,
            h.total⟩
          obtain ⟨hj, hsome⟩ := h.stored j hj
          exact ⟨hj, PerCpus.isSome_store hsome _⟩
        refine hstore.setAp (fun _ => ⟨hlt, ?_⟩) (by rw [show (State.aps _ i) = _ from hap]; rfl)
        simp [PerCpus.store, apPerCpu]
      · exact h.setAp False.elim (by rw [hap]; rfl)
  | counting =>
      simp only [Registration.apStep, hap, Option.some.injEq] at hstep
      subst hstep
      have hcount : Inv { s with percpus := s.percpus.incrCount } := ⟨h.bsp, h.stored, h.booted,
        h.loop, h.total⟩
      exact hcount.setAp (fun _ => h.stored i (by rw [hap]; trivial))
        (by rw [show (State.aps _ i) = _ from hap]; rfl)
  | signalling =>
      simp only [Registration.apStep, hap, Option.some.injEq] at hstep
      subst hstep
      exact h.setAp (fun _ => h.stored i (by rw [hap]; trivial)) (by rw [hap]; simp [ApPc.boots])

theorem inv_of_run {as : List (Label aps.length)} {s : State aps.length}
    (hrun : run (step aps bspApicId) (init aps.length) as = some s) : Inv s := by
  refine run_invariant (fun m l m' hm hstep => ?_) (init_inv _) hrun
  cases l with
  | bsp => exact hm.bspStep hstep
  | ap i => exact hm.apStep hstep

end

/-! ### How far an AP has come -/

/-- How many steps an AP has ahead of it. One whose index is not in the table goes
no further than the check of it. -/
def ApPc.stepsLeft : ApPc → ℕ
  | .waitForSipi | .trampoline => 5
  | .enabling => 4
  | .registering => 3
  | .counting | .panicked => 2
  | .signalling => 1
  | .idle => 0

theorem ApPc.stepsLeft_eq_zero {pc : ApPc} : pc.stepsLeft = 0 ↔ pc = .idle := by
  cases pc <;> decide

section

variable {aps : List MadtLocalApic} {bspApicId : BitVec 32} {s s' : State aps.length}

theorem State.aps_setAp (s : State aps.length) (i j : Fin aps.length) (pc : ApPc) :
    (s.setAp j pc).aps i = if i = j then pc else s.aps i :=
  Function.update_apply ..

/-- The BSP starts APs, but does not get them on. -/
theorem stepsLeft_bspStep (hstep : bspStep aps bspApicId s = some s') (i : Fin aps.length) :
    (s'.aps i).stepsLeft = (s.aps i).stepsLeft := by
  cases hpc : s.pc with
  | registering | counting | clearing =>
      simp only [Registration.bspStep, hpc, Option.some.injEq] at hstep
      subst hstep
      rfl
  | starting j =>
      simp only [Registration.bspStep, hpc] at hstep
      split at hstep
      · rename_i hj
        obtain rfl := Option.some.inj hstep
        show ((s.setAp ⟨j, hj⟩ (s.aps ⟨j, hj⟩).startup).aps i).stepsLeft = _
        rw [State.aps_setAp]
        split
        · rename_i hi
          rw [hi]
          cases s.aps ⟨j, hj⟩ <;> rfl
        · rfl
      · cases hstep
  | waiting =>
      simp only [Registration.bspStep, hpc] at hstep
      split at hstep <;> obtain rfl := Option.some.inj hstep <;> rfl
  | returned => simp [Registration.bspStep, hpc] at hstep

theorem stepsLeft_apStep {j : Fin aps.length} (hstep : apStep aps s j = some s')
    (i : Fin aps.length) :
    (s'.aps i).stepsLeft + (if j = i then 1 else 0) = (s.aps i).stepsLeft := by
  have hset : ∃ pc, s'.aps = (s.setAp j pc).aps ∧ pc.stepsLeft + 1 = (s.aps j).stepsLeft := by
    cases hap : s.aps j with
    | waitForSipi | idle | panicked => simp [Registration.apStep, hap] at hstep
    | trampoline | enabling | counting | signalling =>
        simp only [Registration.apStep, hap, Option.some.injEq] at hstep
        subst hstep
        exact ⟨_, rfl, rfl⟩
    | registering =>
        simp only [Registration.apStep, hap] at hstep
        split at hstep <;> obtain rfl := Option.some.inj hstep <;> exact ⟨_, rfl, rfl⟩
  obtain ⟨pc, haps, hleft⟩ := hset
  rw [haps, State.aps_setAp]
  by_cases hi : i = j
  · rw [if_pos hi, if_pos hi.symm, hi, hleft]
  · rw [if_neg hi, if_neg (Ne.symm hi)]
    rfl

/-- An AP has come as far as it has taken steps. -/
theorem count_of_run {as : List (Label aps.length)}
    (hrun : run (step aps bspApicId) (init aps.length) as = some s) (i : Fin aps.length) :
    (s.aps i).stepsLeft + as.count (.ap i) = 5 := by
  have hstep : ∀ m l m' k, (State.aps m i).stepsLeft = k →
      step aps bspApicId m l = some m' →
        ∃ k', (m'.aps i).stepsLeft = k' ∧ k' + (if l == .ap i then 1 else 0) = k := by
    rintro m l m' k rfl hstep
    refine ⟨_, rfl, ?_⟩
    cases l with
    | bsp => exact stepsLeft_bspStep hstep i
    | ap j =>
        rw [← stepsLeft_apStep hstep i]
        simp only [beq_iff_eq, Label.ap.injEq]
  obtain ⟨_, rfl, hcount⟩ := run_countdown hstep rfl hrun
  exact hcount

end

/-! ### Which cores are usable -/

theorem ApPc.boots_le (pc : ApPc) : pc.boots ≤ 1 := by
  cases pc <;> decide

theorem ApPc.boots_eq_one {pc : ApPc} : pc.boots = 1 ↔ pc = .idle := by
  cases pc <;> decide

/-- As many APs have counted themselves as there are only if all have. -/
theorem sum_boots_eq_iff {n : ℕ} (aps : Fin n → ApPc) :
    ∑ i, (aps i).boots = n ↔ ∀ i, aps i = .idle := by
  have hsum := Finset.sum_eq_sum_iff_of_le (s := Finset.univ) fun i _ => (aps i).boots_le
  simp only [Finset.sum_const, Finset.card_univ, Fintype.card_fin, smul_eq_mul, mul_one,
    Finset.mem_univ, true_implies, ApPc.boots_eq_one] at hsum
  exact hsum

theorem sum_boots_le {n : ℕ} (aps : Fin n → ApPc) : ∑ i, (aps i).boots ≤ n := by
  have hsum := Finset.sum_le_sum (s := Finset.univ) fun i _ => (aps i).boots_le
  simpa using hsum

/-- **Which cores are usable when `init` returns.** For every MADT, all of whose
APs come up in time, and every order of steps: in the state where `init`
returns, every core that it has counted is registered and the two counters
agree exactly if every AP has by then counted itself in `ap_entry`. These are the
interleavings in which each AP takes all of its five steps, from the signal to the
increment, before the BSP takes the last one of `init`. There are no more cores
than `total_cores`, a `u32`, can count. -/
theorem usable_iff_aps_booted (madt : MadtInfo) (bspApicId : BitVec 32)
    (hfew : (madt.enabledAps bspApicId).length + 1 < 2 ^ 32) :
    let aps := madt.enabledAps bspApicId
    ∀ (as : List (Label aps.length)) (s : State aps.length),
      run (step aps bspApicId) (init aps.length) as = some s → s.pc = .returned →
        (s.Usable ↔ ∀ i, s.aps i = .idle) ∧ ∀ i, s.aps i = .idle ↔ as.count (.ap i) = 5 := by
  intro aps as s hrun hreturned
  have hinv := inv_of_run hrun
  have hle : aps.length + 1 < 2 ^ 32 := hfew
  have hsteps : ∀ i, s.aps i = .idle ↔ as.count (.ap i) = 5 := by
    intro i
    rw [← ApPc.stepsLeft_eq_zero, ← count_of_run hrun i]
    omega
  refine ⟨?_, hsteps⟩
  have hsum := sum_boots_le s.aps
  have hcores : s.numCores = aps.length + 1 := by
    have htotal := hinv.total
    rw [hreturned] at htotal
    rw [State.numCores, htotal, BspPc.counted, BitVec.toNat_ofNat, Nat.mod_eq_of_lt (by omega)]
    omega
  have hcount : s.apCount = ∑ i, (s.aps i).boots := by
    rw [State.apCount, hinv.booted, BitVec.toNat_ofNat, Nat.mod_eq_of_lt (by omega)]
  rw [← sum_boots_eq_iff]
  constructor
  · intro husable
    have hcounted := husable.counted
    omega
  · intro hbooted
    have hall := (sum_boots_eq_iff s.aps).mp hbooted
    have hregistered : ∀ c < s.numCores, (s.percpus.getCpu c).isSome := by
      intro c hc
      rw [hcores] at hc
      cases c with
      | zero =>
          rw [PerCpus.getCpu_of_lt (by decide)]
          exact hinv.bsp (by rw [hreturned]; nofun)
      | succ i =>
          have hi : i < aps.length := by omega
          obtain ⟨hlt, hsome⟩ := hinv.stored ⟨i, hi⟩ (by rw [hall]; trivial)
          rw [BootEnv.toNat_cpuIndex (by dsimp only; omega)] at hlt hsome
          rw [PerCpus.getCpu_of_lt hlt]
          exact hsome
    refine ⟨hregistered, fun c hc vector => ?_, by omega⟩
    rw [PerCpus.ipiSend, Option.isSome_map]
    exact hregistered c hc

/-- The BSP and one AP. -/
def twoCores : MadtInfo := ⟨[⟨0, 0, true⟩, ⟨1, 1, true⟩]⟩

/-- The BSP gets through `init` right after the signal of the AP. -/
def earlyReturn : List (Label (twoCores.enabledAps 0).length) :=
  [.bsp, .bsp, .bsp, .bsp, .ap ⟨0, by decide⟩, .bsp]

/-- The AP gets through `ap_entry` before the BSP looks at its signal. -/
def lateReturn : List (Label (twoCores.enabledAps 0).length) :=
  [.bsp, .bsp, .bsp, .bsp] ++ List.replicate 5 (.ap ⟨0, by decide⟩) ++ [.bsp]

theorem usable_when_ap_is_first :
    ∃ s, run (step (twoCores.enabledAps 0) 0) (init (twoCores.enabledAps 0).length) lateReturn =
      some s ∧ s.pc = .returned ∧ s.Usable := by
  obtain ⟨s, hrun, hreturned⟩ : ∃ s, run (step (twoCores.enabledAps 0) 0)
      (init (twoCores.enabledAps 0).length) lateReturn = some s ∧ s.pc = .returned :=
    ⟨_, rfl, rfl⟩
  obtain ⟨husable, hsteps⟩ := usable_iff_aps_booted twoCores 0 (by decide) _ s hrun hreturned
  have hcount : ∀ i : Fin (twoCores.enabledAps 0).length, lateReturn.count (.ap i) = 5 := by
    decide
  exact ⟨s, hrun, hreturned, husable.mpr fun i => (hsteps i).mpr (hcount i)⟩

/-- Core 1 is counted when `init` returns, but is not registered: an IPI to it
would be dropped, and no AP has counted itself. -/
theorem unregistered_core_counted :
    ∃ s, run (step (twoCores.enabledAps 0) 0) (init (twoCores.enabledAps 0).length) earlyReturn =
      some s ∧ s.pc = .returned ∧ 1 < s.numCores ∧ s.percpus.getCpu 1 = none ∧
        s.percpus.ipiSend 1 0xFE = none ∧ s.apCount + 1 ≠ s.numCores ∧ ¬s.Usable := by
  obtain ⟨s, hrun, hreturned, hcores, hnone, hipi, hcount⟩ : ∃ s,
      run (step (twoCores.enabledAps 0) 0) (init (twoCores.enabledAps 0).length) earlyReturn =
        some s ∧ s.pc = .returned ∧ 1 < s.numCores ∧ s.percpus.getCpu 1 = none ∧
          s.percpus.ipiSend 1 0xFE = none ∧ s.apCount + 1 ≠ s.numCores :=
    ⟨_, rfl, rfl, by decide, rfl, rfl, by decide⟩
  exact ⟨s, hrun, hreturned, hcores, hnone, hipi, hcount, fun husable => hcount husable.counted⟩

end Registration

end SmpNostd
