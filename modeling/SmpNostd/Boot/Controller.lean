import Mathlib.Data.Nat.Count
import SmpNostd.Boot.Handoff
import SmpNostd.Scheduler.Scheduler

/-!
The controller (`SmpController` in `driver.rs`): how it numbers the cores.

An AP gets the index of its place in the list of APs, and the controller counts
the APs that came up. The scheduler has as many run queues as were counted, and
`halt_aps` goes through as many indices. Whether an AP comes up in time is not
the controller's to decide; here it is given by `ok`, the result of
`wait_ap_ready` in every iteration.
-/

namespace SmpNostd

open Handoff

/-- The controller without the devices it drives. -/
structure SmpController where
  bspApicId : BitVec 32
  apCount : BitVec 32
  /-- An `AtomicU32`. -/
  totalCores : BitVec 32
  madtInfo : Option MadtInfo
  scheduler : Option (Scheduler Task)
  initialized : Bool

namespace SmpController

/-- The BSP counts as 1. `bspApicId` is what the local APIC reports. -/
def new (bspApicId : BitVec 32) : SmpController where
  bspApicId := bspApicId
  apCount := 0
  totalCores := 1
  madtInfo := none
  scheduler := none
  initialized := false

def numCores (ctrl : SmpController) : ℕ := ctrl.totalCores.toNat

/-- The loop of `boot_aps` from iteration `i` on, as far as it counts. -/
def bootLoop (ok : ℕ → Bool) : ℕ → List MadtLocalApic → BitVec 32 → BitVec 32
  | _, [], totalCores => totalCores
  | i, _ :: aps, totalCores =>
      bootLoop ok (i + 1) aps (if ok i then totalCores + 1 else totalCores)

def bootAps (ctrl : SmpController) (ok : ℕ → Bool) (aps : List MadtLocalApic) :
    SmpController :=
  { ctrl with totalCores := bootLoop ok 0 aps ctrl.totalCores }

/-- Boot the APs of the MADT and set up the scheduler for the cores there are. -/
def init (ctrl : SmpController) (madt : MadtInfo) (ok : ℕ → Bool) : SmpController :=
  let aps := madt.enabledAps ctrl.bspApicId
  let ctrl := { ctrl with apCount := BitVec.ofNat 32 aps.length }.bootAps ok aps
  { ctrl with
    scheduler := some (Scheduler.new ctrl.numCores)
    madtInfo := some madt
    initialized := true }

/-- The indices that the loop of `halt_aps` sends an NMI to. -/
def haltTargets (ctrl : SmpController) : List ℕ := List.range' 1 (ctrl.numCores - 1)

/-- The indices of the cores that run: 0 for the BSP, and the one given to
each AP that came up. -/
def runningCores (aps : List MadtLocalApic) (ok : ℕ → Bool) : Set ℕ :=
  {c | c = 0 ∨ ∃ i < aps.length, ok i ∧ c = (BootEnv.cpuIndex i).toNat}

/-! ### Counting -/

theorem bootLoop_eq (ok : ℕ → Bool) (i : ℕ) (aps : List MadtLocalApic) (totalCores : BitVec 32) :
    bootLoop ok i aps totalCores =
      totalCores + BitVec.ofNat 32 (Nat.count (fun k => ok (i + k)) aps.length) := by
  induction aps generalizing i totalCores with
  | nil => simp [bootLoop]
  | cons ap aps ih =>
      have hshift : (fun k => ok (i + 1 + k) = true) = fun k => ok (i + (k + 1)) = true := by
        funext k
        rw [Nat.add_right_comm, Nat.add_assoc]
      rw [bootLoop, ih, List.length_cons, Nat.count_succ']
      simp only [hshift, Nat.add_zero, BitVec.ofNat_add]
      split <;> simp [BitVec.add_assoc, BitVec.add_comm]

/-- `total_cores`, when so few APs come up that it does not overflow. -/
theorem numCores_init {madt : MadtInfo} {bspApicId : BitVec 32} {ok : ℕ → Bool}
    (hcount : Nat.count (fun i => ok i) (madt.enabledAps bspApicId).length + 1 < 2 ^ 32) :
    ((new bspApicId).init madt ok).numCores =
      1 + Nat.count (fun i => ok i) (madt.enabledAps bspApicId).length := by
  simp only [init, bootAps, new, numCores, bootLoop_eq, Nat.zero_add]
  rw [BitVec.toNat_add, BitVec.toNat_ofNat, Nat.mod_eq_of_lt (a := Nat.count _ _) (by omega)]
  exact Nat.mod_eq_of_lt (by simp; omega)

/-- What the loop of `boot_aps` has counted, in whatever order the processors
took their steps, is what `bootAps` counts for the APs that were found
ready. -/
theorem totalCores_of_run {env : BootEnv} {as : List Label} {s : State}
    (hrun : Machine.run (step env) (Handoff.init env) as = some s) :
    s.totalCores =
      ((new env.bspApicId).bootAps (fun i => decide (i ∈ s.booted)) env.aps).totalCores := by
  have hloop := loop_of_run hrun
  have hmem : ∀ i ∈ s.booted, i < env.aps.length := by
    intro i hi
    have hlt := List.mem_range.mp (hloop.booted.subset hi)
    obtain hbound | hbound := hloop.bound <;> omega
  have hcount : Nat.count (· ∈ s.booted) env.aps.length = s.booted.length := by
    have hfilter : {i ∈ Finset.range env.aps.length | i ∈ s.booted} = s.booted.toFinset := by
      ext i
      simp only [Finset.mem_filter, Finset.mem_range, List.mem_toFinset]
      exact ⟨fun h => h.2, fun h => ⟨hmem i h, h⟩⟩
    rw [Nat.count_eq_card_filter_range, hfilter]
    exact List.toFinset_card_of_nodup (List.nodup_range.sublist hloop.booted)
  simp only [bootAps, new, bootLoop_eq, Nat.zero_add, decide_eq_true_eq, hcount]
  rw [hloop.total, BitVec.ofNat_add]
  rfl

/-! ### Numbering -/

theorem mem_runningCores {aps : List MadtLocalApic} (hfew : aps.length < 2 ^ 32)
    {ok : ℕ → Bool} {c : ℕ} :
    c ∈ runningCores aps ok ↔ c = 0 ∨ ∃ i < aps.length, ok i ∧ c = i + 1 := by
  have hindex : ∀ i < aps.length, (BootEnv.cpuIndex i).toNat = i + 1 :=
    fun i hi => BootEnv.toNat_cpuIndex (by omega)
  constructor
  · rintro (rfl | ⟨i, hi, hok, rfl⟩)
    · exact .inl rfl
    · exact .inr ⟨i, hi, hok, hindex i hi⟩
  · rintro (rfl | ⟨i, hi, hok, rfl⟩)
    · exact .inl rfl
    · exact .inr ⟨i, hi, hok, (hindex i hi).symm⟩

/-- If what holds at a place holds at every earlier one, it holds at as many
places as there are before the first at which it does not. -/
theorem lt_count_iff {p : ℕ → Prop} [DecidablePred p] {n : ℕ}
    (h : ∀ i j, i < j → j < n → p j → p i) {i : ℕ} (hi : i < n) :
    i < Nat.count p n ↔ p i := by
  constructor
  · intro hlt
    have hcount : Nat.count p i < Nat.count p n := lt_of_le_of_lt (Nat.count_le p) hlt
    obtain ⟨j, ⟨hij, hjn⟩, hpj⟩ := Nat.exists_of_count_lt_count hcount
    obtain heq | hlt := Nat.eq_or_lt_of_le hij
    · exact heq ▸ hpj
    · exact h i j hlt hjn hpj
  · intro hpi
    have hall : ∀ j < i + 1, p j := by
      intro j hj
      obtain hlt | rfl := Nat.lt_or_eq_of_le (Nat.le_of_lt_succ hj)
      · exact h j i hlt hi hpi
      · exact hpi
    have hcount : Nat.count p (i + 1) = i + 1 := Nat.count_iff_forall.mpr hall
    have hmono : Nat.count p (i + 1) ≤ Nat.count p n := Nat.count_monotone p hi
    omega

/-- The numbering of the cores is right, that is the indices of the running
cores are those below `num_cores()`, exactly if no AP came up after one that
did not. Then every core is in bounds for the scheduler, every run queue
belongs to a running core, and `halt_aps` reaches every AP. There are no more
cores than an index, which is a `u32`, tells apart. -/
theorem core_numbering_iff (madt : MadtInfo) (bspApicId : BitVec 32) (ok : ℕ → Bool)
    (hfew : (madt.enabledAps bspApicId).length + 1 < 2 ^ 32) :
    let aps := madt.enabledAps bspApicId
    let ctrl := (new bspApicId).init madt ok
    (runningCores aps ok = {c | c < ctrl.numCores} ∧
      ∃ sched, ctrl.scheduler = some sched ∧
        (∀ c ∈ runningCores aps ok, c < sched.runQueues.length) ∧
        (∀ rq ∈ sched.runQueues, rq.coreId ∈ runningCores aps ok) ∧
        (∀ c ∈ runningCores aps ok, c ≠ 0 → c ∈ ctrl.haltTargets)) ↔
      ∀ i j, i < j → j < aps.length → ok j → ok i := by
  intro aps ctrl
  have hle : Nat.count (fun i => ok i) aps.length ≤ aps.length := Nat.count_le _
  have hnum : ctrl.numCores = 1 + Nat.count (fun i => ok i) aps.length :=
    numCores_init (Nat.lt_of_le_of_lt (Nat.succ_le_succ hle) hfew)
  have hmem_iff : ∀ c, c ∈ runningCores aps ok ↔ c = 0 ∨ ∃ i < aps.length, ok i ∧ c = i + 1 :=
    fun c => mem_runningCores (Nat.lt_of_succ_lt hfew)
  constructor
  · rintro ⟨hset, -⟩ i j hij hj hok
    have hmem : j + 1 ∈ runningCores aps ok := (hmem_iff _).mpr (.inr ⟨j, hj, hok, rfl⟩)
    rw [hset, Set.mem_ofPred_eq] at hmem
    have hbelow : i + 1 ∈ runningCores aps ok := by
      rw [hset, Set.mem_ofPred_eq]
      omega
    obtain h | ⟨k, -, hk, heq⟩ := (hmem_iff _).mp hbelow
    · omega
    · obtain rfl : i = k := by omega
      exact hk
  · intro hfirst
    have hset : runningCores aps ok = {c | c < ctrl.numCores} := by
      ext c
      rw [hmem_iff, Set.mem_ofPred_eq, hnum]
      constructor
      · rintro (rfl | ⟨i, hi, hok, rfl⟩)
        · omega
        · have := (lt_count_iff hfirst hi).mpr hok
          omega
      · intro hc
        obtain rfl | ⟨i, rfl⟩ : c = 0 ∨ ∃ i, c = i + 1 := by
          cases c <;> simp
        · exact .inl rfl
        · have hi : i < Nat.count (fun i => ok i) aps.length := by omega
          have hin : i < aps.length := by omega
          exact .inr ⟨i, hin, (lt_count_iff hfirst hin).mp hi, rfl⟩
    refine ⟨hset, Scheduler.new ctrl.numCores, rfl, ?_, ?_, ?_⟩
    · intro c hc
      rw [hset] at hc
      simpa [Scheduler.new] using hc
    · intro rq hrq
      rw [hset]
      simp only [Scheduler.new, List.mem_map, List.mem_range] at hrq
      obtain ⟨i, hi, rfl⟩ := hrq
      exact hi
    · intro c hc hne
      rw [hset, Set.mem_ofPred_eq] at hc
      rw [haltTargets, List.mem_range'_1]
      omega

/-- The last of three APs times out. -/
theorem core_numbering_without_last :
    let madt : MadtInfo := ⟨[⟨0, 0, true⟩, ⟨1, 1, true⟩, ⟨2, 2, true⟩, ⟨3, 3, true⟩]⟩
    let ok : ℕ → Bool := fun i => decide (i < 2)
    let ctrl := (new 0).init madt ok
    ctrl.numCores = 3 ∧ runningCores (madt.enabledAps 0) ok = {c | c < ctrl.numCores} := by
  intro madt ok ctrl
  have hfirst : ∀ i j, i < j → j < (madt.enabledAps 0).length → ok j → ok i := by
    intro i j hij _ hj
    exact decide_eq_true (hij.trans (of_decide_eq_true hj))
  exact ⟨by decide, ((core_numbering_iff madt 0 ok (by decide)).mpr hfirst).1⟩

/-- The first of two APs times out and the second comes up: it runs as core 2,
but there are run queues for cores 0 and 1 only. -/
theorem second_ap_out_of_bounds :
    let madt : MadtInfo := ⟨[⟨0, 0, true⟩, ⟨1, 1, true⟩, ⟨2, 2, true⟩]⟩
    let ok : ℕ → Bool := fun i => i == 1
    let ctrl := (new 0).init madt ok
    2 ∈ runningCores (madt.enabledAps 0) ok ∧ ¬2 < ctrl.numCores ∧
      1 < ctrl.numCores ∧ 1 ∉ runningCores (madt.enabledAps 0) ok ∧
      (∀ sched ∈ ctrl.scheduler, ¬2 < sched.runQueues.length) ∧ 2 ∉ ctrl.haltTargets := by
  intro madt ok ctrl
  refine ⟨.inr ⟨1, by decide, rfl, by decide⟩, by decide, by decide, ?_, by decide, by decide⟩
  rintro (h | ⟨i, hi, hok, h⟩)
  · omega
  · obtain rfl : i = 1 := by simpa [ok] using hok
    exact absurd h (by decide)

end SmpController

end SmpNostd
