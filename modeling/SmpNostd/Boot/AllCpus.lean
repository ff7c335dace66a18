import Mathlib.Data.Finset.Sort
import SmpNostd.Boot.Registration

/-!
Listing the registered cores (`all_cpus` in `percpu.rs`), while others register.

A core stores its data in the array and then adds one to the count. The scan loads
the count first and then reads the array slot by slot, until it has found as many
cores as the count said. Cores that have stored their data since, or had stored it
but not counted themselves, are found as well; each of them takes the place of a
counted one with a higher index.
-/

namespace SmpNostd.AllCpus

open Machine

/-! ### The model -/

/-- What each core registers. The cores have different indices, so a core is the
same as its index; one that is not there takes no step. -/
structure Cores where
  cpu : Fin PerCpus.maxCpus → PerCpu
  index : ∀ i, (cpu i).cpuIndex.toNat = i

/-- Where a core is in `register_percpu`. -/
inductive CorePc
  | storing
  | counting
  | registered
  deriving DecidableEq, Repr

/-- Where the call of `all_cpus` is. -/
inductive ScanPc
  | idle
  | loading
  /-- About to read slot `i`. -/
  | reading (i count : ℕ) (cpus : List PerCpu)
  | returned (cpus : List PerCpu)
  deriving DecidableEq, Repr

structure State where
  cores : Fin PerCpus.maxCpus → CorePc
  percpus : PerCpus
  scan : ScanPc

inductive Label
  | core (i : Fin PerCpus.maxCpus)
  /-- `all_cpus` is called. -/
  | call
  | scan
  deriving DecidableEq, Repr

/-- No core has registered yet. -/
def init : State where
  cores _ := .storing
  percpus := .empty
  scan := .idle

/-- The next step of a core. -/
def coreStep (env : Cores) (s : State) (i : Fin PerCpus.maxCpus) : Option State :=
  match s.cores i with
  | .storing => some { s with
      cores := Function.update s.cores i .counting
      percpus := s.percpus.store (env.cpu i) }
  | .counting => some { s with
      cores := Function.update s.cores i .registered
      percpus := s.percpus.incrCount }
  | .registered => none

/-- What the loop of `all_cpus` makes of slot `i`. -/
def scanSlot (percpus : PerCpus) (i count : ℕ) (cpus : List PerCpu) : ScanPc :=
  if PerCpus.maxCpus ≤ i then .returned cpus
  else
    match percpus.getCpu i with
    | some cpu =>
        if (cpus ++ [cpu]).length = count then .returned (cpus ++ [cpu])
        else .reading (i + 1) count (cpus ++ [cpu])
    | none => .reading (i + 1) count cpus

/-- The next step of the call. -/
def scanStep (s : State) : Option State :=
  match s.scan with
  | .loading => some { s with scan := .reading 0 s.percpus.count [] }
  | .reading i count cpus => some { s with scan := scanSlot s.percpus i count cpus }
  | .idle | .returned _ => none

def step (env : Cores) (s : State) : Label → Option State
  | .core i => coreStep env s i
  | .call => if s.scan = .idle then some { s with scan := .loading } else none
  | .scan => scanStep s

/-- The cores whose `register_percpu` has counted them. -/
def State.registered (s : State) : Finset (Fin PerCpus.maxCpus) :=
  {i | s.cores i = .registered}

/-- How many of the cores found are not among the counted ones. -/
def uncounted (env : Cores) (counted : Finset (Fin PerCpus.maxCpus)) (cpus : List PerCpu) : ℕ :=
  cpus.countP fun cpu => ∀ k ∈ counted, env.cpu k ≠ cpu

/-- Of the cores that are not counted, how many have stored their data in slot `i`. -/
def uncountedAt (counted : Finset (Fin PerCpus.maxCpus)) (s : State) (i : ℕ) : ℕ :=
  Finset.card {j | j.val = i ∧ j ∉ counted ∧ s.cores j ≠ .storing}

/-- The scan is about to read slot `i` and has come by the data of `late` cores
that are not counted. As long as a core that was done before the call is still
ahead of the scan, they stay fewer than the counted cores that are still ahead. -/
def InTime (env : Cores) (done counted : Finset (Fin PerCpus.maxCpus)) :
    ℕ → ℕ → State → List Label → Prop
  | _, _, _, [] => True
  | i, late, s, .scan :: ls =>
      ((∃ r ∈ done, i < r.val) →
        late + uncountedAt counted s i < Finset.card {k ∈ counted | i < k.val}) ∧
      ∀ t, step env s .scan = some t →
        InTime env done counted (i + 1) (late + uncountedAt counted s i) t ls
  | i, late, s, l :: ls => ∀ t, step env s l = some t → InTime env done counted i late t ls

variable {env : Cores} {s t : State} {done counted : Finset (Fin PerCpus.maxCpus)}

/-! ### The cores -/

theorem Cores.cpu_inj (env : Cores) {i j : Fin PerCpus.maxCpus} :
    env.cpu i = env.cpu j ↔ i = j := by
  constructor
  · intro h
    have hindex := congrArg (fun cpu => cpu.cpuIndex.toNat) h
    simp only [env.index] at hindex
    exact Fin.ext hindex
  · rintro rfl
    rfl

structure Inv (env : Cores) (s : State) : Prop where
  slot : ∀ i : Fin PerCpus.maxCpus,
    s.percpus.array i = if s.cores i = .storing then none else some (env.cpu i)
  count : s.percpus.count = s.registered.card

theorem init_inv (env : Cores) : Inv env init where
  slot _ := rfl
  count := by simp [init, PerCpus.empty, State.registered]

theorem registered_counting {i : Fin PerCpus.maxCpus} (h : s.cores i = .storing)
    (percpus : PerCpus) :
    ({ s with cores := Function.update s.cores i .counting, percpus := percpus } :
      State).registered = s.registered := by
  ext j
  simp only [State.registered, Finset.mem_filter, Finset.mem_univ, true_and]
  by_cases hj : j = i
  · subst hj
    simp [h]
  · simp [hj]

theorem registered_insert (s : State) (i : Fin PerCpus.maxCpus) (percpus : PerCpus) :
    ({ s with cores := Function.update s.cores i .registered, percpus := percpus } :
      State).registered = insert i s.registered := by
  ext j
  simp only [State.registered, Finset.mem_filter, Finset.mem_univ, true_and, Finset.mem_insert]
  by_cases hj : j = i
  · subst hj
    simp
  · simp [hj]

theorem incrCount_count {percpus : PerCpus} (h : percpus.count + 1 < 2 ^ 64) :
    percpus.incrCount.count = percpus.count + 1 :=
  Nat.mod_eq_of_lt h

theorem Inv.coreStep (h : Inv env s) {i : Fin PerCpus.maxCpus}
    (hstep : coreStep env s i = some t) :
    Inv env t ∧ s.registered ⊆ t.registered ∧ t.scan = s.scan := by
  cases hcore : s.cores i with
  | registered => simp [AllCpus.coreStep, hcore] at hstep
  | storing =>
      simp only [AllCpus.coreStep, hcore, Option.some.injEq] at hstep
      subst hstep
      have hregistered := registered_counting hcore (s.percpus.store (env.cpu i))
      refine ⟨⟨fun j => ?_, ?_⟩, hregistered.ge, rfl⟩
      · by_cases hj : j = i
        · subst hj
          simp [PerCpus.store, env.index]
        · have hne : j.val ≠ i.val := fun h => hj (Fin.ext h)
          simpa [PerCpus.store, env.index, hne, hj] using h.slot j
      · rw [hregistered]
        exact h.count
  | counting =>
      simp only [AllCpus.coreStep, hcore, Option.some.injEq] at hstep
      subst hstep
      have hregistered := registered_insert s i s.percpus.incrCount
      have hnew : i ∉ s.registered := by simp [State.registered, hcore]
      refine ⟨⟨fun j => ?_, ?_⟩, hregistered.ge.trans' (Finset.subset_insert i _), rfl⟩
      · by_cases hj : j = i
        · subst hj
          simpa [PerCpus.incrCount, hcore] using h.slot j
        · simpa [PerCpus.incrCount, hj] using h.slot j
      · have hle : s.registered.card ≤ 256 :=
          (Finset.card_le_univ s.registered).trans_eq (Fintype.card_fin _)
        rw [hregistered, Finset.card_insert_of_notMem hnew, incrCount_count, h.count]
        rw [h.count]
        omega

theorem Inv.step {l : Label} (h : Inv env s) (hstep : step env s l = some t) :
    Inv env t ∧ s.registered ⊆ t.registered := by
  cases l with
  | core i =>
      obtain ⟨hinv, hsub, -⟩ := h.coreStep hstep
      exact ⟨hinv, hsub⟩
  | call =>
      simp only [AllCpus.step] at hstep
      split at hstep <;> cases hstep
      exact ⟨⟨h.slot, h.count⟩, subset_rfl⟩
  | scan =>
      cases hscan : s.scan <;> simp only [AllCpus.step, scanStep, hscan] at hstep
      case idle | returned => cases hstep
      case loading | reading =>
        obtain rfl := Option.some.inj hstep
        exact ⟨⟨h.slot, h.count⟩, subset_rfl⟩

/-! ### The scan -/

/-- The cores found below slot `i`, in order: all counted ones are among them. -/
def FoundBelow (env : Cores) (counted : Finset (Fin PerCpus.maxCpus)) (i : ℕ)
    (cpus : List PerCpu) : Prop :=
  ∃ found : List (Fin PerCpus.maxCpus), cpus = found.map env.cpu ∧ found.Pairwise (· < ·) ∧
    (∀ j ∈ found, j.val < i) ∧ ∀ k ∈ counted, k.val < i → k ∈ found

/-- The list has no core twice, and its indices increase. -/
def Increasing (cpus : List PerCpu) : Prop :=
  cpus.Pairwise fun a b => a.cpuIndex.toNat < b.cpuIndex.toNat

/-- Every core that was done before the call is in the list. -/
def Complete (env : Cores) (done : Finset (Fin PerCpus.maxCpus)) (cpus : List PerCpu) : Prop :=
  ∀ r ∈ done, env.cpu r ∈ cpus

variable {i : ℕ} {cpus : List PerCpu}

theorem FoundBelow.increasing (h : FoundBelow env counted i cpus) : Increasing cpus := by
  obtain ⟨found, rfl, hsorted, -, -⟩ := h
  refine List.pairwise_map.mpr (hsorted.imp fun {j k} hlt => ?_)
  rw [env.index, env.index]
  exact hlt

theorem FoundBelow.mem_iff (h : FoundBelow env counted i cpus) {k : Fin PerCpus.maxCpus}
    (hk : k ∈ counted) : env.cpu k ∈ cpus ↔ k.val < i := by
  obtain ⟨found, rfl, -, hbelow, hall⟩ := h
  constructor
  · intro hmem
    obtain ⟨j, hj, heq⟩ := List.mem_map.mp hmem
    rw [env.cpu_inj] at heq
    exact heq ▸ hbelow j hj
  · intro hlt
    exact List.mem_map_of_mem (hall k hk hlt)

theorem FoundBelow.skip {k : Fin PerCpus.maxCpus} (h : FoundBelow env counted k cpus)
    (hk : k ∉ counted) : FoundBelow env counted (k + 1) cpus := by
  obtain ⟨found, rfl, hsorted, hbelow, hall⟩ := h
  refine ⟨found, rfl, hsorted, fun j hj => Nat.lt_succ_of_lt (hbelow j hj), fun j hj hlt => ?_⟩
  obtain hless | heq := Nat.lt_succ_iff_lt_or_eq.mp hlt
  · exact hall j hj hless
  · exact absurd (Fin.ext heq ▸ hj) hk

theorem FoundBelow.snoc {k : Fin PerCpus.maxCpus} (h : FoundBelow env counted k cpus) :
    FoundBelow env counted (k + 1) (cpus ++ [env.cpu k]) := by
  obtain ⟨found, rfl, hsorted, hbelow, hall⟩ := h
  refine ⟨found ++ [k], by simp, ?_, fun j hj => ?_, fun j hj hlt => ?_⟩
  · refine List.pairwise_append.mpr ⟨hsorted, List.pairwise_singleton _ _, fun j hj l hl => ?_⟩
    obtain rfl := List.mem_singleton.mp hl
    exact hbelow j hj
  · rcases List.mem_append.mp hj with hj | hj
    · exact Nat.lt_succ_of_lt (hbelow j hj)
    · obtain rfl := List.mem_singleton.mp hj
      exact Nat.lt_succ_self _
  · obtain hless | heq := Nat.lt_succ_iff_lt_or_eq.mp hlt
    · exact List.mem_append_left _ (hall j hj hless)
    · simp [Fin.ext heq]

/-- The cores found are the counted ones below `i`, and others. -/
theorem FoundBelow.length_eq (h : FoundBelow env counted i cpus) :
    cpus.length = {k ∈ counted | k.val < i}.card + uncounted env counted cpus := by
  obtain ⟨found, rfl, hsorted, hbelow, hall⟩ := h
  have hcounted : found.countP (· ∈ counted) = {k ∈ counted | k.val < i}.card := by
    have hset : (found.filter (· ∈ counted)).toFinset = {k ∈ counted | k.val < i} := by
      ext k
      simp only [List.mem_toFinset, List.mem_filter, decide_eq_true_eq, Finset.mem_filter]
      exact ⟨fun hk => ⟨hk.2, hbelow k hk.1⟩, fun hk => ⟨hall k hk.1 hk.2, hk.1⟩⟩
    have hnodup : (found.filter (· ∈ counted)).Nodup :=
      (hsorted.imp fun {j k} hlt => hlt.ne).filter _
    rw [List.countP_eq_length_filter, ← hset, List.toFinset_card_of_nodup hnodup]
  have hothers : uncounted env counted (found.map env.cpu) = found.countP (· ∉ counted) := by
    rw [uncounted, List.countP_map]
    refine List.countP_congr fun j _ => ?_
    simp only [Function.comp_apply, decide_eq_true_eq]
    constructor
    · intro hne hj
      exact hne j hj rfl
    · rintro hj k hk heq
      rw [env.cpu_inj] at heq
      exact hj (heq ▸ hk)
  rw [List.length_map, hothers, ← hcounted,
    List.length_eq_countP_add_countP (fun k => decide (k ∈ counted))]
  simp

theorem FoundBelow.complete_iff (h : FoundBelow env counted i cpus) (hdone : done ⊆ counted) :
    Complete env done cpus ↔ ¬∃ r ∈ done, i ≤ r.val := by
  push Not
  constructor
  · exact fun hall r hr => (h.mem_iff (hdone hr)).mp (hall r hr)
  · exact fun hbelow r hr => (h.mem_iff (hdone hr)).mpr (hbelow r hr)

theorem uncounted_snoc (k : Fin PerCpus.maxCpus) (cpus : List PerCpu) :
    uncounted env counted (cpus ++ [env.cpu k]) =
      uncounted env counted cpus + if k ∈ counted then 0 else 1 := by
  have hk : (∀ j ∈ counted, env.cpu j ≠ env.cpu k) ↔ k ∉ counted := by
    simp only [ne_eq, env.cpu_inj]
    exact ⟨fun hne hmem => hne k hmem rfl, fun hk j hj heq => hk (heq ▸ hj)⟩
  rw [uncounted, List.countP_append, List.countP_singleton]
  simp only [decide_eq_true_eq, hk, ite_not]
  rfl

theorem uncountedAt_eq (counted : Finset (Fin PerCpus.maxCpus)) (s : State)
    (k : Fin PerCpus.maxCpus) :
    uncountedAt counted s k = if k ∈ counted ∨ s.cores k = .storing then 0 else 1 := by
  split
  case isTrue h =>
    refine Finset.card_eq_zero.mpr (Finset.filter_eq_empty_iff.mpr ?_)
    rintro j - ⟨hj, hcounted, hstored⟩
    obtain rfl := Fin.ext hj
    exact h.elim hcounted hstored
  case isFalse h =>
    rw [not_or] at h
    refine Finset.card_eq_one.mpr ⟨k, ?_⟩
    ext j
    simp only [Finset.mem_filter, Finset.mem_univ, true_and, Finset.mem_singleton]
    constructor
    · exact fun hj => Fin.ext hj.1
    · rintro rfl
      exact ⟨rfl, h⟩

/-- The scan is about to read slot `i`, and has not found as many cores as the
count said. -/
structure Scanning (env : Cores) (counted : Finset (Fin PerCpus.maxCpus)) (i late : ℕ)
    (s : State) : Prop where
  exists_found : ∃ cpus, s.scan = .reading i counted.card cpus ∧ FoundBelow env counted i cpus ∧
    uncounted env counted cpus = late ∧ (counted.Nonempty → cpus.length < counted.card)
  counted_sub : counted ⊆ s.registered

variable {late : ℕ}

theorem card_split (counted : Finset (Fin PerCpus.maxCpus)) (i : ℕ) :
    Finset.card {k ∈ counted | k.val < i + 1} + Finset.card {k ∈ counted | i < k.val} =
      counted.card := by
  have hsplit := Finset.card_filter_add_card_filter_not (s := counted) (fun k => k.val < i + 1)
  simpa only [Nat.not_lt, Nat.succ_le_iff] using hsplit

/-- The scan has come by fewer cores that are not counted than counted ones are
still ahead. -/
theorem Scanning.inTime (h : Scanning env counted (i + 1) late s) (hdone : done ⊆ counted) :
    (∃ r ∈ done, i < r.val) → late < Finset.card {k ∈ counted | i < k.val} := by
  obtain ⟨cpus, -, hfound, rfl, hshort⟩ := h.exists_found
  rintro ⟨r, hr, -⟩
  have hlength := hshort ⟨r, hdone hr⟩
  have hsplit := card_split counted i
  rw [hfound.length_eq] at hlength
  omega

theorem Scanning.coreStep {k : Fin PerCpus.maxCpus} (h : Scanning env counted i late s)
    (hinv : Inv env s) (hstep : coreStep env s k = some t) : Scanning env counted i late t := by
  obtain ⟨-, hsub, hscan⟩ := hinv.coreStep hstep
  exact ⟨by rw [hscan]; exact h.exists_found, h.counted_sub.trans hsub⟩

/-- What one step of the scan does: it goes on to the next slot, or it returns
with a complete list unless counted cores are cut off. -/
theorem Scanning.scan (h : Scanning env counted i late s) (hinv : Inv env s)
    (hdone : done ⊆ counted) (hstep : step env s .scan = some t) :
    Scanning env counted (i + 1) (late + uncountedAt counted s i) t ∨
      ∃ cpus, t.scan = .returned cpus ∧ Increasing cpus ∧
        (Complete env done cpus ↔ ((∃ r ∈ done, i < r.val) →
          late + uncountedAt counted s i < Finset.card {k ∈ counted | i < k.val})) := by
  obtain ⟨cpus, hscan, hfound, rfl, hshort⟩ := h.exists_found
  simp only [AllCpus.step, scanStep, hscan, Option.some.injEq] at hstep
  subst hstep
  by_cases hend : PerCpus.maxCpus ≤ i
  · have hpast : ∀ r : Fin PerCpus.maxCpus, r.val < i := fun r => r.isLt.trans_le hend
    refine .inr ⟨cpus, if_pos hend, hfound.increasing, ?_⟩
    rw [hfound.complete_iff hdone]
    refine iff_of_true ?_ ?_
    · rintro ⟨r, -, hle⟩
      exact (hpast r).not_ge hle
    · rintro ⟨r, -, hlt⟩
      exact absurd hlt (hpast r).not_gt
  · obtain ⟨k, rfl⟩ : ∃ k : Fin PerCpus.maxCpus, k.val = i := ⟨⟨i, Nat.not_le.mp hend⟩, rfl⟩
    have hslot := (PerCpus.getCpu_of_lt k.isLt).trans (hinv.slot k)
    by_cases hcore : s.cores k = .storing
    · have hk : k ∉ counted := fun hmem => by
        have hregistered := h.counted_sub hmem
        simp [State.registered, hcore] at hregistered
      have hlate : uncountedAt counted s k = 0 := by simp [uncountedAt_eq, hcore]
      refine .inl ⟨⟨cpus, ?_, hfound.skip hk, by rw [hlate, Nat.add_zero], hshort⟩,
        h.counted_sub⟩
      simp [scanSlot, hslot, hcore, hend]
    · have hlate : uncounted env counted (cpus ++ [env.cpu k]) =
          uncounted env counted cpus + uncountedAt counted s k := by
        rw [uncounted_snoc, uncountedAt_eq]
        simp [hcore]
      rw [← hlate]
      by_cases hbreak : (cpus ++ [env.cpu k]).length = counted.card
      · -- the early exit, taken when the uncounted cores have made up for the rest
        refine .inr ⟨cpus ++ [env.cpu k], ?_, hfound.snoc.increasing, ?_⟩
        · simp only [scanSlot, hslot, hcore, if_neg hend, if_false, if_pos hbreak]
        have hfull := hfound.snoc.length_eq
        have hsplit := card_split counted k
        rw [hfound.snoc.complete_iff hdone]
        constructor
        · exact fun hnone hahead => absurd hahead hnone
        · intro hless hahead
          have hlt := hless hahead
          omega
      · refine .inl ⟨⟨cpus ++ [env.cpu k], ?_, hfound.snoc, rfl, fun hne => ?_⟩, h.counted_sub⟩
        · simp only [scanSlot, hslot, hcore, if_neg hend, if_false, if_neg hbreak]
        have hlength := hshort hne
        rw [List.length_append, List.length_singleton] at hbreak ⊢
        omega

theorem returned_step {l : Label} (hinv : Inv env s) (hscan : s.scan = .returned cpus)
    (hstep : step env s l = some t) : l ≠ .scan ∧ t.scan = .returned cpus := by
  cases l with
  | core k => exact ⟨nofun, (hinv.coreStep hstep).2.2.trans hscan⟩
  | call => simp [step, hscan] at hstep
  | scan => simp [step, scanStep, hscan] at hstep

theorem returned_run {ls : List Label} (hinv : Inv env s) (hscan : s.scan = .returned cpus)
    (hrun : run (step env) s ls = some t) :
    t.scan = .returned cpus ∧ InTime env done counted i late s ls := by
  induction ls generalizing s with
  | nil =>
      obtain rfl := Option.some.inj hrun
      exact ⟨hscan, trivial⟩
  | cons l ls ih =>
      obtain ⟨m, hm, hrest⟩ := run_cons_eq_some.mp hrun
      obtain ⟨hne, hscan'⟩ := returned_step hinv hscan hm
      obtain ⟨hret, htime⟩ := ih (hinv.step hm).1 hscan' hrest
      refine ⟨hret, ?_⟩
      cases l with
      | scan => exact absurd rfl hne
      | core | call =>
        intro t ht
        obtain rfl := Option.some.inj (hm.symm.trans ht)
        exact htime

theorem inTime_cons {l : Label} {ls : List Label} (hstep : step env s l = some t) (hl : l ≠ .scan) :
    InTime env done counted i late s (l :: ls) ↔ InTime env done counted i late t ls := by
  cases l with
  | scan => exact absurd rfl hl
  | core | call =>
      exact ⟨fun h => h t hstep, fun h _ hu => Option.some.inj (hstep.symm.trans hu) ▸ h⟩

theorem inTime_scan {ls : List Label} (hstep : step env s .scan = some t) :
    InTime env done counted i late s (.scan :: ls) ↔
      ((∃ r ∈ done, i < r.val) →
        late + uncountedAt counted s i < Finset.card {k ∈ counted | i < k.val}) ∧
      InTime env done counted (i + 1) (late + uncountedAt counted s i) t ls :=
  and_congr_right fun _ =>
    ⟨fun h => h t hstep, fun h _ hu => Option.some.inj (hstep.symm.trans hu) ▸ h⟩

theorem Scanning.run {ls : List Label} (h : Scanning env counted i late s) (hinv : Inv env s)
    (hdone : done ⊆ counted) (hrun : run (step env) s ls = some t)
    (hret : t.scan = .returned cpus) :
    Increasing cpus ∧ (Complete env done cpus ↔ InTime env done counted i late s ls) := by
  induction ls generalizing s i late with
  | nil =>
      obtain rfl := Option.some.inj hrun
      obtain ⟨cpus', hscan, -⟩ := h.exists_found
      rw [hscan] at hret
      nomatch hret
  | cons l ls ih =>
      obtain ⟨m, hm, hrest⟩ := run_cons_eq_some.mp hrun
      have hinv' := (hinv.step hm).1
      cases l with
      | core k =>
          rw [inTime_cons hm nofun]
          exact ih (h.coreStep hinv hm) hinv' hrest
      | call =>
          obtain ⟨cpus', hscan, -⟩ := h.exists_found
          simp [step, hscan] at hm
      | scan =>
          rw [inTime_scan hm]
          obtain hnext | ⟨out, hout, hincreasing, hcomplete⟩ := h.scan hinv hdone hm
          · obtain ⟨hincreasing, hcomplete⟩ := ih hnext hinv' hrest
            refine ⟨hincreasing, hcomplete.trans ?_⟩
            rw [and_iff_right (hnext.inTime hdone)]
          · obtain ⟨hout', htime⟩ := returned_run hinv' hout hrest
            obtain rfl := ScanPc.returned.inj (hout'.symm.trans hret)
            exact ⟨hincreasing, hcomplete.trans (and_iff_left htime).symm⟩

theorem Inv.run {ls : List Label} (h : Inv env s) (hrun : run (AllCpus.step env) s ls = some t) :
    Inv env t ∧ s.registered ⊆ t.registered := by
  induction ls generalizing s with
  | nil =>
      obtain rfl := Option.some.inj hrun
      exact ⟨h, subset_rfl⟩
  | cons l ls ih =>
      obtain ⟨m, hm, hrest⟩ := run_cons_eq_some.mp hrun
      obtain ⟨hinv, hsub⟩ := h.step hm
      obtain ⟨hinv', hsub'⟩ := ih hinv hrest
      exact ⟨hinv', hsub.trans hsub'⟩

/-! ### Which cores are listed -/

/-- `all_cpus` lists nobody twice and in the order of the indices. It lists every
core that was done before the call exactly if, while one of these is ahead of the
scan, the cores that it has come by without their being counted are fewer than the
counted ones ahead. -/
theorem all_cpus_complete_iff {before during after : List Label} {s₀ m m₁ : State}
    (hbefore : run (step env) init before = some s₀)
    (hcall : run (step env) s₀ (.call :: during) = some m) (hloading : m.scan = .loading)
    (hload : step env m .scan = some m₁) (hafter : run (step env) m₁ after = some s)
    (hret : s.scan = .returned cpus) :
    Increasing cpus ∧
      (Complete env s₀.registered cpus ↔
        InTime env s₀.registered m.registered 0 0 m₁ after) := by
  obtain ⟨hinv₀, -⟩ := (init_inv env).run hbefore
  obtain ⟨hinv, hdone⟩ := hinv₀.run hcall
  obtain ⟨hinv₁, hsub⟩ := hinv.step hload
  have hscan : m₁.scan = .reading 0 m.registered.card [] := by
    simp only [step, scanStep, hloading, Option.some.injEq] at hload
    rw [← hload, ← hinv.count]
  have hnone : FoundBelow env m.registered 0 [] := ⟨[], rfl, .nil, nofun, nofun⟩
  have hstart : Scanning env m.registered 0 0 m₁ :=
    ⟨⟨[], hscan, hnone, rfl, fun hne => hne.card_pos⟩, hsub⟩
  exact hstart.run hinv₁ hdone hafter hret

/-- Core `i` has the local APIC id `i`. -/
def sameIds : Cores where
  cpu i := ⟨BitVec.ofNat 32 i, BitVec.ofNat 32 i, i.val = 0⟩
  index i := Nat.mod_eq_of_lt (i.isLt.trans (by decide))

def reached (ls : List Label) : State := (run (step sameIds) init ls).getD init

/-- Core `i` registers without a break. -/
def registers (i : Fin PerCpus.maxCpus) : List Label := [.core i, .core i]

def core0 : Fin PerCpus.maxCpus := ⟨0, by decide⟩
def core1 : Fin PerCpus.maxCpus := ⟨1, by decide⟩
def core2 : Fin PerCpus.maxCpus := ⟨2, by decide⟩
def core3 : Fin PerCpus.maxCpus := ⟨3, by decide⟩

/-- Cores 0 and 2 are done before the call, core 3 before the count is loaded, and
core 1 registers during the scan. -/
def beforeCall : List Label := registers core0 ++ registers core2

def beforeLoad : List Label := beforeCall ++ .call :: registers core3

def scanning (ls : List Label) : State := reached (beforeLoad ++ .scan :: ls)

/-- The scan comes by core 1, which is not counted, and stops before core 3; cores 0
and 2 are listed. -/
theorem all_cpus_complete_iff_overtaken :
    let cpus := [core0, core1, core2].map sameIds.cpu
    (scanning [.core core1, .scan, .scan, .core core1, .scan]).scan = .returned cpus ∧
      Increasing cpus ∧ Complete sameIds (reached beforeCall).registered cpus := by
  intro cpus
  have hbefore : run (step sameIds) init beforeCall = some (reached beforeCall) := rfl
  have hcall : run (step sameIds) (reached beforeCall) (.call :: registers core3) =
      some (reached beforeLoad) := rfl
  have hload : step sameIds (reached beforeLoad) .scan = some (scanning []) := rfl
  have h₁ : step sameIds (scanning []) (.core core1) = some (scanning [.core core1]) := rfl
  have h₂ : step sameIds (scanning [.core core1]) .scan =
      some (scanning [.core core1, .scan]) := rfl
  have h₃ : step sameIds (scanning [.core core1, .scan]) .scan =
      some (scanning [.core core1, .scan, .scan]) := rfl
  have h₄ : step sameIds (scanning [.core core1, .scan, .scan]) (.core core1) =
      some (scanning [.core core1, .scan, .scan, .core core1]) := rfl
  have h₅ : step sameIds (scanning [.core core1, .scan, .scan, .core core1]) .scan =
      some (scanning [.core core1, .scan, .scan, .core core1, .scan]) := rfl
  have hafter : run (step sameIds) (scanning [])
      [.core core1, .scan, .scan, .core core1, .scan] =
        some (scanning [.core core1, .scan, .scan, .core core1, .scan]) := rfl
  obtain ⟨hincreasing, hcomplete⟩ := all_cpus_complete_iff hbefore hcall rfl hload hafter rfl
  have hlast : ¬∃ r ∈ (reached beforeCall).registered, 2 < r.val := by
    decide +kernel
  have htime : InTime sameIds (reached beforeCall).registered (reached beforeLoad).registered 0 0
      (scanning []) [.core core1, .scan, .scan, .core core1, .scan] := by
    refine (inTime_cons h₁ nofun).mpr ((inTime_scan h₂).mpr ⟨fun _ => by decide +kernel, ?_⟩)
    -- core 1 has not been counted, but two counted cores are still ahead
    refine (inTime_scan h₃).mpr ⟨fun _ => by decide +kernel, ?_⟩
    refine (inTime_cons h₄ nofun).mpr ((inTime_scan h₅).mpr ⟨fun hleft => ?_, trivial⟩)
    exact absurd hleft hlast
  exact ⟨rfl, hincreasing, hcomplete.mpr htime⟩

/-- Cores 0 and 2 are done when the call loads the count, then core 1 stores its
data: the scan finds cores 0 and 1 and stops. -/
theorem core_2_not_listed :
    let before := registers core0 ++ registers core2
    let ls := before ++ [.call, .scan, .core core1, .scan, .scan]
    run (step sameIds) init ls = some (reached ls) ∧
      (reached ls).scan = .returned [sameIds.cpu core0, sameIds.cpu core1] ∧
      ¬Complete sameIds (reached before).registered [sameIds.cpu core0, sameIds.cpu core1] := by
  refine ⟨rfl, rfl, fun hall => ?_⟩
  have hmem := hall core2 (Finset.mem_filter.mpr ⟨Finset.mem_univ _, rfl⟩)
  exact absurd hmem (by decide)

end SmpNostd.AllCpus
