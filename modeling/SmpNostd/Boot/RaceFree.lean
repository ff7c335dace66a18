import Mathlib.Data.List.Infix
import SmpNostd.Boot.Handoff
import SmpNostd.Lib.Bits

/-!
When the hand-off to the APs is free of races.

The BSP goes on as soon as `ap_ready` is set, and an AP sets it before it has
loaded its index and entry point; after a timeout the BSP goes on although the
AP may still come. So nothing in the code keeps it from overwriting a field
that an AP has yet to read. What is proved is that this, and clearing
`ap_ready` under an AP that has yet to set it, is all that can go wrong.
-/

namespace SmpNostd.Handoff

open Machine

/-! ### Registers and the trampoline -/

theorem Regs.get_load_self (regs : Regs) (f : Field) (v : BitVec f.width) :
    (regs.load f v).get f = f.extend v := by
  cases f <;> rfl

theorem Regs.get_load_of_ne (regs : Regs) {f g : Field} (h : g ≠ f) (v : BitVec f.width) :
    (regs.load f v).get g = regs.get g := by
  cases f <;> cases g <;> first | rfl | exact absurd rfl h

theorem eq_nil_of_call {rest : List Instr} (h : .call :: rest <:+ trampoline) : rest = [] := by
  have hmem := (List.mem_tails _ _).mpr h
  simpa [trampoline] using hmem

theorem signalReady_notMem {rest : List Instr} (h : .signalReady :: rest <:+ trampoline) :
    .signalReady ∉ rest := by
  have hnodup : trampoline.Nodup := by decide
  exact (List.nodup_cons.mp (hnodup.sublist h.sublist)).1

/-! ### When the mailbox is not overwritten too early -/

section

variable (env : BootEnv)

/-- The BSP does not change a field that an AP started in an earlier iteration
still has to load, and does not clear `ap_ready` while such an AP still has to
set it. -/
def BspPc.WriteSafe (s : State) : BspPc → Prop
  | .write f => ∀ i < s.iteration, .load f ∈ (s.aps i).ahead →
      env.value i f = env.value s.iteration f
  | .clearReady => ∀ i < s.iteration, .signalReady ∉ (s.aps i).ahead
  | .sendInit | .sendStartup | .checkReady | .sendSecondStartup | .waitReady _ | .done => True

instance (s : State) : ∀ pc : BspPc, Decidable (pc.WriteSafe env s)
  | .write f => inferInstanceAs (Decidable (∀ i < s.iteration, .load f ∈ (s.aps i).ahead →
      env.value i f = env.value s.iteration f))
  | .clearReady =>
      inferInstanceAs (Decidable (∀ i < s.iteration, .signalReady ∉ (s.aps i).ahead))
  | .sendInit | .sendStartup | .checkReady | .sendSecondStartup | .waitReady _ | .done =>
      isTrue trivial

/-- The step is not a write of the BSP that comes too early. -/
def WriteSafe (s : State) : Label → Prop
  | .bsp => s.pc.WriteSafe env s
  | .ap _ => True

instance (s : State) : ∀ l : Label, Decidable (WriteSafe env s l)
  | .bsp => inferInstanceAs (Decidable (s.pc.WriteSafe env s))
  | .ap _ => isTrue trivial

/-- The order of the steps of one iteration. -/
def BspPc.rank : BspPc → ℕ
  | .write .pml4Addr | .done => 0
  | .write .stackTop => 1
  | .write .entryPoint => 2
  | .write .cpuIndex => 3
  | .clearReady => 4
  | .sendInit => 5
  | .sendStartup => 6
  | .checkReady => 7
  | .sendSecondStartup => 8
  | .waitReady _ => 9

/-- The AP of iteration `i` has loaded what was written for it, and will find
it in the mailbox where it has not. -/
def Ap.OnTrack (m : Mailbox) (i : ℕ) : Ap → Prop
  | .waitForSipi => True
  | .running regs rest => rest <:+ trampoline ∧
      ∀ f, (.load f ∈ rest → m.data f = env.value i f) ∧
        (.load f ∉ rest → regs.get f = f.extend (env.value i f))
  | .entered regs => ∀ f, regs.get f = f.extend (env.value i f)

structure Inv (s : State) : Prop where
  /-- What the BSP has written in this iteration is in the mailbox. -/
  written : ∀ f, (BspPc.write f).rank < s.pc.rank → s.mailbox.data f = env.value s.iteration f
  /-- Only APs that were sent a startup IPI have left the waiting state. -/
  started : ∀ i, s.aps i ≠ .waitForSipi →
    i < s.iteration ∨ i = s.iteration ∧ BspPc.sendStartup.rank < s.pc.rank
  aps : ∀ i, (s.aps i).OnTrack env s.mailbox i
  /-- Once `ap_ready` is cleared, no earlier AP will set it again. -/
  cleared : BspPc.clearReady.rank < s.pc.rank →
    ∀ i < s.iteration, .signalReady ∉ (s.aps i).ahead
  ready : BspPc.clearReady.rank < s.pc.rank → s.mailbox.apReady ≠ 0 →
    (s.aps s.iteration).Signalled
  booted : ∀ i ∈ s.booted, i < s.iteration ∧ (s.aps i).Signalled

theorem rank_iterationStart (i : ℕ) : (iterationStart env i).rank = 0 := by
  unfold iterationStart
  split <;> rfl

theorem init_inv : Inv env (init env) where
  written f h := by simp [init, rank_iterationStart] at h
  started i h := absurd rfl h
  aps i := trivial
  cleared h := by simp [init, rank_iterationStart] at h
  ready h := by simp [init, rank_iterationStart] at h
  booted i h := by simp [init] at h

variable {env}

theorem Inv.nextIteration {s : State} (h : Inv env s) : Inv env (s.nextIteration env) where
  written f hf := by simp [State.nextIteration, rank_iterationStart] at hf
  started i hi := by
    show i < s.iteration + 1 ∨ _
    have := h.started i hi
    omega
  aps := h.aps
  cleared hpc := by simp [State.nextIteration, rank_iterationStart] at hpc
  ready hpc := by simp [State.nextIteration, rank_iterationStart] at hpc
  booted i hi := ⟨Nat.lt_succ_of_lt (h.booted i hi).1, (h.booted i hi).2⟩

/-- `wait_ap_ready` has returned `true`. -/
theorem Inv.countBooted {s : State} (h : Inv env s) (hsig : (s.aps s.iteration).Signalled) :
    Inv env (s.countBooted.nextIteration env) where
  written := h.nextIteration.written
  started := h.nextIteration.started
  aps := h.aps
  cleared := h.nextIteration.cleared
  ready := h.nextIteration.ready
  booted i hi := by
    simp only [State.countBooted, State.nextIteration, List.mem_append,
      List.mem_singleton] at hi
    obtain hi | rfl := hi
    · exact h.nextIteration.booted i hi
    · exact ⟨Nat.lt_succ_self _, hsig⟩

/-- A step of the BSP that leaves the mailbox and the APs alone. -/
theorem Inv.setPc {s : State} (h : Inv env s) {pc : BspPc}
    (hrank : s.pc.rank ≤ pc.rank) (hwritten : BspPc.sendStartup.rank < s.pc.rank) :
    Inv env { s with pc := pc } where
  written f hf := h.written f (lt_trans (by cases f <;> decide) hwritten)
  started i hi := by
    have := h.started i hi
    show i < s.iteration ∨ i = s.iteration ∧ _ < pc.rank
    omega
  aps := h.aps
  cleared _ := h.cleared (lt_trans (by decide) hwritten)
  ready _ := h.ready (lt_trans (by decide) hwritten)
  booted := h.booted

/-- What is ahead of an AP, and whether it has signalled, does not depend on
the mailbox; whether it is on track does, as far as it still reads it. -/
theorem Ap.OnTrack.of_data {m m' : Mailbox} {i : ℕ} {ap : Ap} (h : ap.OnTrack env m i)
    (hdata : ∀ f, .load f ∈ ap.ahead → m.data f = env.value i f → m'.data f = env.value i f) :
    ap.OnTrack env m' i := by
  cases ap with
  | waitForSipi => trivial
  | running regs rest =>
      exact ⟨h.1, fun f => ⟨fun hf => hdata f hf ((h.2 f).1 hf), (h.2 f).2⟩⟩
  | entered regs => exact h

theorem rank_afterWrite (f : Field) : (afterWrite f).rank = (BspPc.write f).rank + 1 := by
  cases f <;> rfl

theorem rank_write_lt (f : Field) : (BspPc.write f).rank < BspPc.clearReady.rank := by
  cases f <;> decide

theorem rank_write_inj {f g : Field} (h : (BspPc.write f).rank = (BspPc.write g).rank) :
    f = g := by
  cases f <;> cases g <;> first | rfl | exact absurd h (by decide)

/-- Until the startup IPI of an iteration, only APs of earlier ones are
started. -/
theorem Inv.lt_of_started {s : State} (h : Inv env s)
    (hrank : s.pc.rank ≤ BspPc.sendStartup.rank) {i : ℕ} (hi : s.aps i ≠ .waitForSipi) :
    i < s.iteration := by
  have := h.started i hi
  omega

/-- `set_ap_data` writes a field. -/
theorem Inv.write {s : State} {f : Field} (h : Inv env s) (hpc : s.pc = .write f)
    (hsafe : ∀ i < s.iteration, .load f ∈ (s.aps i).ahead →
      env.value i f = env.value s.iteration f) :
    Inv env { s.writeField env f with pc := afterWrite f } := by
  have hlt := rank_write_lt f
  have hrank := rank_afterWrite f
  have hbefore : s.pc.rank ≤ BspPc.sendStartup.rank := by
    rw [hpc]
    exact hlt.le.trans (by decide)
  refine ⟨fun g hg => ?_, fun i hi => ?_, fun i => ?_, fun hclear => ?_, fun hclear => ?_, h.booted⟩
  · by_cases hgf : g = f
    · subst hgf
      exact Function.update_self ..
    · have hne : (BspPc.write g).rank ≠ (BspPc.write f).rank := fun heq => hgf (rank_write_inj heq)
      show Function.update s.mailbox.data f _ g = _
      rw [Function.update_of_ne hgf]
      apply h.written
      rw [hpc]
      simp only [hrank] at hg
      omega
  · exact .inl (h.lt_of_started hbefore hi)
  · apply (h.aps i).of_data
    intro g hg hdata
    show Function.update s.mailbox.data f _ g = _
    by_cases hgf : g = f
    · subst hgf
      rw [Function.update_self]
      -- An AP that has something ahead of it was started, so in an earlier iteration.
      have hi : s.aps i ≠ .waitForSipi := by
        intro hwait
        simp [hwait, Ap.ahead] at hg
      exact (hsafe i (h.lt_of_started hbefore hi) hg).symm
    · rw [Function.update_of_ne hgf]
      exact hdata
  · simp only [hrank] at hclear
    omega
  · simp only [hrank] at hclear
    omega

theorem Inv.clearReady {s : State} (h : Inv env s) (hpc : s.pc = .clearReady)
    (hsafe : ∀ i < s.iteration, .signalReady ∉ (s.aps i).ahead) :
    Inv env { s with mailbox := { s.mailbox with apReady := 0 }, pc := .sendInit } where
  written f _ := h.written f (hpc ▸ rank_write_lt f)
  started i hi := .inl (h.lt_of_started (by rw [hpc]; decide) hi)
  aps i := (h.aps i).of_data fun _ _ => id
  cleared _ := hsafe
  ready _ hready := absurd rfl hready
  booted := h.booted

/-- An INIT or startup IPI to the AP of the current iteration. -/
theorem Inv.setAp {s : State} (h : Inv env s) {ap : Ap} {pc : BspPc}
    (hrank : BspPc.clearReady.rank < s.pc.rank)
    (hstarted : ap ≠ .waitForSipi → BspPc.sendStartup.rank < pc.rank)
    (hwritten : ap.OnTrack env s.mailbox s.iteration)
    (hready : (s.aps s.iteration).Signalled → ap.Signalled) :
    Inv env { s.setAp s.iteration ap with pc := pc } where
  written f _ := h.written f (lt_trans (rank_write_lt f) hrank)
  started i hi := by
    by_cases heq : i = s.iteration
    · subst heq
      simp only [State.setAp, Function.update_self] at hi
      exact .inr ⟨rfl, hstarted hi⟩
    · simp only [State.setAp, Function.update_of_ne heq] at hi
      have := h.started i hi
      left
      show i < s.iteration
      omega
  aps i := by
    simp only [State.setAp]
    by_cases heq : i = s.iteration
    · subst heq
      rw [Function.update_self]
      exact hwritten
    · rw [Function.update_of_ne heq]
      exact h.aps i
  cleared _ i hi := by
    have hne : i ≠ s.iteration := Nat.ne_of_lt hi
    simp only [State.setAp, Function.update_of_ne hne]
    exact h.cleared hrank i hi
  ready _ hset := by
    simp only [State.setAp, Function.update_self]
    exact hready (h.ready hrank hset)
  booted i hi := by
    simp only [State.setAp, Function.update_of_ne (Nat.ne_of_lt (h.booted i hi).1)]
    exact h.booted i hi

theorem Inv.startup {s : State} (h : Inv env s) {pc : BspPc}
    (hrank : BspPc.clearReady.rank < s.pc.rank) (hpc : BspPc.sendStartup.rank < pc.rank) :
    Inv env { s.setAp s.iteration (s.aps s.iteration).startup with pc := pc } := by
  apply h.setAp hrank (fun _ => hpc)
  · have hon := h.aps s.iteration
    cases hap : s.aps s.iteration with
    | waitForSipi =>
        refine ⟨List.suffix_rfl, fun f => ⟨fun _ => ?_, fun hf => ?_⟩⟩
        · exact h.written f (lt_trans (rank_write_lt f) hrank)
        · cases f <;> exact absurd (by decide) hf
    | running regs rest => rwa [hap] at hon
    | entered regs => rwa [hap] at hon
  · intro hsig
    cases hap : s.aps s.iteration with
    | waitForSipi =>
        rw [hap] at hsig
        exact hsig.elim
    | running regs rest => rwa [hap] at hsig
    | entered regs => trivial

theorem Inv.bspStep {s s' : State} (h : Inv env s) (hsafe : WriteSafe env s .bsp)
    (hstep : bspStep env s = some s') : Inv env s' := by
  cases hpc : s.pc with
  | write f =>
      simp only [WriteSafe, BspPc.WriteSafe, Handoff.bspStep, hpc, Option.some.injEq] at hsafe hstep
      exact hstep ▸ h.write hpc hsafe
  | clearReady =>
      simp only [WriteSafe, BspPc.WriteSafe, Handoff.bspStep, hpc, Option.some.injEq] at hsafe hstep
      exact hstep ▸ h.clearReady hpc hsafe
  | sendInit =>
      simp only [Handoff.bspStep, hpc, Option.some.injEq] at hstep
      have hwait : s.aps s.iteration = .waitForSipi := by
        by_contra hne
        exact Nat.lt_irrefl _ (h.lt_of_started (by rw [hpc]; decide) hne)
      refine hstep ▸ h.setAp (hpc ▸ by decide) (absurd rfl) trivial fun hsig => ?_
      rwa [hwait] at hsig
  | sendStartup =>
      simp only [Handoff.bspStep, hpc, Option.some.injEq] at hstep
      exact hstep ▸ h.startup (hpc ▸ by decide) (by decide)
  | checkReady =>
      simp only [Handoff.bspStep, hpc, Option.some.injEq] at hstep
      subst hstep
      apply h.setPc
      · rw [hpc]
        split <;> decide
      · rw [hpc]
        decide
  | sendSecondStartup =>
      simp only [Handoff.bspStep, hpc, Option.some.injEq] at hstep
      exact hstep ▸ h.startup (hpc ▸ by decide) (by decide)
  | waitReady i =>
      simp only [Handoff.bspStep, hpc] at hstep
      split at hstep
      · split at hstep <;> obtain rfl := Option.some.inj hstep
        · exact h.setPc (by rw [hpc]; rfl) (by rw [hpc]; simp [BspPc.rank])
        · rename_i hready
          have hsig := h.ready (by rw [hpc]; simp [BspPc.rank]) hready
          exact h.countBooted hsig
      · obtain rfl := Option.some.inj hstep
        exact h.nextIteration
  | done => simp [Handoff.bspStep, hpc] at hstep

/-- A step of AP `i`, which may also set `ap_ready`. -/
theorem Inv.setRunning {s : State} {i : ℕ} {ap : Ap} {ready : BitVec 32} (h : Inv env s)
    (hstarted : s.aps i ≠ .waitForSipi) (hon : ap.OnTrack env s.mailbox i)
    (hahead : ap.ahead ⊆ (s.aps i).ahead)
    (hsig : (s.aps i).Signalled → ap.Signalled)
    (hready : ready = s.mailbox.apReady ∨ .signalReady ∈ (s.aps i).ahead ∧ ap.Signalled) :
    Inv env { s.setAp i ap with mailbox := { s.mailbox with apReady := ready } } where
  written := h.written
  started j hj := by
    apply h.started j
    by_cases heq : j = i
    · exact heq ▸ hstarted
    · simpa only [State.setAp, Function.update_of_ne heq] using hj
  aps j := by
    simp only [State.setAp, Function.update_apply]
    split
    · rename_i heq
      exact heq ▸ hon.of_data fun _ _ => id
    · exact (h.aps j).of_data fun _ _ => id
  cleared hrank j hj := by
    have hnot := h.cleared hrank j hj
    simp only [State.setAp, Function.update_apply]
    split
    · rename_i heq
      exact fun hmem => hnot (heq ▸ hahead hmem)
    · exact hnot
  ready hrank hset := by
    have hkeep : (s.aps s.iteration).Signalled →
        (Function.update s.aps i ap s.iteration).Signalled := by
      simp only [Function.update_apply]
      split
      · rename_i heq
        exact heq ▸ hsig
      · exact id
    obtain rfl | ⟨hmem, hap⟩ := hready
    · exact hkeep (h.ready hrank hset)
    · -- The signal comes from the AP of this iteration: the earlier ones have all sent theirs.
      have hi : i = s.iteration := by
        obtain hlt | ⟨heq, -⟩ := h.started i hstarted
        · exact absurd hmem (h.cleared hrank i hlt)
        · exact heq
      subst hi
      simpa only [State.setAp, Function.update_self] using hap
  booted j hj := by
    refine ⟨(h.booted j hj).1, ?_⟩
    simp only [State.setAp, Function.update_apply]
    split
    · rename_i heq
      exact hsig (heq ▸ (h.booted j hj).2)
    · exact (h.booted j hj).2

theorem Inv.apStep {s s' : State} {i : ℕ} (h : Inv env s) (hstep : apStep s i = some s') :
    Inv env s' := by
  have hon := h.aps i
  cases hap : s.aps i with
  | waitForSipi => simp [Handoff.apStep, hap] at hstep
  | entered regs => simp [Handoff.apStep, hap] at hstep
  | running regs rest =>
      rw [hap] at hon
      have hstarted : s.aps i ≠ .waitForSipi := by simp [hap]
      cases rest with
      | nil => simp [Handoff.apStep, hap] at hstep
      | cons instr rest =>
          have htail : rest <:+ trampoline := (List.suffix_cons instr rest).trans hon.1
          cases instr with
          | load f =>
              simp only [Handoff.apStep, hap, Option.some.injEq] at hstep
              subst hstep
              refine h.setRunning hstarted ?_ ?_ ?_ (.inl rfl)
              · refine ⟨htail, fun g => ⟨fun hg => (hon.2 g).1 (List.mem_cons_of_mem _ hg), ?_⟩⟩
                intro hg
                by_cases hgf : g = f
                · subst hgf
                  rw [Regs.get_load_self, (hon.2 g).1 List.mem_cons_self]
                · rw [Regs.get_load_of_ne _ hgf]
                  exact (hon.2 g).2 (by simp [hgf, hg])
              · rw [hap]
                exact List.subset_cons_self _ _
              · rw [hap]
                exact fun hsig hmem => hsig (List.mem_cons_of_mem _ hmem)
          | signalReady =>
              simp only [Handoff.apStep, hap, Option.some.injEq] at hstep
              subst hstep
              have hnot := signalReady_notMem hon.1
              refine h.setRunning hstarted ?_ ?_ (fun _ => hnot) (.inr ⟨?_, hnot⟩)
              · refine ⟨htail, fun g => ⟨fun hg => (hon.2 g).1 (List.mem_cons_of_mem _ hg), ?_⟩⟩
                exact fun hg => (hon.2 g).2 (by simp [hg])
              · rw [hap]
                exact List.subset_cons_self _ _
              · rw [hap]
                exact List.mem_cons_self
          | call =>
              simp only [Handoff.apStep, hap, Option.some.injEq] at hstep
              subst hstep
              refine h.setRunning hstarted ?_ (List.nil_subset _) (fun _ => trivial) (.inl rfl)
              obtain rfl := eq_nil_of_call hon.1
              exact fun g => (hon.2 g).2 (by simp)

theorem Inv.step {s s' : State} {l : Label} (h : Inv env s) (hsafe : WriteSafe env s l)
    (hstep : step env s l = some s') : Inv env s' := by
  cases l with
  | bsp => exact h.bspStep hsafe hstep
  | ap i => exact h.apStep hstep

/-! ### Indices and stacks are not shared -/

theorem BootEnv.toNat_stackTop {i : ℕ} (hi : i < env.aps.length) :
    (env.stackTop i).toNat = (env.stackBase i + apStackSize) / 16 * 16 := by
  have hsum : (BitVec.ofNat 64 (env.stackBase i) + BitVec.ofNat 64 apStackSize).toNat =
      env.stackBase i + apStackSize := by
    rw [← BitVec.ofNat_add, BitVec.toNat_ofNat, Nat.mod_eq_of_lt (env.stack_fits i hi)]
  rw [← hsum]
  exact Bits.toNat_alignDown _ 4

theorem BootEnv.stackTop_ne {i j : ℕ} (hi : i < env.aps.length) (hj : j < env.aps.length)
    (hne : i ≠ j) : env.stackTop i ≠ env.stackTop j := by
  intro heq
  have htop := env.toNat_stackTop hi
  rw [heq, env.toNat_stackTop hj] at htop
  have hdisj := env.stack_disjoint i hi j hj hne
  simp only [apStackSize] at htop hdisj
  omega

/-! ### Whole boots -/

/-- The `cpu_index` that `ap_entry` works with: its argument, as a `u32`. -/
def Regs.cpuIndex (regs : Regs) : BitVec 32 := regs.rdi.setWidth 32

/-- An AP that has called the entry point. -/
theorem Inv.of_entered {s : State} {i : ℕ} {regs : Regs} (h : Inv env s) (hloop : Loop env s)
    (hap : s.aps i = .entered regs) :
    i < env.aps.length ∧ regs.rax = env.apEntry ∧ regs.cpuIndex = BootEnv.cpuIndex i ∧
      regs.rsp = env.stackTop i := by
  have hon := h.aps i
  rw [hap] at hon
  refine ⟨?_, hon .entryPoint, ?_, hon .stackTop⟩
  · have hstarted := h.started i (by simp [hap])
    obtain hlt | ⟨heq, hpc⟩ := hloop.bound
    · omega
    · rw [hpc] at hstarted
      simp only [BspPc.rank] at hstarted
      omega
  · have hrdi : regs.rdi = (BootEnv.cpuIndex i).setWidth 64 := hon .cpuIndex
    rw [Regs.cpuIndex, hrdi]
    exact BitVec.setWidth_setWidth_of_le _ (by decide)

/-- In every boot in which the BSP overwrites nothing that an AP started
earlier still has to read, and clears no signal before it was given: an AP
enters `ap_entry` with the index and on the stack of its own iteration, no two
APs share either, and the BSP counts only APs that have signalled. There are no
more APs than an index, which is a `u32`, tells apart. -/
theorem handoff_race_free (hfew : env.aps.length < 2 ^ 32) {as : List Label} {s : State}
    (hrun : run (Handoff.step env) (init env) as = some s)
    (hsafe : StepsMeet (Handoff.step env) (WriteSafe env) (init env) as) :
    (∀ i regs, s.aps i = .entered regs →
      regs.rax = env.apEntry ∧ regs.cpuIndex.toNat = i + 1 ∧ regs.rsp = env.stackTop i) ∧
    (∀ i j regs regs', s.aps i = .entered regs → s.aps j = .entered regs' → i ≠ j →
      regs.cpuIndex ≠ regs'.cpuIndex ∧ regs.rsp ≠ regs'.rsp) ∧
    (∀ i ∈ s.booted, (s.aps i).Signalled) := by
  have hinv : Inv env s := run_invariant_of_stepsMeet (fun _ _ _ h hl hstep => h.step hl hstep)
    (init_inv env) hsafe hrun
  have hloop := loop_of_run hrun
  refine ⟨fun i regs hi => ?_, fun i j regs regs' hi hj hne => ?_, fun i hi => (hinv.booted i hi).2⟩
  · obtain ⟨hlt, hrax, hindex, hrsp⟩ := hinv.of_entered hloop hi
    exact ⟨hrax, by rw [hindex, BootEnv.toNat_cpuIndex (by omega)], hrsp⟩
  · obtain ⟨hlti, -, hindexi, hrspi⟩ := hinv.of_entered hloop hi
    obtain ⟨hltj, -, hindexj, hrspj⟩ := hinv.of_entered hloop hj
    constructor
    · intro heq
      have hnat := congrArg BitVec.toNat heq
      rw [hindexi, hindexj, BootEnv.toNat_cpuIndex (by omega),
        BootEnv.toNat_cpuIndex (by omega)] at hnat
      omega
    · rw [hrspi, hrspj]
      exact BootEnv.stackTop_ne hlti hltj hne

end

/-- Two APs. -/
def twoAps : BootEnv where
  madt := ⟨[⟨0, 0, true⟩, ⟨1, 1, true⟩, ⟨2, 2, true⟩]⟩
  bspApicId := 0
  cr3 := 0x1000
  apEntry := 0x100000
  stackBase i := 0x200000 + i * 0x40000
  stack_fits := by decide
  stack_disjoint := by decide

/-- Each AP has entered `ap_entry` before the BSP looks for its signal. -/
theorem handoff_race_free_one_by_one :
    let boot (i : ℕ) : List Label :=
      List.replicate 7 .bsp ++ List.replicate 6 (.ap i) ++ List.replicate 2 .bsp
    ∃ s, run (Handoff.step twoAps) (init twoAps) (boot 0 ++ boot 1) = some s ∧
      s.booted = [0, 1] ∧
      StepsMeet (Handoff.step twoAps) (WriteSafe twoAps) (init twoAps) (boot 0 ++ boot 1) ∧
      ∃ regs regs', s.aps 0 = .entered regs ∧ s.aps 1 = .entered regs' ∧
        regs.cpuIndex ≠ regs'.cpuIndex ∧ regs.rsp ≠ regs'.rsp := by
  intro boot
  have hsafe : StepsMeet (Handoff.step twoAps) (WriteSafe twoAps) (init twoAps)
      (boot 0 ++ boot 1) := by decide
  obtain ⟨s, regs, regs', hrun, hbooted, h0, h1⟩ : ∃ s regs regs',
      run (Handoff.step twoAps) (init twoAps) (boot 0 ++ boot 1) = some s ∧
        s.booted = [0, 1] ∧ s.aps 0 = .entered regs ∧ s.aps 1 = .entered regs' :=
    ⟨_, _, _, rfl, rfl, rfl, rfl⟩
  exact ⟨s, hrun, hbooted, hsafe, regs, regs', h0, h1,
    (handoff_race_free (by decide) hrun hsafe).2.1 0 1 regs regs' h0 h1 (by decide)⟩

/-- The AP of iteration 0 signals and is then overtaken by the BSP, which
writes the index of the next AP before the first one loads its own: both enter
`ap_entry` as core 2. -/
theorem two_aps_share_cpuIndex :
    ∃ s regs regs',
      run (Handoff.step twoAps) (init twoAps)
        (List.replicate 7 .bsp ++ List.replicate 3 (.ap 0) ++ List.replicate 6 .bsp ++
          List.replicate 3 (.ap 0) ++ List.replicate 3 .bsp ++ List.replicate 6 (.ap 1)) = some s ∧
      s.aps 0 = .entered regs ∧ s.aps 1 = .entered regs' ∧
      regs.cpuIndex.toNat = 2 ∧ regs'.cpuIndex.toNat = 2 := by
  refine ⟨_, _, _, rfl, rfl, rfl, ?_, ?_⟩ <;> decide

end SmpNostd.Handoff
