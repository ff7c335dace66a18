import SmpNostd.Boot.RaceFree
import SmpNostd.Driver.Sending

/-!
The indices of the cores (`boot_aps` in `driver.rs`), and the slots of the per-CPU
table that the cores register in (`register_percpu` in `percpu.rs`).

The local APIC reports the id of the boot processor in a byte, and the list of the
APs leaves that id out. So there are 255 APs at the most, and the index of the last
of them is the last one of the table.

The cores register in any order here, and some of them perhaps never: an AP that
was not found ready in time may come up later, or not at all. Each registers with
the index that it was given.
-/

namespace SmpNostd.Indices

open Machine Handoff

/-! ### The model -/

/-- The BSP, or the AP that an iteration of `boot_aps` starts. -/
abbrev Core (aps : List MadtLocalApic) := Option (Fin aps.length)

/-- Where a core is in `register_percpu`. -/
inductive Pc
  /-- About to check the index and to store its data. -/
  | storing
  | counting
  | registered
  | panicked
  deriving DecidableEq, Repr

structure State (aps : List MadtLocalApic) where
  percpus : PerCpus
  cores : Core aps → Pc

def init (aps : List MadtLocalApic) : State aps where
  percpus := .empty
  cores _ := .storing

section

variable (aps : List MadtLocalApic) (bspApicId : BitVec 32)

/-- What a core registers. -/
def perCpu : Core aps → PerCpu
  | none => ⟨0, bspApicId, true⟩
  | some i => Registration.apPerCpu aps i

/-- Its slot in the table. -/
def slot (core : Core aps) : ℕ := (perCpu aps bspApicId core).cpuIndex.toNat

/-- The next step of a core in `register_percpu`. -/
def step (s : State aps) (core : Core aps) : Option (State aps) :=
  match s.cores core with
  | .storing =>
      if slot aps bspApicId core < PerCpus.maxCpus then
        some ⟨s.percpus.store (perCpu aps bspApicId core), Function.update s.cores core .counting⟩
      else some { s with cores := Function.update s.cores core .panicked }
  | .counting => some ⟨s.percpus.incrCount, Function.update s.cores core .registered⟩
  | .registered | .panicked => none

end

/-- What a core is to find in its slot: nothing until it has stored its data, and
its data from then on. No check is to fail. -/
def Pc.Finds : Pc → Option PerCpu → PerCpu → Prop
  | .storing, entry, _ => entry = none
  | .counting, entry, cpu | .registered, entry, cpu => entry = some cpu
  | .panicked, _, _ => False

variable {aps : List MadtLocalApic} {bspApicId : BitVec 32} {s s' : State aps} {core : Core aps}

theorem step_storing (hpc : s.cores core = .storing)
    (hlt : slot aps bspApicId core < PerCpus.maxCpus) : step aps bspApicId s core =
      some ⟨s.percpus.store (perCpu aps bspApicId core),
        Function.update s.cores core .counting⟩ := by
  simp only [step, hpc, if_pos hlt]

theorem step_panicking (hpc : s.cores core = .storing)
    (hge : ¬slot aps bspApicId core < PerCpus.maxCpus) : step aps bspApicId s core =
      some ⟨s.percpus, Function.update s.cores core .panicked⟩ := by
  simp only [step, hpc, if_neg hge]

theorem step_counting (hpc : s.cores core = .counting) : step aps bspApicId s core =
    some ⟨s.percpus.incrCount, Function.update s.cores core .registered⟩ := by
  simp only [step, hpc]

/-! ### Few enough APs -/

/-- The index of an AP, for a list of APs that has room for the BSP's. -/
theorem toNat_cpuIndex (hroom : aps.length < PerCpus.maxCpus) (i : Fin aps.length) :
    (BootEnv.cpuIndex i).toNat = i + 1 := by
  unfold PerCpus.maxCpus at hroom
  exact BootEnv.toNat_cpuIndex (by omega)

theorem slot_some (hroom : aps.length < PerCpus.maxCpus) (i : Fin aps.length) :
    slot aps bspApicId (some i) = i + 1 := toNat_cpuIndex hroom i

theorem slot_lt (hroom : aps.length < PerCpus.maxCpus) (core : Core aps) :
    slot aps bspApicId core < PerCpus.maxCpus := by
  cases core with
  | none => exact show 0 < 256 by decide
  | some i =>
      rw [slot_some hroom]
      omega

theorem slot_inj (hroom : aps.length < PerCpus.maxCpus) {core core' : Core aps}
    (h : slot aps bspApicId core = slot aps bspApicId core') : core = core' := by
  have hbsp : slot aps bspApicId none = 0 := rfl
  cases core with
  | none =>
      cases core' with
      | none => rfl
      | some j =>
          rw [hbsp, slot_some hroom] at h
          omega
  | some i =>
      cases core' with
      | none =>
          rw [hbsp, slot_some hroom] at h
          omega
      | some j =>
          rw [slot_some hroom, slot_some hroom] at h
          exact congrArg some (Fin.ext (by omega))

/-! ### The table -/

/-- Nobody has registered in the slot of another. -/
def Inv (bspApicId : BitVec 32) (s : State aps) : Prop :=
  ∀ core, (s.cores core).Finds (s.percpus.array (slot aps bspApicId core))
    (perCpu aps bspApicId core)

theorem init_inv : Inv bspApicId (init aps) := fun _ => rfl

/-- A core gets on and leaves the slots of the others alone. -/
theorem Inv.set (h : Inv bspApicId s) {pc : Pc} {percpus : PerCpus}
    (hself : pc.Finds (percpus.array (slot aps bspApicId core)) (perCpu aps bspApicId core))
    (hothers : ∀ core', core' ≠ core → percpus.array (slot aps bspApicId core') =
      s.percpus.array (slot aps bspApicId core')) :
    Inv bspApicId ⟨percpus, Function.update s.cores core pc⟩ := by
  intro core'
  dsimp only
  by_cases hne : core' = core
  · subst hne
    rwa [Function.update_self]
  · rw [Function.update_of_ne hne, hothers core' hne]
    exact h core'

theorem Inv.step (hroom : aps.length < PerCpus.maxCpus) (h : Inv bspApicId s)
    (hstep : step aps bspApicId s core = some s') : Inv bspApicId s' := by
  have hcore := h core
  cases hpc : s.cores core with
  | storing =>
      rw [step_storing hpc (slot_lt hroom core)] at hstep
      obtain rfl := Option.some.inj hstep
      refine h.set (Function.update_self ..) fun core' hne => Function.update_of_ne ?_ ..
      exact fun heq => hne (slot_inj hroom heq)
  | counting =>
      rw [step_counting hpc] at hstep
      obtain rfl := Option.some.inj hstep
      rw [hpc] at hcore
      exact h.set hcore fun _ _ => rfl
  | registered | panicked => simp [Indices.step, hpc] at hstep

theorem Inv.run (hroom : aps.length < PerCpus.maxCpus) {cores : List (Core aps)}
    (h : Inv bspApicId s) (hrun : run (Indices.step aps bspApicId) s cores = some s') :
    Inv bspApicId s' :=
  run_invariant (fun _ _ _ h hstep => h.step hroom hstep) h hrun

/-! ### The boot

In the model of the boot that has `ap_entry` step by step, the cores register as
they do here; what they do before and after is no step here. -/

def ofAp : Registration.ApPc → Pc
  | .waitForSipi | .trampoline | .enabling | .registering => .storing
  | .counting => .counting
  | .signalling | .idle => .registered
  | .panicked => .panicked

def ofBsp : Registration.BspPc → Pc
  | .registering => .storing
  | .counting => .counting
  | .clearing _ | .starting _ | .waiting _ | .returned => .registered

def coresOf (pc : Registration.BspPc) (pcs : Fin aps.length → Registration.ApPc) : Core aps → Pc
  | none => ofBsp pc
  | some i => ofAp (pcs i)

def ofBoot (s : Registration.State aps.length) : State aps where
  percpus := s.percpus
  cores := coresOf s.pc s.aps

theorem coresOf_setAp (pc : Registration.BspPc) (pcs : Fin aps.length → Registration.ApPc)
    (i : Fin aps.length) (ap : Registration.ApPc) :
    coresOf pc (Function.update pcs i ap) =
      Function.update (coresOf pc pcs) (some i) (ofAp ap) := by
  funext core
  cases core with
  | none => rfl
  | some j =>
      by_cases hji : j = i
      · subst hji
        simp [coresOf]
      · simp [coresOf, hji]

theorem coresOf_setPc (pc pc' : Registration.BspPc) (pcs : Fin aps.length → Registration.ApPc) :
    coresOf pc' pcs = Function.update (coresOf pc pcs) none (ofBsp pc') := by
  funext core
  cases core <;> simp [coresOf]

theorem ofBsp_iterationStart (i : ℕ) :
    ofBsp (Registration.iterationStart aps i) = .registered := by
  unfold Registration.iterationStart
  split <;> rfl

theorem coresOf_startup (pc : Registration.BspPc) (pcs : Fin aps.length → Registration.ApPc)
    (i : Fin aps.length) :
    coresOf pc (Function.update pcs i (pcs i).startup) = coresOf pc pcs := by
  have hsame : ofAp (pcs i).startup = coresOf pc pcs (some i) := by
    show ofAp _ = ofAp (pcs i)
    cases pcs i <;> rfl
  rw [coresOf_setAp, hsame, Function.update_eq_self]

/-- A step of the BSP is one of its steps here, or is not seen. -/
theorem bspStep_ofBoot {s s' : Registration.State aps.length}
    (hstep : Registration.bspStep aps bspApicId s = some s') :
    ofBoot s' = ofBoot s ∨ step aps bspApicId (ofBoot s) none = some (ofBoot s') := by
  have hsilent : ∀ pc, ofBsp pc = ofBsp s.pc → coresOf pc s.aps = coresOf s.pc s.aps := by
    intro pc heq
    rw [coresOf_setPc s.pc pc, heq]
    exact Function.update_eq_self none (coresOf s.pc s.aps)
  have hcore : (ofBoot s).cores none = ofBsp s.pc := rfl
  have hslot : slot aps bspApicId none < PerCpus.maxCpus := show 0 < 256 by decide
  cases hpc : s.pc with
  | registering =>
      right
      simp only [Registration.bspStep, hpc, Option.some.injEq] at hstep
      subst hstep
      rw [hpc] at hcore
      rw [step_storing hcore hslot]
      exact congrArg (fun cores => some (State.mk _ cores))
        (coresOf_setPc s.pc .counting s.aps).symm
  | counting =>
      right
      simp only [Registration.bspStep, hpc, Option.some.injEq] at hstep
      subst hstep
      rw [hpc] at hcore
      have hcores := coresOf_setPc s.pc (Registration.iterationStart aps 0) s.aps
      rw [ofBsp_iterationStart] at hcores
      rw [step_counting hcore]
      exact congrArg (fun cores => some (State.mk _ cores)) hcores.symm
  | clearing i =>
      left
      simp only [Registration.bspStep, hpc, Option.some.injEq] at hstep
      subst hstep
      exact congrArg (State.mk _) (hsilent _ (by rw [hpc]; rfl))
  | starting i =>
      left
      simp only [Registration.bspStep, hpc] at hstep
      split at hstep
      · obtain rfl := Option.some.inj hstep
        refine congrArg (State.mk _) ?_
        exact (coresOf_startup _ _ _).trans (hsilent _ (by rw [hpc]; rfl))
      · cases hstep
  | waiting i =>
      left
      simp only [Registration.bspStep, hpc] at hstep
      split at hstep <;> obtain rfl := Option.some.inj hstep
      · exact congrArg (State.mk _) (hsilent _ (by rw [hpc, ofBsp_iterationStart]; rfl))
      · rfl
  | returned => simp [Registration.bspStep, hpc] at hstep

/-- The same for an AP. -/
theorem apStep_ofBoot {s s' : Registration.State aps.length} {i : Fin aps.length}
    (hstep : Registration.apStep aps s i = some s') :
    ofBoot s' = ofBoot s ∨ step aps bspApicId (ofBoot s) (some i) = some (ofBoot s') := by
  have hcore : (ofBoot s).cores (some i) = ofAp (s.aps i) := rfl
  have hsilent : ∀ ap, ofAp ap = ofAp (s.aps i) →
      coresOf s.pc (Function.update s.aps i ap) = coresOf s.pc s.aps := by
    intro ap heq
    rw [coresOf_setAp, heq]
    exact Function.update_eq_self (some i) (coresOf s.pc s.aps)
  have hseen : ∀ ap percpus, some (State.mk percpus (Function.update (ofBoot s).cores (some i)
      (ofAp ap))) = some (State.mk percpus (coresOf s.pc (Function.update s.aps i ap))) :=
    fun ap percpus => by rw [coresOf_setAp, ofBoot]
  cases hap : s.aps i with
  | waitForSipi | idle | panicked => simp [Registration.apStep, hap] at hstep
  | trampoline | enabling =>
      left
      simp only [Registration.apStep, hap, Option.some.injEq] at hstep
      subst hstep
      exact congrArg (State.mk _) (hsilent _ (by rw [hap]; rfl))
  | registering =>
      right
      rw [hap] at hcore
      simp only [Registration.apStep, hap] at hstep
      split at hstep <;> obtain rfl := Option.some.inj hstep
      · rename_i hlt
        exact (step_storing hcore hlt).trans (hseen .counting _)
      · rename_i hge
        exact (step_panicking hcore hge).trans (hseen .panicked _)
  | counting =>
      right
      rw [hap] at hcore
      simp only [Registration.apStep, hap, Option.some.injEq] at hstep
      subst hstep
      exact (step_counting hcore).trans (hseen .signalling _)
  | signalling =>
      left
      simp only [Registration.apStep, hap, Option.some.injEq] at hstep
      subst hstep
      exact congrArg (State.mk _) (hsilent _ (by rw [hap]; rfl))

/-- A run of the boot, looked at as a run of registrations. -/
theorem run_ofBoot {s s' : Registration.State aps.length}
    {labels : List (Registration.Label aps.length)}
    (hrun : run (Registration.step aps bspApicId) s labels = some s') :
    ∃ cores, run (step aps bspApicId) (ofBoot s) cores = some (ofBoot s') := by
  induction labels generalizing s with
  | nil =>
      obtain rfl := Option.some.inj hrun
      exact ⟨[], rfl⟩
  | cons l labels ih =>
      obtain ⟨m, hm, hrest⟩ := run_cons_eq_some.mp hrun
      obtain ⟨cores, hcores⟩ := ih hrest
      have hfirst : ofBoot m = ofBoot s ∨
          ∃ core, step aps bspApicId (ofBoot s) core = some (ofBoot m) := by
        cases l with
        | bsp => exact (bspStep_ofBoot hm).imp_right fun h => ⟨none, h⟩
        | ap i => exact (apStep_ofBoot hm).imp_right fun h => ⟨some i, h⟩
      obtain hsame | ⟨core, hcore⟩ := hfirst
      · exact ⟨cores, hsame ▸ hcores⟩
      · exact ⟨core :: cores, run_cons_eq_some.mpr ⟨_, hcore, hcores⟩⟩

theorem ofBoot_init : ofBoot (Registration.init aps.length) = init aps := by
  refine congrArg (State.mk _) (funext fun core => ?_)
  cases core <;> rfl

/-- So the cores keep to their slots in every order of the steps of the boot. -/
theorem inv_ofBoot (hroom : aps.length < PerCpus.maxCpus) {s : Registration.State aps.length}
    {labels : List (Registration.Label aps.length)}
    (hrun : run (Registration.step aps bspApicId) (Registration.init aps.length) labels = some s) :
    Inv bspApicId (ofBoot s) := by
  obtain ⟨cores, hcores⟩ := run_ofBoot hrun
  rw [ofBoot_init] at hcores
  exact init_inv.run hroom hcores

/-! ### The mailbox

An AP is told its index through the mailbox, where it may find the one of another
AP; that one fits as well. -/

/-- The index that the AP has loaded fits. -/
def ApFits : Ap → Prop
  | .waitForSipi => True
  | .running regs _ | .entered regs => regs.rdi.toNat < PerCpus.maxCpus

structure MailboxInv (s : Handoff.State) : Prop where
  mailbox : (s.mailbox.data .cpuIndex).toNat < PerCpus.maxCpus
  aps : ∀ i, ApFits (s.aps i)

variable {env : BootEnv} {t t' : Handoff.State}

theorem init_mailboxInv : MailboxInv (Handoff.init env) :=
  ⟨show 0 < 256 by decide, fun _ => trivial⟩

theorem MailboxInv.setAp (h : MailboxInv t) {i : ℕ} {ap : Ap} (hap : ApFits ap) :
    MailboxInv (t.setAp i ap) := by
  refine ⟨h.mailbox, fun j => ?_⟩
  by_cases hji : j = i
  · subst hji
    simpa [Handoff.State.setAp] using hap
  · simpa [Handoff.State.setAp, hji] using h.aps j

theorem apFits_startup {ap : Ap} (h : ApFits ap) : ApFits ap.startup := by
  cases ap with
  | waitForSipi => exact show 0 < 256 by decide
  | running regs rest | entered regs => exact h

theorem MailboxInv.bspStep (hroom : env.aps.length < PerCpus.maxCpus) (h : MailboxInv t)
    (hloop : Loop env t) (hstep : bspStep env t = some t') : MailboxInv t' := by
  have hlt : t.iteration < env.aps.length :=
    hloop.bound.resolve_right fun hd => (bspStep_cases hstep).1 hd.2
  cases hpc : t.pc with
  | write f =>
      simp only [Handoff.bspStep, hpc, Option.some.injEq] at hstep
      subst hstep
      refine ⟨?_, h.aps⟩
      cases f with
      | cpuIndex =>
          show (BootEnv.cpuIndex t.iteration).toNat < PerCpus.maxCpus
          rw [toNat_cpuIndex hroom ⟨t.iteration, hlt⟩]
          exact Nat.lt_of_le_of_lt hlt hroom
      | pml4Addr | stackTop | entryPoint => exact h.mailbox
  | sendInit =>
      simp only [Handoff.bspStep, hpc, Option.some.injEq] at hstep
      subst hstep
      have hwaits : ApFits .waitForSipi := trivial
      have hset := h.setAp (i := t.iteration) hwaits
      exact ⟨hset.mailbox, hset.aps⟩
  | sendStartup | sendSecondStartup =>
      simp only [Handoff.bspStep, hpc, Option.some.injEq] at hstep
      subst hstep
      have hset := h.setAp (i := t.iteration) (apFits_startup (h.aps t.iteration))
      exact ⟨hset.mailbox, hset.aps⟩
  | clearReady | checkReady =>
      simp only [Handoff.bspStep, hpc, Option.some.injEq] at hstep
      subst hstep
      exact ⟨h.mailbox, h.aps⟩
  | waitReady i =>
      simp only [Handoff.bspStep, hpc] at hstep
      split at hstep
      · split at hstep <;> obtain rfl := Option.some.inj hstep <;> exact ⟨h.mailbox, h.aps⟩
      · obtain rfl := Option.some.inj hstep
        exact ⟨h.mailbox, h.aps⟩
  | done => simp [Handoff.bspStep, hpc] at hstep

theorem MailboxInv.apStep (h : MailboxInv t) {i : ℕ} (hstep : apStep t i = some t') :
    MailboxInv t' := by
  have hi := h.aps i
  unfold Handoff.apStep at hstep
  split at hstep
  case h_1 regs f rest hap =>
    obtain rfl := Option.some.inj hstep
    rw [hap] at hi
    refine h.setAp ?_
    cases f with
    | cpuIndex =>
        show (BitVec.setWidth 64 (t.mailbox.data .cpuIndex)).toNat < PerCpus.maxCpus
        rw [BitVec.toNat_setWidth_of_le (by decide)]
        exact h.mailbox
    | pml4Addr | stackTop | entryPoint => exact hi
  case h_2 regs rest hap =>
    obtain rfl := Option.some.inj hstep
    rw [hap] at hi
    have hloaded : ApFits (.running regs rest) := hi
    have hset := h.setAp (i := i) hloaded
    exact ⟨hset.mailbox, hset.aps⟩
  case h_3 regs rest hap =>
    obtain rfl := Option.some.inj hstep
    rw [hap] at hi
    exact h.setAp hi
  case h_4 | h_5 | h_6 => cases hstep

/-- Whatever order the BSP and the APs get on in, an AP enters `ap_entry` with an
index that is in the table. -/
theorem entered_cpuIndex_lt (env : BootEnv) (raw : BitVec 32)
    (hnodup : (env.aps.map MadtLocalApic.apicId).Nodup)
    (hid : env.bspApicId = LocalApic.id raw) {labels : List Handoff.Label} {i : ℕ} {regs : Regs}
    (hrun : run (Handoff.step env) (Handoff.init env) labels = some t)
    (hap : t.aps i = .entered regs) : regs.cpuIndex.toNat < PerCpus.maxCpus := by
  have hroom : env.aps.length < PerCpus.maxCpus :=
    MadtInfo.length_enabledAps_lt hnodup (hid ▸ LocalApic.id_lt raw)
  have hstep : ∀ s l s', Loop env s ∧ MailboxInv s → Handoff.step env s l = some s' →
      Loop env s' ∧ MailboxInv s' := by
    rintro s l s' ⟨hloop, h⟩ hstep
    refine ⟨hloop.step hstep, ?_⟩
    cases l with
    | bsp => exact h.bspStep hroom hloop hstep
    | ap i => exact h.apStep hstep
  obtain ⟨-, hinv⟩ := run_invariant hstep ⟨init_loop, init_mailboxInv⟩ hrun
  have hfits : regs.rdi.toNat < PerCpus.maxCpus := by
    have hi := hinv.aps i
    rwa [hap] at hi
  rw [Regs.cpuIndex, BitVec.toNat_setWidth]
  exact Nat.lt_of_le_of_lt (Nat.mod_le _ _) hfits

/-- **The indices fit the table.** For every MADT in which no two enabled APs have the
same id, and every id of the boot processor in xAPIC mode, the indices of the APs are
between 1 and 255 and differ; so whenever any cores have come any part of the way
through `register_percpu`, in whatever order, no check has failed, a core that is
about to store its data finds its slot empty, and one that has stored it finds it
there. -/
theorem indices_fit (madt : MadtInfo) (raw : BitVec 32)
    (hnodup : ((madt.enabledAps (LocalApic.id raw)).map MadtLocalApic.apicId).Nodup) :
    let bspApicId := LocalApic.id raw
    let aps := madt.enabledAps bspApicId
    (∀ i < aps.length, 1 ≤ (BootEnv.cpuIndex i).toNat ∧ (BootEnv.cpuIndex i).toNat ≤ 255) ∧
      (∀ i < aps.length, ∀ j < aps.length, i ≠ j → BootEnv.cpuIndex i ≠ BootEnv.cpuIndex j) ∧
      (∀ i < aps.length, BootEnv.cpuIndex i ≠ (perCpu aps bspApicId none).cpuIndex) ∧
      ∀ (cores : List (Core aps)) (s : State aps),
        run (step aps bspApicId) (init aps) cores = some s → ∀ core,
          s.cores core ≠ .panicked ∧
          (s.cores core = .storing → s.percpus.getCpu (slot aps bspApicId core) = none) ∧
          (s.cores core = .counting ∨ s.cores core = .registered →
            s.percpus.getCpu (slot aps bspApicId core) = some (perCpu aps bspApicId core)) := by
  intro bspApicId aps
  have hroom : aps.length < PerCpus.maxCpus :=
    MadtInfo.length_enabledAps_lt hnodup (LocalApic.id_lt raw)
  have hindex : ∀ i < aps.length, (BootEnv.cpuIndex i).toNat = i + 1 :=
    fun i hi => toNat_cpuIndex hroom ⟨i, hi⟩
  refine ⟨fun i hi => ?_, fun i hi j hj hne heq => ?_, fun i hi heq => ?_, ?_⟩
  · have hlt : i + 1 < 256 := Nat.lt_of_le_of_lt hi hroom
    rw [hindex i hi]
    omega
  · have hnat := congrArg BitVec.toNat heq
    rw [hindex i hi, hindex j hj] at hnat
    omega
  · have hnat := congrArg BitVec.toNat heq
    rw [hindex i hi] at hnat
    cases hnat
  · intro cores s hrun core
    have hfinds := init_inv.run hroom hrun core
    rw [PerCpus.getCpu_of_lt (slot_lt hroom core)]
    cases hpc : s.cores core <;> rw [hpc] at hfinds
    case panicked => exact hfinds.elim
    case storing => exact ⟨nofun, fun _ => hfinds, nofun⟩
    case counting | registered => exact ⟨nofun, nofun, fun _ => hfinds⟩

/-- All ids that there are, the boot processor's among them. -/
def fullMadt : MadtInfo where
  localApics := (List.range 256).map fun k => ⟨BitVec.ofNat 8 k, BitVec.ofNat 8 k, true⟩

theorem nodup_fullMadt (bspApicId : BitVec 32) :
    ((fullMadt.enabledAps bspApicId).map MadtLocalApic.apicId).Nodup := by
  have hall : (fullMadt.localApics.map MadtLocalApic.apicId).Nodup := by
    rw [fullMadt, List.map_map]
    refine List.Nodup.map_on (fun i hi j hj h => ?_) List.nodup_range
    have hnat := congrArg BitVec.toNat h
    rw [List.mem_range] at hi hj
    simp only [Function.comp_apply, BitVec.toNat_ofNat] at hnat
    omega
  exact hall.sublist (List.filter_sublist.map _)

theorem length_fullMadt : (fullMadt.enabledAps (LocalApic.id 0)).length = 255 := by
  decide +kernel

/-- The last of 255 APs registers in the last slot. -/
theorem indices_fit_full :
    let aps := fullMadt.enabledAps (LocalApic.id 0)
    let core : Core aps := some ⟨254, by rw [length_fullMadt]; decide⟩
    slot aps (LocalApic.id 0) core = 255 ∧ ∃ s,
      run (step aps (LocalApic.id 0)) (init aps) [core, core] = some s ∧
        s.percpus.getCpu 255 = some (perCpu aps (LocalApic.id 0) core) := by
  intro aps core
  obtain ⟨-, -, -, hruns⟩ := indices_fit fullMadt 0 (nodup_fullMadt _)
  have hslot : slot aps (LocalApic.id 0) core = 255 := rfl
  let s : State aps :=
    ⟨(init aps).percpus.store (perCpu aps (LocalApic.id 0) core),
      Function.update (init aps).cores core .counting⟩
  have hfirst : step aps (LocalApic.id 0) (init aps) core = some s :=
    step_storing rfl (hslot ▸ by decide)
  have hcounting : s.cores core = .counting :=
    Function.update_self core Pc.counting (init aps).cores
  have hsecond : step aps (LocalApic.id 0) s core =
      some ⟨s.percpus.incrCount, Function.update s.cores core .registered⟩ :=
    step_counting hcounting
  have hrun := run_cons_eq_some.mpr ⟨s, hfirst, (run_singleton ..).trans hsecond⟩
  have hcore : Function.update s.cores core .registered core = .registered :=
    Function.update_self ..
  exact ⟨hslot, _, hrun, hslot ▸ (hruns _ _ hrun core).2.2 (.inr hcore)⟩

end SmpNostd.Indices
