import SmpNostd.Driver.Sending

/-!
Halting the APs (`halt_aps` in `driver.rs`, and the idle loop of `ap_entry`).

The sender sets a flag and sends an IPI to every AP. An AP that finds the flag
set disables its interrupts and halts; whatever wakes it lets it go on behind
its `hlt` with the idle loop, which begins with enabling interrupts.
-/

namespace SmpNostd

open Machine LocalApic

/-! ### The sender -/

namespace System

/-- Request all APs to halt. -/
def haltAps (s : System) : System :=
  s.ctrl.haltTargets.foldl (fun s i => s.ipiSend i 0x02) { s with apHalt := true }

/-- From `s` to `t`, one NMI has been sent to every core but the first, in order,
and nothing else. -/
def NmiToAps (s t : System) : Prop :=
  ∃ ipis, t.sent = s.sent ++ ipis ∧
    List.Forall₂ (fun c (ipi : Ipi) => ∃ cpu, s.percpus.getCpu c = some cpu ∧
      ipi.dest = cpu.apicId ∧ ipi.deliveryMode = deliveryNmi)
      (List.range' 1 (s.ctrl.numCores - 1)) ipis

variable {s : System}

/-- The loop sends every core in turn a fixed IPI. -/
theorem Ready.foldl_ipiSend (hs : s.Ready) {targets : List ℕ}
    (htargets : ∀ c ∈ targets, c < s.ctrl.numCores) (vector : BitVec 8) :
    ∃ ipis, (targets.foldl (fun s i => s.ipiSend i vector) s).sent = s.sent ++ ipis ∧
      List.Forall₂ (fun c (ipi : Ipi) => ∃ cpu, s.percpus.getCpu c = some cpu ∧
        ipi = fixedIpi cpu.apicId vector) targets ipis := by
  induction targets generalizing s with
  | nil => exact ⟨[], (List.append_nil _).symm, .nil⟩
  | cons c targets ih =>
      obtain ⟨hc, htargets⟩ := List.forall_mem_cons.mp htargets
      obtain ⟨cpu, hcpu, hsent⟩ := hs.sent_ipiSend hc vector
      have hctrl := ipiSend_ctrl s c vector
      obtain ⟨ipis, hrest, hall⟩ := ih (hs.ipiSend c vector) (by rwa [hctrl])
      rw [ipiSend_percpus] at hall
      refine ⟨fixedIpi cpu.apicId vector :: ipis, ?_, .cons ⟨cpu, hcpu, rfl⟩ hall⟩
      rw [List.foldl_cons, hrest, hsent, List.append_assoc, List.singleton_append]

/-- A fixed IPI is no NMI, so the APs are sent NMIs only if there are none. -/
theorem Ready.nmiToAps_iff (hs : s.Ready) : NmiToAps s s.haltAps ↔ s.ctrl.numCores = 1 := by
  have hready : Ready { s with apHalt := true } := hs.congr rfl rfl
  have htargets : ∀ c ∈ s.ctrl.haltTargets, c < s.ctrl.numCores := by
    intro c hc
    rw [SmpController.haltTargets, List.mem_range'_1] at hc
    omega
  obtain ⟨ipis, hsent, hall⟩ := hready.foldl_ipiSend htargets 0x02
  rw [SmpController.haltTargets] at hall
  have hcores := hs.cores
  constructor
  · rintro ⟨nmis, hnmis, hnmi⟩
    obtain rfl := List.append_cancel_left (hnmis.symm.trans hsent)
    by_contra hne
    obtain ⟨n, hn⟩ : ∃ n, s.ctrl.numCores - 1 = n + 1 :=
      Nat.exists_eq_succ_of_ne_zero (by omega)
    rw [hn, List.range'_succ] at hall hnmi
    obtain ⟨ipi, ipis, ⟨cpu, -, rfl⟩, -, rfl⟩ := List.forall₂_cons_left_iff.mp hall
    obtain ⟨⟨_, -, -, hmode⟩, -⟩ := List.forall₂_cons.mp hnmi
    rw [deliveryMode_fixedIpi] at hmode
    exact absurd hmode (by decide)
  · intro hone
    rw [hone] at hall
    obtain rfl := List.forall₂_nil_left_iff.mp hall
    exact ⟨[], hsent, by rw [hone]; exact .nil⟩

end System

/-! ### The idle loop -/

namespace IdleLoop

/-- The instruction that an AP executes next; if it is halted, the `hlt` that it
has executed. -/
inductive Pc
  /-- `AP_HALT.load`. -/
  | load
  /-- The `cli` and the `hlt` of an AP that has found the flag set. -/
  | cliHalt
  | hltHalt
  | sti
  | hlt
  | cli
  deriving DecidableEq, Repr

structure State where
  pc : Pc
  halted : Bool
  /-- IF, the interrupt flag. -/
  enabled : Bool
  /-- Interrupts are held off until after the instruction that follows `sti`. -/
  shadow : Bool
  apHalt : Bool
  /-- The AP has found the flag set. -/
  observed : Bool
  deriving DecidableEq, Repr

inductive Label
  | exec
  /-- A maskable interrupt, with its handler. -/
  | interrupt
  | nmi
  /-- `halt_aps` sets the flag. -/
  | setHalt
  deriving DecidableEq, Repr

/-- The AP comes into the loop with interrupts disabled. -/
def start (apHalt : Bool) : State where
  pc := .load
  halted := false
  enabled := false
  shadow := false
  apHalt := apHalt
  observed := false

/-- The handler of an interrupt returns behind the `hlt` that has been waiting
for one. -/
def State.wake (s : State) : State :=
  if s.halted then { s with halted := false, pc := if s.pc = .hltHalt then .sti else .cli } else s

/-- The next instruction. -/
def exec (s : State) : State :=
  match s.pc with
  | .load => if s.apHalt then { s with pc := .cliHalt, observed := true } else { s with pc := .sti }
  | .cliHalt => { s with pc := .hltHalt, enabled := false }
  | .hltHalt => { s with halted := true, shadow := false }
  | .sti => { s with pc := .hlt, enabled := true, shadow := true }
  | .hlt => { s with halted := true, shadow := false }
  | .cli => { s with pc := .load, enabled := false, shadow := false }

def step (s : State) : Label → Option State
  | .exec => if s.halted then none else some (exec s)
  | .interrupt => if s.enabled && !s.shadow then some s.wake else none
  | .nmi => some { s with shadow := false }.wake
  | .setHalt => some { s with apHalt := true }

/-- An AP that has found the flag set does not execute with interrupts enabled. -/
def Off (s : State) : Prop := s.observed = true → s.halted = true ∨ s.enabled = false

instance : DecidablePred Off := fun s =>
  inferInstanceAs (Decidable (s.observed = true → s.halted = true ∨ s.enabled = false))

/-- In no state of the run, and in none that the AP can get to from its end by
itself, does it execute with interrupts enabled after it has found the flag set. -/
def StaysOff (s : State) (as : List Label) : Prop :=
  ∀ n, Throughout step Off s (as ++ List.replicate n .exec)

/-- It is no NMI that reaches an AP in the `hlt` behind its `cli`. -/
def NoNmiInHalt (s : State) : Label → Prop
  | .nmi => ¬(s.halted = true ∧ s.pc = .hltHalt)
  | .exec | .interrupt | .setHalt => True

instance (s : State) : ∀ l, Decidable (NoNmiInHalt s l)
  | .nmi => inferInstanceAs (Decidable (¬(s.halted = true ∧ s.pc = .hltHalt)))
  | .exec | .interrupt | .setHalt => isTrue trivial

variable {s t : State} {l : Label} {as : List Label}

/-- An AP that has not been woken by an NMI after its last `cli`. -/
structure Inv (s : State) : Prop where
  enabled : s.enabled = true → s.pc = .hlt ∨ s.pc = .cli
  halted : s.halted = true → s.pc = .hlt ∨ s.pc = .hltHalt
  observed : s.observed = true ↔ s.pc = .cliHalt ∨ s.pc = .hltHalt

theorem start_inv (apHalt : Bool) : Inv (start apHalt) := ⟨nofun, nofun, by simp [start]⟩

theorem Inv.off (h : Inv s) : Off s := by
  intro hobserved
  refine .inr (Bool.eq_false_iff.mpr fun henabled => ?_)
  obtain hpc | hpc := h.enabled henabled <;> obtain hpc' | hpc' := h.observed.mp hobserved <;>
    rw [hpc] at hpc' <;> cases hpc'

/-- Waking from the `hlt` of the loop. -/
theorem Inv.wake (h : Inv s) (hpc : s.halted = true → s.pc ≠ .hltHalt) : Inv s.wake := by
  unfold State.wake
  split
  case isTrue hhalted =>
    have hhlt := (h.halted hhalted).resolve_right (hpc hhalted)
    have hobserved := h.observed
    rw [hhlt] at hobserved
    exact ⟨fun _ => .inr (by simp [hhlt]), nofun, by simp [hhlt, hobserved]⟩
  case isFalse => exact h

theorem Inv.exec (h : Inv s) (hhalted : s.halted = false) : Inv (exec s) := by
  obtain ⟨henabled, -, hobserved⟩ := h
  cases hpc : s.pc with
  | load =>
      simp only [IdleLoop.exec, hpc]
      split <;> constructor <;> simp_all
  | cliHalt | hltHalt | sti | hlt | cli =>
      simp only [IdleLoop.exec, hpc]
      constructor <;> simp_all

theorem Inv.step (h : Inv s) (hquiet : NoNmiInHalt s l) (hstep : step s l = some t) : Inv t := by
  cases l with
  | exec =>
      simp only [IdleLoop.step, Option.ite_none_left_eq_some, Bool.not_eq_true,
        Option.some.injEq] at hstep
      obtain ⟨hhalted, rfl⟩ := hstep
      exact h.exec hhalted
  | interrupt =>
      simp only [IdleLoop.step, Option.ite_none_right_eq_some, Bool.and_eq_true,
        Option.some.injEq] at hstep
      obtain ⟨⟨henabled, -⟩, rfl⟩ := hstep
      -- interrupts are disabled in the other `hlt`
      refine h.wake fun _ hpc => ?_
      obtain hpc' | hpc' := h.enabled henabled <;> rw [hpc] at hpc' <;> cases hpc'
  | nmi =>
      obtain rfl := Option.some.inj hstep
      have hinv : Inv { s with shadow := false } := ⟨h.enabled, h.halted, h.observed⟩
      exact hinv.wake fun hhalted hpc => hquiet ⟨hhalted, hpc⟩
  | setHalt =>
      obtain rfl := Option.some.inj hstep
      exact ⟨h.enabled, h.halted, h.observed⟩

theorem Inv.staysOff_exec (h : Inv s) (n : ℕ) :
    Throughout IdleLoop.step Off s (List.replicate n .exec) := by
  induction n generalizing s with
  | zero => exact h.off
  | succ n ih => exact ⟨h.off, fun t ht => ih (h.step (l := .exec) trivial ht)⟩

theorem Inv.staysOff (h : Inv s) (hquiet : StepsMeet IdleLoop.step NoNmiInHalt s as) :
    StaysOff s as := by
  intro n
  induction as generalizing s with
  | nil => exact h.staysOff_exec n
  | cons l as ih => exact ⟨h.off, fun t ht => ih (h.step hquiet.1 ht) (hquiet.2 t ht)⟩

theorem exec_sti (hpc : s.pc = .sti) (hhalted : s.halted = false) :
    step s .exec = some { s with pc := .hlt, enabled := true, shadow := true } := by
  simp [step, exec, hpc, hhalted]

theorem not_off_of_enabled (hobserved : s.observed = true) (hhalted : s.halted = false)
    (henabled : s.enabled = true) : ¬Throughout step Off s as := by
  intro hoff
  obtain h | h := hoff.head hobserved
  · exact absurd (hhalted.symm.trans h) (by decide)
  · exact absurd (henabled.symm.trans h) (by decide)

/-- Woken by an NMI, the AP enables interrupts as soon as it executes on. -/
theorem not_off_of_sti (hpc : s.pc = .sti) (hhalted : s.halted = false)
    (hobserved : s.observed = true) (hrun : run step s as = some t) :
    ¬Throughout step Off s (as ++ [.exec]) := by
  intro hoff
  induction as generalizing s with
  | nil =>
      have hon := hoff.2 _ (exec_sti hpc hhalted)
      exact absurd hon (not_off_of_enabled hobserved hhalted rfl)
  | cons l as ih =>
      obtain ⟨m, hm, hrest⟩ := run_cons_eq_some.mp hrun
      cases l with
      | exec =>
          have hon := hoff.2 _ (exec_sti hpc hhalted)
          exact absurd hon (not_off_of_enabled hobserved hhalted rfl)
      | interrupt =>
          have henabled := (hoff.head hobserved).resolve_left (by simp [hhalted])
          simp [step, henabled] at hm
      | nmi =>
          have hwake : step s .nmi = some { s with shadow := false } := by
            simp [step, State.wake, hhalted]
          obtain rfl := Option.some.inj (hwake.symm.trans hm)
          exact ih (s := { s with shadow := false }) hpc hhalted hobserved hrest (hoff.2 _ hwake)
      | setHalt =>
          obtain rfl := Option.some.inj hm
          exact ih (s := { s with apHalt := true }) hpc hhalted hobserved hrest (hoff.2 _ rfl)

theorem Inv.staysOff_iff (h : Inv s) (hrun : run IdleLoop.step s as = some t) :
    StaysOff s as ↔ StepsMeet IdleLoop.step NoNmiInHalt s as := by
  refine ⟨fun hoff => ?_, h.staysOff⟩
  induction as generalizing s with
  | nil => trivial
  | cons l as ih =>
      obtain ⟨m, hm, hrest⟩ := run_cons_eq_some.mp hrun
      have hoff' : StaysOff m as := fun n => (hoff n).2 m hm
      rw [stepsMeet_cons hm]
      have hquiet : NoNmiInHalt s l := by
        cases l with
        | nmi =>
            rintro ⟨hhalted, hpc⟩
            have hwake : m = { s with shadow := false, halted := false, pc := .sti } := by
              simpa [IdleLoop.step, State.wake, hhalted, hpc] using hm.symm
            have hobserved : s.observed = true := h.observed.mpr (.inr hpc)
            have hpc' : m.pc = .sti := by rw [hwake]
            have hhalted' : m.halted = false := by rw [hwake]
            have hobserved' : m.observed = true := by rw [hwake]; exact hobserved
            exact not_off_of_sti hpc' hhalted' hobserved' hrest (hoff' 1)
        | exec | interrupt | setHalt => trivial
      exact ⟨hquiet, ih (h.step hquiet hm) hrest hoff'⟩

end IdleLoop

/-! ### Effective and permanent -/

open IdleLoop in
/-- **Halting the APs.** The APs are sent NMIs only if there are none. An AP that
has found the flag set stays off exactly if no NMI reaches it in the `hlt` behind
its `cli`. -/
theorem halt_aps_iff (s : System) (hs : s.Ready) (apHalt : Bool) (as : List IdleLoop.Label)
    (t : IdleLoop.State) (hrun : run IdleLoop.step (start apHalt) as = some t) :
    (System.NmiToAps s s.haltAps ↔ s.ctrl.numCores = 1) ∧
      (StaysOff (start apHalt) as ↔ StepsMeet IdleLoop.step NoNmiInHalt (start apHalt) as) :=
  ⟨hs.nmiToAps_iff, (start_inv apHalt).staysOff_iff hrun⟩

/-- One core, and an AP that finds the flag set and is then sent an NMI before it
has halted. -/
theorem halt_aps_iff_one_core :
    let s : System := ⟨⟨0, 0, 1, none, some (.new 1), true⟩, PerCpus.empty.store ⟨0, 0, true⟩,
      ⟨0, 0⟩, 1, false, []⟩
    s.Ready ∧ System.NmiToAps s s.haltAps ∧
      IdleLoop.StaysOff (IdleLoop.start false)
        [.exec, .exec, .setHalt, .exec, .interrupt, .exec, .exec, .exec, .nmi, .exec] := by
  intro s
  have hs : s.Ready := by
    refine ⟨rfl, ⟨_, rfl, rfl, rfl⟩, by decide, fun c hc => ?_⟩
    obtain rfl : c = 0 := Nat.lt_one_iff.mp hc
    exact ⟨⟨0, 0, true⟩, 0, rfl, rfl⟩
  have h := halt_aps_iff s hs false
    [.exec, .exec, .setHalt, .exec, .interrupt, .exec, .exec, .exec, .nmi, .exec] _ rfl
  exact ⟨hs, h.1.mpr rfl, h.2.mpr (by decide)⟩

/-- The IPI to the one AP is a fixed one with vector 2; and an AP that has found
the flag set and halted is woken by an NMI and enables interrupts. -/
theorem halted_ap_wakes :
    let s : System := ⟨⟨0, 1, 2, none, some (.new 2), true⟩,
      (PerCpus.empty.store ⟨0, 0, true⟩).store ⟨1, 1, false⟩, ⟨0, 0⟩, 1, false, []⟩
    s.haltAps.sent = [⟨1, 0x02⟩] ∧ (Ipi.mk 1 0x02).deliveryMode = deliveryFixed ∧
      ¬System.NmiToAps s s.haltAps ∧
      ¬IdleLoop.StaysOff (IdleLoop.start true) [.exec, .exec, .exec, .nmi] := by
  intro s
  have hs : s.Ready :=
    ⟨rfl, ⟨_, rfl, rfl, rfl⟩, by decide, fun _ hc => System.registered_two hc⟩
  refine ⟨by decide, by decide, fun h => ?_, fun h => ?_⟩
  · exact absurd (hs.nmiToAps_iff.mp h) (by decide)
  · exact absurd (h 1) (by decide)

end SmpNostd
