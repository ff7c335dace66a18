import Mathlib.Data.Finset.Basic
import SmpNostd.Driver.Halt

/-!
Waking up an idle AP (the idle loop of `ap_entry` in `driver.rs`).

The AP tests `AP_HALT` with interrupts disabled and sleeps in a `hlt` right
behind the `sti` that enables them. An interrupt that its local APIC accepts
anywhere in the loop is kept in the request register until it can be taken. It
is not taken between `sti` and `hlt`, where the AP is going to sleep without
another look at the flag; it wakes the AP instead. So whoever sets the flag
first and then sends an interrupt is noticed, unless an NMI comes between the
`sti` and the `hlt`: behind its handler the interrupt is taken at once, and the
AP goes to sleep.
-/

namespace SmpNostd.Wakeup

open Machine

/-- The AP in its idle loop, and the vectors that its local APIC has accepted and
that it has not taken yet. -/
structure State where
  core : IdleLoop.State
  irr : Finset (BitVec 8)
  deriving DecidableEq

inductive Label
  | exec
  /-- The AP takes an interrupt. -/
  | interrupt (vector : BitVec 8)
  | nmi
  /-- Somebody sets `AP_HALT`. -/
  | setHalt
  /-- The local APIC accepts an interrupt. -/
  | accept (vector : BitVec 8)
  deriving DecidableEq, Repr

/-- The AP comes into the loop with interrupts disabled. -/
def start (apHalt : Bool) (irr : Finset (BitVec 8)) : State := ⟨IdleLoop.start apHalt, irr⟩

/-- The AP takes an interrupt before it executes another instruction. -/
def State.Takes (s : State) : Prop :=
  s.core.enabled = true ∧ s.core.shadow = false ∧ s.irr.Nonempty

instance (s : State) : Decidable s.Takes := inferInstanceAs (Decidable (_ ∧ _ ∧ _))

def step (s : State) : Label → Option State
  | .exec =>
      if s.Takes then none
      else (IdleLoop.step s.core .exec).map fun core => { s with core := core }
  | .interrupt vector =>
      if vector ∈ s.irr then
        (IdleLoop.step s.core .interrupt).map fun core => ⟨core, s.irr.erase vector⟩
      else none
  | .nmi => (IdleLoop.step s.core .nmi).map fun core => { s with core := core }
  | .setHalt => (IdleLoop.step s.core .setHalt).map fun core => { s with core := core }
  | .accept vector => some { s with irr := insert vector s.irr }

/-- It is no NMI that reaches the AP between `sti` and `hlt`. -/
def NoNmiInShadow (s : State) : Label → Prop
  | .nmi => s.core.shadow = false
  | .exec | .interrupt _ | .setHalt | .accept _ => True

instance (s : State) : ∀ l, Decidable (NoNmiInShadow s l)
  | .nmi => inferInstanceAs (Decidable (s.core.shadow = false))
  | .exec | .interrupt _ | .setHalt | .accept _ => isTrue trivial

variable {s t : State} {l : Label} {as bs : List Label}

/-! ### Where the AP is in the loop -/

/-- Interrupts are enabled from `sti` to `cli`, and held off only before `hlt`. -/
structure Inv (c : IdleLoop.State) : Prop where
  enabled : c.enabled = true ↔ c.pc = .hlt ∨ c.pc = .cli
  shadow : c.shadow = true ↔ c.pc = .hlt ∧ c.halted = false
  halted : c.halted = true → c.pc = .hlt ∨ c.pc = .hltHalt
  observed : c.pc = .cliHalt ∨ c.pc = .hltHalt → c.observed = true

theorem start_inv (apHalt : Bool) : Inv (IdleLoop.start apHalt) := by
  constructor <;> simp [IdleLoop.start]

theorem Inv.exec {c : IdleLoop.State} (h : Inv c) (hhalted : c.halted = false) :
    Inv (IdleLoop.exec c) := by
  obtain ⟨henabled, hshadow, -, hobserved⟩ := h
  cases hpc : c.pc with
  | load =>
      simp only [IdleLoop.exec, hpc]
      split <;> constructor <;> simp_all
  | cliHalt | hltHalt | sti | hlt | cli =>
      simp only [IdleLoop.exec, hpc]
      constructor <;> simp_all

/-- The handler of an interrupt or an NMI that is not held off returns. -/
theorem Inv.wake {c : IdleLoop.State} (h : Inv c) (hshadow : c.shadow = false) : Inv c.wake := by
  obtain ⟨henabled, hshadow', hhalted, hobserved⟩ := h
  unfold IdleLoop.State.wake
  split
  case isTrue hsleeps =>
    obtain hpc | hpc := hhalted hsleeps <;> constructor <;> simp_all
  case isFalse => exact ⟨henabled, hshadow', hhalted, hobserved⟩

/-- What one step does to the AP. -/
inductive Steps (s : State) : Label → State → Prop
  | exec (hquiet : ¬s.Takes) (hawake : s.core.halted = false) :
      Steps s .exec { s with core := IdleLoop.exec s.core }
  | interrupt {vector} (hmem : vector ∈ s.irr) (henabled : s.core.enabled = true)
      (hshadow : s.core.shadow = false) :
      Steps s (.interrupt vector) ⟨s.core.wake, s.irr.erase vector⟩
  | nmi : Steps s .nmi { s with core := { s.core with shadow := false }.wake }
  | setHalt : Steps s .setHalt { s with core := { s.core with apHalt := true } }
  | accept {vector} : Steps s (.accept vector) { s with irr := insert vector s.irr }

theorem step_cases (h : step s l = some t) : Steps s l t := by
  cases l with
  | exec =>
      simp only [step, IdleLoop.step, Option.ite_none_left_eq_some, Option.map_eq_some_iff,
        Bool.not_eq_true, Option.some.injEq] at h
      obtain ⟨hquiet, core, ⟨hawake, rfl⟩, rfl⟩ := h
      exact .exec hquiet hawake
  | interrupt vector =>
      simp only [step, IdleLoop.step, Option.ite_none_right_eq_some, Option.map_eq_some_iff,
        Bool.and_eq_true, Bool.not_eq_true', Option.some.injEq] at h
      obtain ⟨hmem, core, ⟨⟨henabled, hshadow⟩, rfl⟩, rfl⟩ := h
      exact .interrupt hmem henabled hshadow
  | nmi =>
      obtain rfl := Option.some.inj h
      exact .nmi
  | setHalt =>
      obtain rfl := Option.some.inj h
      exact .setHalt
  | accept vector =>
      obtain rfl := Option.some.inj h
      exact .accept

/-- Outside the shadow there is nothing for an NMI to end. -/
theorem clear_shadow {c : IdleLoop.State} (h : c.shadow = false) :
    { c with shadow := false } = c := by
  obtain ⟨⟩ := c
  cases h
  rfl

theorem Inv.step (h : Inv s.core) (hquiet : NoNmiInShadow s l) (hstep : step s l = some t) :
    Inv t.core := by
  cases step_cases hstep with
  | exec _ hawake => exact h.exec hawake
  | interrupt _ _ hshadow => exact h.wake hshadow
  | nmi =>
      rw [clear_shadow hquiet]
      exact h.wake hquiet
  | setHalt => exact ⟨h.enabled, h.shadow, h.halted, h.observed⟩
  | accept => exact h

/-! ### Interrupts lead back to the flag -/

/-- The AP is going to test the flag before it sleeps again, or will be kept from
sleeping by an interrupt. -/
structure Owed (s : State) : Prop where
  inv : Inv s.core
  flag : s.core.apHalt = true
  back : s.core.pc = .load ∨ s.core.pc = .cli ∨ s.irr.Nonempty

/-- How many instructions the AP executes before the test of the flag, when it
does not sleep on. -/
def distance (c : IdleLoop.State) : ℕ :=
  match c.pc with
  | .load | .cliHalt | .hltHalt => 0
  | .cli => 1
  | .hlt => if c.halted then 1 else 2
  | .sti => 3

/-- An AP that has not found the flag set is not in the part of the loop behind
it. -/
theorem Inv.not_behind {c : IdleLoop.State} (h : Inv c) (hobserved : c.observed = false) :
    c.pc ≠ .cliHalt ∧ c.pc ≠ .hltHalt := by
  constructor <;> intro hpc
  · exact absurd ((h.observed (.inl hpc)).symm.trans hobserved) (by decide)
  · exact absurd ((h.observed (.inr hpc)).symm.trans hobserved) (by decide)

/-- An interrupt or an NMI that is taken finds the AP in the `hlt` of the loop,
or does not change where it is. -/
theorem Inv.wake_cases {c : IdleLoop.State} (h : Inv c) (hobserved : c.observed = false) :
    c.halted = true ∧ c.pc = .hlt ∧ c.wake = { c with halted := false, pc := .cli } ∨
      c.halted = false ∧ c.wake = c := by
  cases hhalted : c.halted with
  | true =>
      have hpc : c.pc = .hlt := (h.halted hhalted).resolve_right (h.not_behind hobserved).2
      exact .inl ⟨rfl, hpc, by simp [IdleLoop.State.wake, hhalted, hpc]⟩
  | false => exact .inr ⟨rfl, by simp [IdleLoop.State.wake, hhalted]⟩

/-- A step of the AP or of anybody else. -/
theorem Owed.step (h : Owed s) (hquiet : NoNmiInShadow s l) (hobserved : s.core.observed = false)
    (hstep : step s l = some t) :
    t.core.observed = true ∨
      Owed t ∧ distance t.core + (if l == .exec then 1 else 0) ≤ distance s.core := by
  have hinv := h.inv.step hquiet hstep
  obtain ⟨hnotCli, hnotHlt⟩ := h.inv.not_behind hobserved
  cases step_cases hstep with
  | exec _ hawake =>
      cases hpc : s.core.pc with
      | load => exact .inl (by simp [IdleLoop.exec, hpc, h.flag])
      | cliHalt => exact absurd hpc hnotCli
      | hltHalt => exact absurd hpc hnotHlt
      | sti | hlt =>
          have hback : s.irr.Nonempty := by simpa [hpc] using h.back
          refine .inr ⟨⟨hinv, ?_, .inr (.inr hback)⟩, ?_⟩
          · simpa [IdleLoop.exec, hpc] using h.flag
          · simp [IdleLoop.exec, hpc, distance, hawake]
      | cli =>
          refine .inr ⟨⟨hinv, ?_, .inl ?_⟩, ?_⟩
          · simpa [IdleLoop.exec, hpc] using h.flag
          · simp [IdleLoop.exec, hpc]
          · simp [IdleLoop.exec, hpc, distance]
  | interrupt _ henabled hshadow =>
      right
      obtain ⟨hhalted, hpc, hwake⟩ | ⟨hawake, hwake⟩ := h.inv.wake_cases hobserved
      · rw [hwake] at hinv ⊢
        exact ⟨⟨hinv, h.flag, .inr (.inl rfl)⟩, by simp [distance, hpc, hhalted]⟩
      · -- with interrupts enabled and not held off, an AP that is awake is at `cli`
        have hpc : s.core.pc = .cli := by
          refine (h.inv.enabled.mp henabled).resolve_left fun hpc => ?_
          have hheld := h.inv.shadow.mpr ⟨hpc, hawake⟩
          exact absurd (hheld.symm.trans hshadow) (by decide)
        rw [hwake] at hinv ⊢
        exact ⟨⟨hinv, h.flag, .inr (.inl hpc)⟩, by simp⟩
  | nmi =>
      right
      rw [clear_shadow hquiet] at hinv ⊢
      obtain ⟨hhalted, hpc, hwake⟩ | ⟨-, hwake⟩ := h.inv.wake_cases hobserved
      · rw [hwake] at hinv ⊢
        exact ⟨⟨hinv, h.flag, .inr (.inl rfl)⟩, by simp [distance, hpc, hhalted]⟩
      · rw [hwake] at hinv ⊢
        exact ⟨⟨hinv, h.flag, h.back⟩, by simp⟩
  | setHalt => exact .inr ⟨⟨hinv, rfl, h.back⟩, by simp [distance]⟩
  | accept =>
      refine .inr ⟨⟨hinv, h.flag, ?_⟩, by simp⟩
      exact h.back.imp_right (Or.imp_right fun hirr => hirr.mono (Finset.subset_insert ..))

/-- What the AP has found stays found. -/
theorem observed_of_step (h : s.core.observed = true) (hstep : step s l = some t) :
    t.core.observed = true := by
  have hwake : ∀ c : IdleLoop.State, c.wake.observed = c.observed := by
    intro c
    unfold IdleLoop.State.wake
    split <;> rfl
  cases step_cases hstep with
  | exec =>
      cases hpc : s.core.pc with
      | load =>
          simp only [IdleLoop.exec, hpc]
          split
          · rfl
          · exact h
      | cliHalt | hltHalt | sti | hlt | cli => simpa [IdleLoop.exec, hpc] using h
  | interrupt => exact (hwake _).trans h
  | nmi => exact (hwake _).trans h
  | setHalt => exact h
  | accept => exact h

/-- An AP that has not found the flag set can go on. -/
theorem Owed.can_move (h : Owed s) (hobserved : s.core.observed = false) :
    ∃ t, Wakeup.step s .exec = some t ∨
      ∃ vector, Wakeup.step s (.interrupt vector) = some t := by
  by_cases htakes : s.Takes
  · obtain ⟨henabled, hshadow, vector, hmem⟩ := htakes
    refine ⟨⟨s.core.wake, s.irr.erase vector⟩, .inr ⟨vector, ?_⟩⟩
    simp [Wakeup.step, hmem, IdleLoop.step, henabled, hshadow]
  · have hawake : s.core.halted = false := by
      by_contra hhalted
      have hhalted : s.core.halted = true := by simpa using hhalted
      have hpc := (h.inv.halted hhalted).resolve_right (h.inv.not_behind hobserved).2
      refine htakes ⟨h.inv.enabled.mpr (.inl hpc), ?_, ?_⟩
      · by_contra hshadow
        have hawake := (h.inv.shadow.mp (by simpa using hshadow)).2
        exact absurd (hhalted.symm.trans hawake) (by decide)
      · simpa [hpc] using h.back
    refine ⟨{ s with core := IdleLoop.exec s.core }, .inl ?_⟩
    simp [Wakeup.step, htakes, IdleLoop.step, hawake]

theorem distance_le (c : IdleLoop.State) : distance c ≤ 3 := by
  unfold distance
  cases c.pc with
  | load | cliHalt | hltHalt | sti | cli => simp
  | hlt =>
      dsimp only
      split <;> omega

/-- An AP that has been woken finds the flag set, or can go on until it does. -/
theorem Owed.run (h : Owed s ∨ s.core.observed = true) (hrun : run Wakeup.step s as = some t)
    (hquiet : StepsMeet Wakeup.step NoNmiInShadow s as) :
    Owed t ∨ t.core.observed = true := by
  refine run_invariant_of_stepsMeet (I := fun s : State => Owed s ∨ s.core.observed = true)
    (fun m l m' hm hq hstep => ?_) h hquiet hrun
  by_cases hobserved : m.core.observed = true
  · exact .inr (observed_of_step hobserved hstep)
  · have howed := hm.resolve_right hobserved
    exact (howed.step hq (by simpa using hobserved) hstep).symm.imp_left And.left

/-- An AP that has been woken and has executed four instructions of the loop. -/
theorem Owed.observed (h : Owed s) (hrun : Machine.run Wakeup.step s as = some t)
    (hquiet : StepsMeet Wakeup.step NoNmiInShadow s as) (hcount : 4 ≤ as.count .exec) :
    t.core.observed = true := by
  have hdistance := distance_le s.core
  cases hobserved : s.core.observed with
  | true =>
      exact run_invariant (I := fun s : State => s.core.observed = true)
        (fun _ _ _ => observed_of_step) hobserved hrun
  | false =>
      have hrank : ∀ (m : State) (l : Label) (m' : State), Owed m ∧ m.core.observed = false →
          NoNmiInShadow m l → Wakeup.step m l = some m' → m'.core.observed = true ∨
            (Owed m' ∧ m'.core.observed = false) ∧
              distance m'.core + (if l == .exec then 1 else 0) ≤ distance m.core := by
        rintro m l m' ⟨howed, hnot⟩ hq hstep
        cases hafter : m'.core.observed with
        | true => exact .inl rfl
        | false =>
            have hnext := (howed.step hq hnot hstep).resolve_left (by simp [hafter])
            exact .inr ⟨⟨hnext.1, rfl⟩, hnext.2⟩
      rw [List.count] at hcount
      exact goal_of_rank hrank (fun _ _ _ => observed_of_step) ⟨h, hobserved⟩ hquiet hrun
        (by omega)

/-- **No wake-up is lost.** Whatever an idle AP is doing, when the flag is set and
an interrupt has been accepted, it goes on to find the flag set after at most
four instructions of the loop, and nothing keeps it from going on, provided that
no NMI reaches it between `sti` and `hlt`. -/
theorem wake_up_not_lost {apHalt : Bool} {irr : Finset (BitVec 8)} {vector : BitVec 8}
    (hrun : run step (start apHalt irr) as = some s)
    (hquiet : StepsMeet step NoNmiInShadow (start apHalt irr) as)
    (hflag : s.core.apHalt = true) (haccepted : vector ∈ s.irr)
    (hmore : run step s bs = some t) (hquiet' : StepsMeet step NoNmiInShadow s bs) :
    (4 ≤ bs.count .exec → t.core.observed = true) ∧
    (t.core.observed = false →
      ∃ t', step t .exec = some t' ∨ ∃ v, step t (.interrupt v) = some t') := by
  have hinv : Inv s.core := run_invariant_of_stepsMeet (I := fun s : State => Inv s.core)
    (fun _ _ _ h hq hstep => h.step hq hstep) (start_inv apHalt) hquiet hrun
  have howed : Owed s := ⟨hinv, hflag, .inr (.inr ⟨vector, haccepted⟩)⟩
  refine ⟨howed.observed hmore hquiet', fun hobserved => ?_⟩
  obtain hlater | hfound := Owed.run (.inl howed) hmore hquiet'
  · exact hlater.can_move hobserved
  · exact absurd (hobserved.symm.trans hfound) (by decide)

/-- The flag is set and the interrupt accepted when the AP has just found the flag
clear; other interrupts come before it wakes up. -/
theorem wake_up_not_lost_late :
    let as : List Label := [.exec, .setHalt, .accept 0xFE]
    let bs : List Label :=
      [.exec, .accept 0x20, .exec, .interrupt 0x20, .interrupt 0xFE, .exec, .nmi, .exec]
    ∃ s t, run step (start false ∅) as = some s ∧ run step s bs = some t ∧
      t.core.observed = true := by
  intro as bs
  obtain ⟨s, t, hrun, hflag, haccepted, hmore, hquiet⟩ : ∃ s t,
      run step (start false ∅) as = some s ∧ s.core.apHalt = true ∧ (0xFE : BitVec 8) ∈ s.irr ∧
      run step s bs = some t ∧ StepsMeet step NoNmiInShadow s bs :=
    ⟨_, _, rfl, by decide, by decide, rfl, by decide⟩
  have hcount : 4 ≤ bs.count .exec := by decide
  exact ⟨s, t, hrun, hmore,
    (wake_up_not_lost hrun (by decide) hflag haccepted hmore hquiet).1 hcount⟩

/-- An NMI between `sti` and `hlt`: the interrupt is taken before the `hlt`, and the
AP sleeps with the flag set. -/
example : (run step (start false ∅) [.exec, .setHalt, .accept 0xFE, .exec, .nmi,
    .interrupt 0xFE, .exec]).map (fun s => (s.core.halted, s.core.observed, s.irr)) =
      some (true, false, ∅) := by decide

end SmpNostd.Wakeup
