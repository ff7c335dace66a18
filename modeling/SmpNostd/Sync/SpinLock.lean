import SmpNostd.Lib.Bits
import SmpNostd.Lib.Machine
import Mathlib.Logic.Function.Basic
import Mathlib.Tactic.Common

/-!
The interrupt flag and the interrupt-disabling spin lock of `spinlock.rs`.

`lock` and `try_lock` clear the interrupt flag before they look at the lock
word, and the guard they return remembers whether the flag was set. A failing
`try_lock` puts the flag back at once; dropping a guard frees the lock and
then puts the flag back to what that guard remembers, but only in one
direction: `restore_interrupts` enables or does nothing.

The operations are those of any number of cores on any number of locks. A core
is in the middle of at most one of them, nothing else on that core runs in
between, and the flag of a core is touched by that core only; so an operation
is one step, taken when its exchange on the lock word is decided. A `lock` that
finds the lock taken keeps spinning with the flag clear, which is a step that
has not happened yet.
-/

namespace SmpNostd.SpinLock

open Machine

/-! ### Interrupt helpers -/

/-- Bit 9 of RFLAGS. -/
def ifBit : BitVec 64 := BitVec.twoPow 64 9

/-- `interrupts_enabled`, on the value `read_rflags` gives. -/
def interruptsEnabled (rflags : BitVec 64) : Bool := rflags &&& ifBit != 0#64

/-- The `cli` instruction. -/
def cli (rflags : BitVec 64) : BitVec 64 := rflags &&& ~~~ifBit

/-- The `sti` instruction. -/
def sti (rflags : BitVec 64) : BitVec 64 := rflags ||| ifBit

/-- Disable interrupts and return whether they were previously enabled. -/
def disableInterrupts (rflags : BitVec 64) : Bool × BitVec 64 :=
  (interruptsEnabled rflags, cli rflags)

/-- Enable interrupts if they are to be, and leave them alone otherwise. -/
def restoreInterrupts (wasEnabled : Bool) (rflags : BitVec 64) : BitVec 64 :=
  if wasEnabled then sti rflags else rflags

@[simp] theorem interruptsEnabled_cli (r : BitVec 64) : interruptsEnabled (cli r) = false := by
  rw [interruptsEnabled, ifBit, Bits.and_twoPow_ne_zero (by decide), cli, ifBit,
    Bits.getLsbD_clear (by decide), if_pos rfl]

@[simp] theorem interruptsEnabled_sti (r : BitVec 64) : interruptsEnabled (sti r) = true := by
  rw [interruptsEnabled, ifBit, Bits.and_twoPow_ne_zero (by decide), sti, ifBit,
    Bits.getLsbD_set (by decide), if_pos rfl]

/-- Restoring right after disabling gives all of RFLAGS back. -/
@[simp] theorem restoreInterrupts_disableInterrupts (r : BitVec 64) :
    restoreInterrupts (disableInterrupts r).1 (disableInterrupts r).2 = r := by
  have hbit : interruptsEnabled r = r.getLsbD 9 := Bits.and_twoPow_ne_zero (by decide) r
  cases hr : interruptsEnabled r with
  | true =>
      simp only [disableInterrupts, hr, restoreInterrupts, if_true]
      exact Bits.set_clear_of_getLsbD (by decide) (hbit ▸ hr)
  | false =>
      simp only [disableInterrupts, hr, restoreInterrupts, Bool.false_eq_true, if_false]
      exact Bits.clear_of_getLsbD (by decide) (hbit ▸ hr)

/-! ### The lock -/

/-- What a guard of the source holds: the lock, and the flag it saw. -/
structure Guard (L : Type) where
  lock : L
  interruptsWereEnabled : Bool
  deriving DecidableEq, Repr

/-- The lock words, and for each core its RFLAGS and the guards outstanding
on it, the last one acquired first. -/
structure State (C L : Type) where
  locked : L → Bool
  rflags : C → BitVec 64
  guards : C → List (Guard L)

/-- All locks free, no guards, any flags. -/
def start {C : Type} (L : Type) (rflags : C → BitVec 64) : State C L where
  locked _ := false
  rflags := rflags
  guards _ := []

/-- Core `c` gets a lock by `lock`, calls `try_lock`, or drops a guard. -/
inductive Label (C L : Type)
  | lock (c : C) (l : L)
  | tryLock (c : C) (l : L)
  | drop (c : C) (g : Guard L)
  deriving DecidableEq, Repr

variable {C L : Type} [DecidableEq C] [DecidableEq L]

/-- The exchange of `false` for `true` succeeds and core `c` gets a guard that
remembers `was`. -/
def State.acquire (s : State C L) (c : C) (l : L) (was : Bool) : State C L :=
  { s with
    locked := Function.update s.locked l true
    guards := Function.update s.guards c (⟨l, was⟩ :: s.guards c) }

def State.setRflags (s : State C L) (c : C) (r : BitVec 64) : State C L :=
  { s with rflags := Function.update s.rflags c r }

def lock (s : State C L) (c : C) (l : L) : Option (State C L) :=
  let (was, r) := disableInterrupts (s.rflags c)
  let s := s.setRflags c r
  if s.locked l then none else some (s.acquire c l was)

def tryLock (s : State C L) (c : C) (l : L) : State C L :=
  let (was, r) := disableInterrupts (s.rflags c)
  let s := s.setRflags c r
  if s.locked l then s.setRflags c (restoreInterrupts was (s.rflags c))
  else s.acquire c l was

def drop (s : State C L) (c : C) (g : Guard L) : State C L :=
  let s := { s with
    locked := Function.update s.locked g.lock false
    guards := Function.update s.guards c ((s.guards c).erase g) }
  s.setRflags c (restoreInterrupts g.interruptsWereEnabled (s.rflags c))

def step (s : State C L) : Label C L → Option (State C L)
  | .lock c l => lock s c l
  | .tryLock c l => some (tryLock s c l)
  | .drop c g => if g ∈ s.guards c then some (drop s c g) else none

/-- Whether core `c` runs with interrupts enabled. -/
def State.enabled (s : State C L) (c : C) : Bool := interruptsEnabled (s.rflags c)

/-- A failing `try_lock` leaves everything as it was: the lock words, the
guards and all of RFLAGS. -/
theorem tryLock_of_locked {s : State C L} {l : L} (hl : s.locked l = true) (c : C) :
    tryLock s c l = s := by
  have hrestore := restoreInterrupts_disableInterrupts (s.rflags c)
  simp only [tryLock, State.setRflags, hl, if_true, Function.update_self,
    Function.update_idem, hrestore, Function.update_eq_self]

/-- Everything a step can do to core `c`: nothing, because another core made
it or because a `try_lock` failed; one more guard, which remembers the flag
that has just been cleared; or one guard less, which sets the flag if that
guard remembers it set. -/
inductive CoreStep (s s' : State C L) (c : C) (a : Label C L) : Prop
  | same (hdrop : ∀ g, a ≠ .drop c g) (hguards : s'.guards c = s.guards c)
      (hflag : s'.enabled c = s.enabled c)
  | acquire (l : L) (hdrop : ∀ g, a ≠ .drop c g)
      (hguards : s'.guards c = ⟨l, s.enabled c⟩ :: s.guards c)
      (hflag : s'.enabled c = false)
  | drop (g : Guard L) (ha : a = .drop c g) (hmem : g ∈ s.guards c)
      (hguards : s'.guards c = (s.guards c).erase g)
      (hflag : s'.enabled c = (g.interruptsWereEnabled || s.enabled c))

theorem coreStep_acquire {s : State C L} {c d : C} {l : L} {a : Label C L}
    (ha : ∀ g, a ≠ .drop c g) :
    CoreStep s ((s.setRflags d (cli (s.rflags d))).acquire d l (s.enabled d)) c a := by
  by_cases hcd : c = d
  · subst hcd
    refine .acquire l ha ?_ ?_
    · simp [State.acquire, State.setRflags]
    · simp [State.enabled, State.acquire, State.setRflags]
  · refine .same ha ?_ ?_
    · simp [State.acquire, State.setRflags, hcd]
    · simp [State.enabled, State.acquire, State.setRflags, hcd]

theorem coreStep_of_step {s s' : State C L} {a : Label C L} (hstep : step s a = some s')
    (c : C) : CoreStep s s' c a := by
  cases a with
  | lock d l =>
      simp only [step, lock] at hstep
      split at hstep
      · cases hstep
      · rw [Option.some.injEq] at hstep
        subst hstep
        exact coreStep_acquire (by simp)
  | tryLock d l =>
      simp only [step, Option.some.injEq] at hstep
      subst hstep
      cases hl : s.locked l with
      | true =>
          rw [tryLock_of_locked hl]
          exact .same (by simp) rfl rfl
      | false =>
          have hfree : tryLock s d l =
              (s.setRflags d (cli (s.rflags d))).acquire d l (s.enabled d) := by
            simp [tryLock, disableInterrupts, State.setRflags, hl, State.enabled]
          rw [hfree]
          exact coreStep_acquire (by simp)
  | drop d g =>
      simp only [step, Option.ite_none_right_eq_some, Option.some.injEq] at hstep
      obtain ⟨hmem, rfl⟩ := hstep
      by_cases hcd : c = d
      · subst hcd
        refine .drop g rfl hmem ?_ ?_
        · simp [SpinLock.drop, State.setRflags]
        · cases hg : g.interruptsWereEnabled <;>
            simp [State.enabled, SpinLock.drop, State.setRflags, restoreInterrupts, hg]
      · refine .same ?_ ?_ ?_
        · intro g' hg'
          exact hcd (by simp only [Label.drop.injEq] at hg'; exact hg'.1.symm)
        · simp [SpinLock.drop, State.setRflags, hcd]
        · simp [State.enabled, SpinLock.drop, State.setRflags, hcd]

/-! ### Interrupts while a lock is held -/

/-- Core `c` has no guard or has interrupts disabled. -/
def Masked (c : C) (s : State C L) : Prop :=
  s.guards c ≠ [] → s.enabled c = false

/-- A guard that remembers interrupts enabled is dropped on core `c` only as
the last one outstanding there. -/
def DropsLast (c : C) (s : State C L) (a : Label C L) : Prop :=
  ∀ g, a = .drop c g → g.interruptsWereEnabled = true → s.guards c = [g]

instance (c : C) (s : State C L) : ∀ a, Decidable (DropsLast c s a)
  | .lock _ _ | .tryLock _ _ => isTrue (by simp [DropsLast])
  | .drop d g =>
      decidable_of_iff (d = c → g.interruptsWereEnabled = true → s.guards c = [g])
        (by simp [DropsLast])

theorem masked_step {s s' : State C L} {c : C} {a : Label C L} (h : Masked c s)
    (hok : DropsLast c s a) (hstep : step s a = some s') : Masked c s' := by
  intro hne
  cases coreStep_of_step hstep c with
  | same _ hguards hflag =>
      rw [hflag]
      exact h (hguards ▸ hne)
  | acquire l _ _ hflag => exact hflag
  | drop g ha hmem hguards hflag =>
      rw [hguards] at hne
      have hheld : s.guards c ≠ [] := List.ne_nil_of_mem hmem
      cases hg : g.interruptsWereEnabled with
      | false => rw [hflag, hg, h hheld, Bool.or_false]
      | true =>
          rw [hok g ha hg, List.erase_cons_head] at hne
          exact absurd rfl hne

/-- The converse for one step: dropping such a guard while another one is
outstanding leaves that other one with interrupts enabled. -/
theorem dropsLast_of_masked {s s' : State C L} {c : C} {a : Label C L}
    (h : Masked c s') (hstep : step s a = some s') : DropsLast c s a := by
  rintro g rfl hg
  cases coreStep_of_step hstep c with
  | same hdrop _ _ => exact absurd rfl (hdrop g)
  | acquire l hdrop _ _ => exact absurd rfl (hdrop g)
  | drop g' ha hmem hguards hflag =>
      simp only [Label.drop.injEq, true_and] at ha
      subst ha
      have hnil : s'.guards c = [] := by
        by_contra hne
        have hoff := h hne
        rw [hflag, hg, Bool.true_or] at hoff
        exact absurd hoff (by decide)
      rw [hguards] at hnil
      have hlen := List.length_erase_of_mem hmem
      rw [hnil, List.length_nil] at hlen
      have hpos := List.length_pos_of_mem hmem
      obtain ⟨x, hx⟩ := List.length_eq_one_iff.mp (show (s.guards c).length = 1 by omega)
      rw [hx, List.mem_singleton] at hmem
      rw [hx, hmem]

/-- **When interrupts stay off while a lock is held**: along a run of any cores
from any flags, core `c` has interrupts disabled whenever it holds a guard
exactly if it never drops a guard that remembers interrupts enabled while it
still holds another one. -/
theorem masked_throughout_iff {rflags : C → BitVec 64} {as : List (Label C L)}
    {t : State C L} (hrun : run step (start L rflags) as = some t) (c : C) :
    Throughout step (Masked c) (start L rflags) as ↔
      StepsMeet step (DropsLast c) (start L rflags) as := by
  refine throughout_iff_stepsMeet ?_ ?_ ?_ hrun
  · intro s a s' h hok hstep
    exact masked_step h hok hstep
  · intro s a s' h hstep
    exact dropsLast_of_masked h hstep
  · intro hne
    exact absurd rfl hne

/-- Two locks dropped in the order in which they were acquired: the second one
is still held when the first guard switches interrupts on again. -/
theorem enabled_while_holding :
    ¬ ∀ (as : List (Label Unit Bool)) (s : State Unit Bool),
      run step (start Bool fun _ => ifBit) as = some s → Masked () s := by
  intro h
  have hmasked := h [.lock () false, .lock () true, .drop () ⟨false, true⟩] _ rfl
  exact absurd (hmasked (by decide)) (by decide)

/-- Last in, first out is fine. -/
theorem masked_throughout_lifo :
    Throughout step (Masked ()) (start Bool fun _ : Unit => ifBit)
      [.lock () false, .tryLock () true, .drop () ⟨true, false⟩, .drop () ⟨false, true⟩] := by
  exact (masked_throughout_iff rfl ()).mpr (by decide)

/-! ### Interrupts after the last lock -/

/-- What the flag of a core is as long as its guards are outstanding, `initial`
being the flag it had before the first one. If it was clear, no guard ever sees
it set. If it was set, it is set again or some guard still remembers to set
it. -/
def FlagOwed (initial : Bool) (c : C) (s : State C L) : Prop :=
  if initial then s.enabled c = true ∨ ∃ g ∈ s.guards c, g.interruptsWereEnabled = true
  else s.enabled c = false ∧ ∀ g ∈ s.guards c, g.interruptsWereEnabled = false

theorem flagOwed_step {initial : Bool} {c : C} {s s' : State C L} {a : Label C L}
    (h : FlagOwed initial c s) (hstep : step s a = some s') : FlagOwed initial c s' := by
  cases initial with
  | true =>
      simp only [FlagOwed, if_true] at h ⊢
      cases coreStep_of_step hstep c with
      | same _ hguards hflag => rwa [hguards, hflag]
      | acquire l _ hguards _ =>
          right
          rw [hguards]
          rcases h with h | ⟨g, hg, hset⟩
          · exact ⟨_, List.mem_cons_self, h⟩
          · exact ⟨g, List.mem_cons_of_mem _ hg, hset⟩
      | drop g _ _ hguards hflag =>
          rw [hguards, hflag]
          cases hg : g.interruptsWereEnabled with
          | true => simp
          | false =>
              simp only [Bool.false_or]
              rcases h with h | ⟨g', hg', hset⟩
              · exact .inl h
              · refine .inr ⟨g', (List.mem_erase_of_ne ?_).mpr hg', hset⟩
                rintro rfl
                rw [hg] at hset
                exact absurd hset (by decide)
  | false =>
      simp only [FlagOwed, Bool.false_eq_true, if_false] at h ⊢
      obtain ⟨hoff, hguard⟩ := h
      cases coreStep_of_step hstep c with
      | same _ hguards hflag => exact ⟨hflag ▸ hoff, hguards ▸ hguard⟩
      | acquire l _ hguards hflag =>
          refine ⟨hflag, ?_⟩
          rw [hguards, hoff]
          simpa using hguard
      | drop g _ hmem hguards hflag =>
          refine ⟨by rw [hflag, hoff, hguard g hmem, Bool.or_false], ?_⟩
          intro g' hg'
          rw [hguards] at hg'
          exact hguard g' (List.mem_of_mem_erase hg')

omit [DecidableEq C] [DecidableEq L] in
theorem flagOwed_start (rflags : C → BitVec 64) (c : C) :
    FlagOwed (interruptsEnabled (rflags c)) c (start L rflags) := by
  cases h : interruptsEnabled (rflags c) <;> simp [FlagOwed, State.enabled, start, h]

/-- **The interrupt state is restored**: after any operations of any cores, in
any order of drops, a core without guards has the flag it started with, and a
`try_lock` that fails changes neither lock word nor flag. -/
theorem restores_interrupts {rflags : C → BitVec 64} {as : List (Label C L)}
    {s : State C L} (hrun : run step (start L rflags) as = some s) :
    (∀ c, s.guards c = [] → s.enabled c = interruptsEnabled (rflags c)) ∧
    ∀ c l s', s.locked l = true → step s (.tryLock c l) = some s' →
      s'.locked = s.locked ∧ s'.rflags = s.rflags ∧ s'.guards = s.guards := by
  constructor
  · intro c hnil
    have h := run_invariant (fun _ _ _ hs hstep => flagOwed_step hs hstep)
      (flagOwed_start rflags c) hrun
    cases hinit : interruptsEnabled (rflags c) <;> simpa [FlagOwed, hinit, hnil] using h
  · intro c l s' hl hstep
    simp only [step, tryLock_of_locked hl, Option.some.injEq] at hstep
    subst hstep
    exact ⟨rfl, rfl, rfl⟩

/-- Two overlapping locks on one core, dropped in the order in which they were
acquired, and a `try_lock` of another core in between. -/
theorem restores_interrupts_overlapping :
    let as : List (Label Bool Bool) := [.lock true false, .lock true true,
      .tryLock false true, .drop true ⟨false, true⟩, .drop true ⟨true, false⟩]
    ∃ s, run step (start Bool fun _ => ifBit) as = some s ∧
      s.enabled true = true ∧ s.enabled false = true := by
  intro as
  obtain ⟨s, hrun, htrue, hfalse⟩ : ∃ s, run step (start Bool fun _ => ifBit) as = some s ∧
      s.guards true = [] ∧ s.guards false = [] := ⟨_, rfl, by decide, by decide⟩
  have h := (restores_interrupts hrun).1
  exact ⟨s, hrun, h true htrue, h false hfalse⟩

end SmpNostd.SpinLock
