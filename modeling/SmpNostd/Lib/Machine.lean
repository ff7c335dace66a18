import Mathlib.Logic.Function.Basic
import Mathlib.Data.List.Basic
import Mathlib.Tactic.Common

/-!
Interleaving semantics over an executable step function.

A system is given by `step : σ → ι → Option σ`. A label says which party
moves and resolves every choice the party has, so a run is just the list of
labels in the order in which they are performed, and "every interleaving" is
"every list of labels". `none` means that the label is not enabled in that
state.

Two judgments are made about runs. `run` gives the state at the end of a run;
since every prefix of a run is a run, a fact about the end of every run is a
fact about every state a run passes through. `StepsMeet` says that every
step of a run, looked at in the state it starts from, meets a condition. The
rules below turn a fact about one step into a fact about whole runs.
-/

namespace SmpNostd.Machine

variable {σ ι : Type*} {step : σ → ι → Option σ}

/-- Perform the labels in order, `none` as soon as one is not enabled. -/
def run (step : σ → ι → Option σ) : σ → List ι → Option σ
  | s, [] => some s
  | s, a :: as => (step s a).bind fun t => run step t as

@[simp] theorem run_nil (s : σ) : run step s [] = some s := rfl

theorem run_cons (s : σ) (a : ι) (as : List ι) :
    run step s (a :: as) = (step s a).bind fun t => run step t as := rfl

@[simp] theorem run_singleton (s : σ) (a : ι) : run step s [a] = step s a := by
  simp [run]

theorem run_cons_eq_some {s u : σ} {a : ι} {as : List ι} :
    run step s (a :: as) = some u ↔ ∃ t, step s a = some t ∧ run step t as = some u := by
  simp [run, Option.bind_eq_some_iff]

theorem run_append (s : σ) (as bs : List ι) :
    run step s (as ++ bs) = (run step s as).bind fun t => run step t bs := by
  induction as generalizing s with
  | nil => rfl
  | cons a as ih => simp [run, ih, Option.bind_assoc]

/-- The states a system started in `s₀` can get into. -/
def Reachable (step : σ → ι → Option σ) (s₀ s : σ) : Prop :=
  ∃ as, run step s₀ as = some s

theorem Reachable.run {s₀ s t : σ} {as : List ι} (h : Reachable step s₀ s)
    (hrun : Machine.run step s as = some t) : Reachable step s₀ t := by
  obtain ⟨bs, hbs⟩ := h
  exact ⟨bs ++ as, by rw [run_append, hbs, Option.bind_some, hrun]⟩

theorem Reachable.of_step {s₀ s t : σ} {a : ι} (h : Reachable step s₀ s)
    (hstep : step s a = some t) : Reachable step s₀ t :=
  h.run ((run_singleton s a).trans hstep)

/-- Every step of the run meets the condition `Q` in the state it starts
from. -/
def StepsMeet (step : σ → ι → Option σ) (Q : σ → ι → Prop) : σ → List ι → Prop
  | _, [] => True
  | s, a :: as => Q s a ∧ ∀ t, step s a = some t → StepsMeet step Q t as

theorem stepsMeet_cons {Q : σ → ι → Prop} {s t : σ} {a : ι} {as : List ι}
    (h : step s a = some t) :
    StepsMeet step Q s (a :: as) ↔ Q s a ∧ StepsMeet step Q t as := by
  simp [StepsMeet, h]

/-- A condition on the labels alone can be added to one on the steps. -/
theorem StepsMeet.and_forall_mem {Q : σ → ι → Prop} {R : ι → Prop} {s : σ} {as : List ι}
    (h : StepsMeet step Q s as) (hmem : ∀ a ∈ as, R a) :
    StepsMeet step (fun s a => Q s a ∧ R a) s as := by
  induction as generalizing s with
  | nil => trivial
  | cons a as ih =>
      have ⟨ha, has⟩ := List.forall_mem_cons.mp hmem
      exact ⟨⟨h.1, ha⟩, fun t ht => ih (h.2 t ht) has⟩

instance StepsMeet.decidable {Q : σ → ι → Prop} [∀ s a, Decidable (Q s a)] :
    ∀ (s : σ) (as : List ι), Decidable (StepsMeet step Q s as)
  | _, [] => isTrue trivial
  | s, a :: as =>
      match h : step s a with
      | none => decidable_of_iff (Q s a) (by simp [StepsMeet, h])
      | some t =>
          have := StepsMeet.decidable (Q := Q) t as
          decidable_of_iff (Q s a ∧ StepsMeet step Q t as) (stepsMeet_cons h).symm

/-- `P` holds in every state the run passes through, its first and its last
one included. -/
def Throughout (step : σ → ι → Option σ) (P : σ → Prop) : σ → List ι → Prop
  | s, [] => P s
  | s, a :: as => P s ∧ ∀ t, step s a = some t → Throughout step P t as

theorem Throughout.head {P : σ → Prop} {s : σ} {as : List ι}
    (h : Throughout step P s as) : P s := by
  cases as with
  | nil => exact h
  | cons a as => exact h.1

instance Throughout.decidable {P : σ → Prop} [DecidablePred P] :
    ∀ (s : σ) (as : List ι), Decidable (Throughout step P s as)
  | s, [] => inferInstanceAs (Decidable (P s))
  | s, a :: as =>
      match h : step s a with
      | none => decidable_of_iff (P s) (by simp [Throughout, h])
      | some t =>
          have := Throughout.decidable (P := P) t as
          decidable_of_iff (P s ∧ Throughout step P t as) (by simp [Throughout, h])

theorem Throughout.stepsMeet {P : σ → Prop} {s : σ} {as : List ι}
    (h : Throughout step P s as) :
    StepsMeet step (fun s a => P s ∧ ∀ t, step s a = some t → P t) s as := by
  induction as generalizing s with
  | nil => trivial
  | cons a as ih =>
      exact ⟨⟨h.1, fun t ht => (h.2 t ht).head⟩, fun t ht => ih (h.2 t ht)⟩

/-- `P` holds in some state the run passes through, its first and its last one
included. -/
def Sometime (step : σ → ι → Option σ) (P : σ → Prop) (s : σ) (as : List ι) : Prop :=
  ∃ bs cs t, as = bs ++ cs ∧ run step s bs = some t ∧ P t

theorem Sometime.head {P : σ → Prop} {s : σ} (h : P s) (as : List ι) : Sometime step P s as :=
  ⟨[], as, s, rfl, rfl, h⟩

theorem Sometime.last {P : σ → Prop} {s t : σ} {as : List ι} (hrun : run step s as = some t)
    (h : P t) : Sometime step P s as :=
  ⟨as, [], t, (List.append_nil as).symm, hrun, h⟩

theorem Sometime.tail {P : σ → Prop} {s t : σ} {a : ι} {as : List ι} (hstep : step s a = some t)
    (h : Sometime step P t as) : Sometime step P s (a :: as) := by
  obtain ⟨bs, cs, u, rfl, hrun, hu⟩ := h
  exact ⟨a :: bs, cs, u, rfl, run_cons_eq_some.mpr ⟨t, hstep, hrun⟩, hu⟩

theorem Sometime.append {P : σ → Prop} {s : σ} {as : List ι} (h : Sometime step P s as)
    (more : List ι) : Sometime step P s (as ++ more) := by
  obtain ⟨bs, cs, t, rfl, hrun, ht⟩ := h
  exact ⟨bs, cs ++ more, t, List.append_assoc .., hrun, ht⟩

/-- `P` holds in some state the run passes through, and `Q` in that or a later
one. -/
def SometimeThen (step : σ → ι → Option σ) (P Q : σ → Prop) (s : σ) (as : List ι) : Prop :=
  ∃ bs cs t, as = bs ++ cs ∧ run step s bs = some t ∧ P t ∧ Sometime step Q t cs

theorem Sometime.and_last {P Q : σ → Prop} {s t : σ} {as : List ι} (h : Sometime step P s as)
    (hrun : run step s as = some t) (ht : Q t) : SometimeThen step P Q s as := by
  obtain ⟨bs, cs, u, rfl, hbs, hu⟩ := h
  rw [run_append, hbs, Option.bind_some] at hrun
  exact ⟨bs, cs, u, rfl, hbs, hu, .last hrun ht⟩

theorem SometimeThen.append {P Q : σ → Prop} {s : σ} {as : List ι}
    (h : SometimeThen step P Q s as) (more : List ι) :
    SometimeThen step P Q s (as ++ more) := by
  obtain ⟨bs, cs, t, rfl, hrun, ht, hcs⟩ := h
  exact ⟨bs, cs ++ more, t, List.append_assoc .., hrun, ht, hcs.append more⟩

theorem throughout_of_not_sometime {P : σ → Prop} {s : σ} {as : List ι}
    (h : ¬Sometime step P s as) : Throughout step (fun t => ¬P t) s as := by
  induction as generalizing s with
  | nil => exact fun hs => h (.head hs [])
  | cons a as ih =>
      exact ⟨fun hs => h (.head hs _), fun t ht => ih fun hsome => h (hsome.tail ht)⟩

theorem Throughout.not_sometime {P : σ → Prop} {s : σ} {as : List ι}
    (h : Throughout step (fun t => ¬P t) s as) : ¬Sometime step P s as := by
  induction as generalizing s with
  | nil =>
      rintro ⟨bs, cs, t, hsplit, hrun, ht⟩
      obtain ⟨rfl, rfl⟩ := List.append_eq_nil_iff.mp hsplit.symm
      obtain rfl := Option.some.inj hrun
      exact h ht
  | cons a as ih =>
      rintro ⟨_ | ⟨b, bs⟩, cs, t, hsplit, hrun, ht⟩
      · obtain rfl := Option.some.inj hrun
        exact h.1 ht
      · obtain ⟨rfl, rfl⟩ := List.cons.inj hsplit
        obtain ⟨m, hm, hrest⟩ := run_cons_eq_some.mp hrun
        exact ih (h.2 m hm) ⟨bs, cs, t, rfl, hrest, ht⟩

/-- The invariant rule for runs whose steps meet a condition. -/
theorem run_invariant_of_stepsMeet {Q : σ → ι → Prop} {I : σ → Prop}
    (hstep : ∀ s a t, I s → Q s a → step s a = some t → I t)
    {s t : σ} {as : List ι} (hI : I s) (hok : StepsMeet step Q s as)
    (hrun : run step s as = some t) : I t := by
  induction as generalizing s with
  | nil =>
      simp only [run_nil, Option.some.injEq] at hrun
      exact hrun ▸ hI
  | cons a as ih =>
      obtain ⟨m, hm, hrest⟩ := run_cons_eq_some.mp hrun
      exact ih (hstep s a m hI hok.1 hm) (hok.2 m hm) hrest

/-- A condition that always holds is met by the steps of every run. -/
theorem stepsMeet_of_forall {Q : σ → ι → Prop} (h : ∀ s a, Q s a) (s : σ)
    (as : List ι) : StepsMeet step Q s as := by
  induction as generalizing s with
  | nil => trivial
  | cons a as ih => exact ⟨h s a, fun t _ => ih t⟩

/-- A condition on labels alone is met by the steps of every run of such labels. -/
theorem stepsMeet_of_forall_mem {R : ι → Prop} {as : List ι} (h : ∀ a ∈ as, R a) (s : σ) :
    StepsMeet step (fun _ a => R a) s as := by
  induction as generalizing s with
  | nil => trivial
  | cons a as ih =>
      have ⟨ha, has⟩ := List.forall_mem_cons.mp h
      exact ⟨ha, fun t _ => ih has t⟩

/-- The invariant rule: what every step preserves holds at the end of every
run. -/
theorem run_invariant {I : σ → Prop}
    (hstep : ∀ s a t, I s → step s a = some t → I t)
    {s t : σ} {as : List ι} (hI : I s) (hrun : run step s as = some t) : I t :=
  run_invariant_of_stepsMeet (fun s a t hs _ h => hstep s a t hs h) hI
    (stepsMeet_of_forall (Q := fun _ _ => True) (fun _ _ => trivial) s as) hrun

theorem reachable_invariant {I : σ → Prop}
    (hstep : ∀ s a t, I s → step s a = some t → I t)
    {s₀ s : σ} (hI : I s₀) (hreach : Reachable step s₀ s) : I s := by
  obtain ⟨as, hrun⟩ := hreach
  exact run_invariant hstep hI hrun

/-- The abstraction rule: where each step from a state with `I` is, seen through
`abs`, the step with the same label of another system, so is every run. -/
theorem run_map {τ : Type*} {step' : τ → ι → Option τ} {abs : σ → τ} {Q : σ → ι → Prop}
    {I : σ → Prop} (habs : ∀ s a, I s → (step s a).map abs = step' (abs s) a)
    (hkeep : ∀ s a t, I s → Q s a → step s a = some t → I t) {s : σ} {as : List ι} (hI : I s)
    (hok : StepsMeet step Q s as) : (run step s as).map abs = run step' (abs s) as := by
  induction as generalizing s with
  | nil => rfl
  | cons a as ih =>
      rw [run_cons, run_cons, ← habs s a hI]
      cases hstep : step s a with
      | none => rfl
      | some t => exact ih (hkeep s a t hI hok.1 hstep) (hok.2 t hstep)

/-- The rank rule: short of the goal no step raises the rank, and the steps with
a label in `own` lower it. A run with more of them than the rank has reached the
goal, which is never left. -/
theorem goal_of_rank {Q : σ → ι → Prop} {I goal : σ → Prop} {rank : σ → ℕ} {own : ι → Bool}
    (hstep : ∀ s a t, I s → Q s a → step s a = some t →
      goal t ∨ I t ∧ rank t + (if own a then 1 else 0) ≤ rank s)
    (hstable : ∀ s a t, goal s → step s a = some t → goal t)
    {s t : σ} {as : List ι} (hI : I s) (hok : StepsMeet step Q s as)
    (hrun : run step s as = some t) (hcount : rank s < as.countP own) : goal t := by
  induction as generalizing s with
  | nil => exact absurd hcount (Nat.not_lt_zero _)
  | cons a as ih =>
      obtain ⟨m, hm, hrest⟩ := run_cons_eq_some.mp hrun
      rw [List.countP_cons] at hcount
      obtain hgoal | ⟨hIm, hrank⟩ := hstep s a m hI hok.1 hm
      · exact run_invariant hstable hgoal hrest
      · exact ih hIm (hok.2 m hm) hrest (by omega)

/-- The counting rule: `L s k` says that `k` is left of something in the state `s`.
If the steps with a label in `own` take one off and the others nothing, it goes down
by as many as there are of them. -/
theorem run_countdown {L : σ → ℕ → Prop} {own : ι → Bool}
    (hstep : ∀ s a t k, L s k → step s a = some t →
      ∃ l, L t l ∧ l + (if own a then 1 else 0) = k)
    {s t : σ} {k : ℕ} {as : List ι} (hL : L s k) (hrun : run step s as = some t) :
    ∃ l, L t l ∧ l + as.countP own = k := by
  induction as generalizing s k with
  | nil =>
      obtain rfl := Option.some.inj hrun
      exact ⟨k, hL, rfl⟩
  | cons a as ih =>
      obtain ⟨m, hm, hrest⟩ := run_cons_eq_some.mp hrun
      obtain ⟨k', hLm, hk'⟩ := hstep s a m k hL hm
      obtain ⟨l, hLt, hl⟩ := ih hLm hrest
      refine ⟨l, hLt, ?_⟩
      rw [List.countP_cons]
      omega

/-- A condition on single steps that is both enough to keep a property and
forced by the property in the state after the step characterises the runs
along which the property holds throughout. -/
theorem throughout_iff_stepsMeet {Q : σ → ι → Prop} {P : σ → Prop}
    (hkeep : ∀ s a t, P s → Q s a → step s a = some t → P t)
    (hforce : ∀ s a t, P t → step s a = some t → Q s a)
    {s t : σ} {as : List ι} (hs : P s) (hrun : run step s as = some t) :
    Throughout step P s as ↔ StepsMeet step Q s as := by
  induction as generalizing s with
  | nil => exact ⟨fun _ => trivial, fun _ => hs⟩
  | cons a as ih =>
      obtain ⟨m, hm, hrest⟩ := run_cons_eq_some.mp hrun
      constructor
      · rintro ⟨-, hall⟩
        have hrestP := hall m hm
        have hPm : P m := hrestP.head
        refine ⟨hforce s a m hPm hm, fun u hu => ?_⟩
        obtain rfl : m = u := by rw [hm] at hu; exact Option.some.inj hu
        exact (ih hPm hrest).mp hrestP
      · rintro ⟨hok, hall⟩
        have hPm := hkeep s a m hs hok hm
        refine ⟨hs, fun u hu => ?_⟩
        obtain rfl : m = u := by rw [hm] at hu; exact Option.some.inj hu
        exact (ih hPm hrest).mpr (hall m hm)

end SmpNostd.Machine
