import SmpNostd.Lib.Machine
import Mathlib.Logic.Function.Basic
import Mathlib.Tactic.Common

/-!
Linearizability by forward simulation.

A sequential object says what each operation does to its state and what it
answers. The atomic object made from it serves any number of threads: a thread
calls an operation, the operation takes effect in one step, and the thread
gets the answer; any steps of other threads may come in between. The history
of a run is what the threads can see of it, the calls and the answers. A
history is linearizable if it is one of the atomic object's: every operation
in it can be given an instant between its call and its return at which it
takes effect, and the answers are the ones the sequential object gives when
the operations are performed in the order of these instants.

An implementation is shown to have linearizable histories by relating its
states to states of the atomic object and matching each of its steps by steps
of the atomic object that show the same.
-/

namespace SmpNostd.Lin

open Machine

variable {T α O R σ ι : Type*}

/-- A sequential object. -/
structure Object (α O R : Type*) where
  init : α
  /-- The state after an operation, and its answer. -/
  apply : α → O → α × R

/-- What can be seen of a run. -/
inductive Event (T O R : Type*)
  | call (t : T) (op : O)
  | ret (t : T) (r : R)

/-- Where a thread is in an operation on the atomic object. -/
inductive Phase (O R : Type*)
  | idle
  | pending (op : O)
  | done (r : R)

/-- A state of the atomic object, with the phase of every thread. -/
structure Atomic (T α O R : Type*) where
  state : α
  phase : T → Phase O R

variable [DecidableEq T]

/-- Thread `t` enters a phase. -/
def Atomic.setPhase (c : Atomic T α O R) (t : T) (p : Phase O R) : Atomic T α O R :=
  { c with phase := Function.update c.phase t p }

/-- The operation of `t` takes effect. -/
def Atomic.effect (obj : Object α O R) (c : Atomic T α O R) (t : T) (op : O) :
    Atomic T α O R where
  state := (obj.apply c.state op).1
  phase := Function.update c.phase t (.done (obj.apply c.state op).2)

/-- The steps of the atomic object, with what is seen of each. -/
inductive Object.Step (obj : Object α O R) :
    Atomic T α O R → Option (Event T O R) → Atomic T α O R → Prop
  | call {c : Atomic T α O R} {t : T} (op : O) (h : c.phase t = .idle) :
      Object.Step obj c (some (.call t op)) (c.setPhase t (.pending op))
  | effect {c : Atomic T α O R} {t : T} {op : O} (h : c.phase t = .pending op) :
      Object.Step obj c none (c.effect obj t op)
  | ret {c : Atomic T α O R} {t : T} {r : R} (h : c.phase t = .done r) :
      Object.Step obj c (some (.ret t r)) (c.setPhase t .idle)

/-- `obj.History c h c'`: the atomic object can get from `c` to `c'` showing
the history `h`. -/
inductive Object.History (obj : Object α O R) :
    Atomic T α O R → List (Event T O R) → Atomic T α O R → Prop
  | nil (c : Atomic T α O R) : Object.History obj c [] c
  | step {c m c' : Atomic T α O R} {e : Option (Event T O R)} {h : List (Event T O R)}
      (hstep : obj.Step c e m) (hrest : Object.History obj m h c') :
      Object.History obj c (e.toList ++ h) c'

/-- The history is one of the atomic object's. -/
def Object.Linearizable (obj : Object α O R) (h : List (Event T O R)) : Prop :=
  ∃ c, obj.History ⟨obj.init, fun _ => .idle⟩ h c

theorem Object.History.trans {obj : Object α O R} {c m c' : Atomic T α O R}
    {h k : List (Event T O R)} (hh : obj.History c h m) (hk : obj.History m k c') :
    obj.History c (h ++ k) c' := by
  induction hh with
  | nil => exact hk
  | step hstep _ ih =>
      rw [List.append_assoc]
      exact .step hstep (ih hk)

theorem Object.Step.history {obj : Object α O R} {c c' : Atomic T α O R}
    {e : Option (Event T O R)} (h : obj.Step c e c') : obj.History c e.toList c' := by
  simpa using Object.History.step h (.nil c')

/-! ### Histories that show nothing -/

/-- Where nothing is seen, operations take effect. -/
theorem Object.History.silent_cons {obj : Object α O R} {c c' : Atomic T α O R}
    (h : obj.History c [] c') :
    c' = c ∨ ∃ t op, c.phase t = .pending op ∧ obj.History (c.effect obj t op) [] c' := by
  generalize hnil : ([] : List (Event T O R)) = k at h
  cases h with
  | nil => exact .inl rfl
  | step hstep hrest =>
      cases hstep with
      | call | ret => cases hnil
      | effect hpending =>
          rw [Option.toList_none, List.nil_append] at hnil
          subst hnil
          exact .inr ⟨_, _, hpending, hrest⟩

/-- An operation that has taken effect waits for its return. -/
theorem Object.History.silent_done {obj : Object α O R} {c c' : Atomic T α O R}
    (h : obj.History c [] c') {t : T} {r : R} (hdone : c.phase t = .done r) :
    c'.phase t = .done r := by
  generalize hnil : ([] : List (Event T O R)) = k at h
  induction h with
  | nil => exact hdone
  | step hstep hrest ih =>
      cases hstep with
      | call | ret => cases hnil
      | @effect u op hpending =>
          refine ih ?_ hnil
          have hne : t ≠ u := by
            rintro rfl
            rw [hdone] at hpending
            cases hpending
          exact (Function.update_of_ne hne ..).trans hdone

/-- If only one thread is elsewhere afterwards, at most one operation has taken
effect, and it is this thread's. -/
theorem Object.History.silent_cases {obj : Object α O R} {c c' : Atomic T α O R}
    (h : obj.History c [] c') {t : T} (hother : ∀ u, u ≠ t → c'.phase u = c.phase u) :
    c' = c ∨ ∃ op, c.phase t = .pending op ∧ c' = c.effect obj t op := by
  obtain rfl | ⟨u, op, hpending, hrest⟩ := h.silent_cons
  · exact .inl rfl
  have hself : (c.effect obj u op).phase u = .done (obj.apply c.state op).2 :=
    Function.update_self ..
  have hut : u = t := by
    by_contra hne
    have hsame := hother u hne
    rw [hrest.silent_done hself, hpending] at hsame
    cases hsame
  subst hut
  obtain rfl | ⟨v, op', hpending', hrest'⟩ := hrest.silent_cons
  · exact .inr ⟨op, hpending, rfl⟩
  -- a second effect would be another thread's
  have hvu : v ≠ u := by
    rintro rfl
    rw [hself] at hpending'
    cases hpending'
  have hbefore : (c.effect obj u op).phase v = c.phase v := Function.update_of_ne hvu ..
  have hsame := hother v hvu
  rw [hrest'.silent_done (Function.update_self ..), ← hbefore, hpending'] at hsame
  cases hsame

/-! ### Implementations -/

/-- What is seen of a run of an implementation, `visible` saying what is seen
of each of its steps. -/
def history (step : σ → ι → Option σ) (visible : σ → ι → Option (Event T O R)) :
    σ → List ι → List (Event T O R)
  | _, [] => []
  | s, a :: as =>
      match step s a with
      | none => []
      | some t => (visible s a).toList ++ history step visible t as

/-- One state of the implementation and one of the atomic object, related by
`sim`, stay related along every run, with the same history. -/
theorem simulation {obj : Object α O R} {step : σ → ι → Option σ}
    {visible : σ → ι → Option (Event T O R)} (sim : σ → Atomic T α O R → Prop)
    (hsim : ∀ s a t c, sim s c → step s a = some t →
      ∃ c', sim t c' ∧ obj.History c (visible s a).toList c')
    {s t : σ} {c : Atomic T α O R} {as : List ι} (h : sim s c)
    (hrun : run step s as = some t) :
    ∃ c', sim t c' ∧ obj.History c (history step visible s as) c' := by
  induction as generalizing s c with
  | nil =>
      rw [run_nil, Option.some.injEq] at hrun
      exact ⟨c, hrun ▸ h, .nil c⟩
  | cons a as ih =>
      obtain ⟨m, hm, hrest⟩ := run_cons_eq_some.mp hrun
      obtain ⟨d, hd, hhead⟩ := hsim s a m c h hm
      obtain ⟨c', hc', htail⟩ := ih hd hrest
      refine ⟨c', hc', ?_⟩
      simp only [history, hm]
      exact hhead.trans htail

/-- The rule for an implementation that keeps its promises only in states that
fit: the steps need matching only as long as they lead to such states. -/
theorem simulation_within {obj : Object α O R} {step : σ → ι → Option σ}
    {visible : σ → ι → Option (Event T O R)} {fits : σ → Prop}
    (hback : ∀ s a t, step s a = some t → fits t → fits s) (sim : σ → Atomic T α O R → Prop)
    (hsim : ∀ s a t c, sim s c → fits t → step s a = some t →
      ∃ c', sim t c' ∧ obj.History c (visible s a).toList c')
    {s t : σ} {c : Atomic T α O R} {as : List ι} (h : sim s c)
    (hrun : run step s as = some t) (hfits : fits t) :
    ∃ c', sim t c' ∧ obj.History c (history step visible s as) c' := by
  have hstart : ∀ (bs : List ι) (m : σ), run step m bs = some t → fits m := by
    intro bs
    induction bs with
    | nil =>
        intro m hm
        obtain rfl := Option.some.inj hm
        exact hfits
    | cons b bs ih =>
        intro m hm
        obtain ⟨u, hu, hrest⟩ := run_cons_eq_some.mp hm
        exact hback m b u hu (ih u hrest)
  induction as generalizing s c with
  | nil =>
      rw [run_nil, Option.some.injEq] at hrun
      exact ⟨c, hrun ▸ h, .nil c⟩
  | cons a as ih =>
      obtain ⟨m, hm, hrest⟩ := run_cons_eq_some.mp hrun
      obtain ⟨d, hd, hhead⟩ := hsim s a m c h (hstart as m hrest) hm
      obtain ⟨c', hc', htail⟩ := ih hd hrest
      refine ⟨c', hc', ?_⟩
      simp only [history, hm]
      exact hhead.trans htail

end SmpNostd.Lin
