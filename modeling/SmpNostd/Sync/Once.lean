import Mathlib.Logic.ExistsUnique
import SmpNostd.Lib.Machine

/-!
The one-time initialization of `spinlock.rs`, at the granularity of its atomic
steps.

`call_once` loads the state and returns at once if it is `ONCE_DONE`. Otherwise
it tries to exchange `ONCE_UNINIT` for `ONCE_RUNNING`; the thread that succeeds
runs its closure and stores `ONCE_DONE`, the others spin until they load that
value. What a thread has loaded may be out of date by the time it makes the
exchange, so a loser may find the initialization running or already done.

A closure is started in one step and ends in another; between them the thread
makes no call on the same `Once`. The state carries a log of what was started,
finished and returned, which no step looks at.
-/

namespace SmpNostd.Once

open Machine

/-- `ONCE_UNINIT`, `ONCE_RUNNING` and `ONCE_DONE`. -/
inductive OnceState
  | uninit
  | running
  | done
  deriving DecidableEq, Repr

/-- Where a thread is in a call; `F` are the closures. -/
inductive Call (F : Type)
  | idle
  | firstLoad (f : F)
  | exchange (f : F)
  /-- The exchange has succeeded. -/
  | starting (f : F)
  | inClosure (f : F)
  | storing (f : F)
  | spinning
  | returning
  | completedLoad
  | completedReturning (result : Bool)
  deriving DecidableEq, Repr

inductive Event (T F : Type)
  | started (t : T) (f : F)
  | finished (t : T) (f : F)
  | returned (t : T)
  | isCompleted (t : T) (result : Bool)
  deriving DecidableEq, Repr

/-- The state word, the calls in progress and what has happened, the latest
event first. -/
structure State (T F : Type) where
  state : OnceState
  calls : T → Call F
  log : List (Event T F)

/-- A new uninitialized `Once`. -/
def new (T F : Type) : State T F where
  state := .uninit
  calls _ := .idle
  log := []

/-- A thread calls `call_once` or `is_completed`, or goes on with its call. -/
inductive Label (T F : Type)
  | callOnce (t : T) (f : F)
  | isCompleted (t : T)
  | step (t : T)
  deriving DecidableEq, Repr

variable {T F : Type} [DecidableEq T]

def State.setCall (s : State T F) (t : T) (c : Call F) : State T F :=
  { s with calls := Function.update s.calls t c }

def State.emit (s : State T F) (e : Event T F) : State T F :=
  { s with log := e :: s.log }

/-- The next step of a call in progress. -/
def advance (s : State T F) (t : T) : Call F → Option (State T F)
  | .idle => none
  | .firstLoad f =>
      if s.state = .done then some (s.setCall t .returning) else some (s.setCall t (.exchange f))
  | .exchange f =>
      if s.state = .uninit then some ({ s with state := .running }.setCall t (.starting f))
      else some (s.setCall t .spinning)
  | .starting f => some ((s.emit (.started t f)).setCall t (.inClosure f))
  | .inClosure f => some ((s.emit (.finished t f)).setCall t (.storing f))
  | .storing _ => some ({ s with state := .done }.setCall t .returning)
  | .spinning => if s.state = .done then some (s.setCall t .returning) else some s
  | .returning => some ((s.emit (.returned t)).setCall t .idle)
  | .completedLoad => some (s.setCall t (.completedReturning (s.state = .done)))
  | .completedReturning result => some ((s.emit (.isCompleted t result)).setCall t .idle)

def step (s : State T F) : Label T F → Option (State T F)
  | .callOnce t f =>
      match s.calls t with
      | .idle => some (s.setCall t (.firstLoad f))
      | _ => none
  | .isCompleted t =>
      match s.calls t with
      | .idle => some (s.setCall t .completedLoad)
      | _ => none
  | .step t => advance s t (s.calls t)

/-! ### The invariant -/

/-- Between the exchange that succeeded and the store of `ONCE_DONE`. -/
def Call.Inside : Call F → Prop
  | .starting _ | .inClosure _ | .storing _ => True
  | _ => False

/-- The thread has seen the state to be `ONCE_DONE`, or stored it. -/
def Call.SawDone : Call F → Prop
  | .returning | .completedReturning true => True
  | _ => False

/-- A caller is let past: `call_once` returns, or `is_completed` is true. -/
def Event.Passes : Event T F → Prop
  | .returned _ | .isCompleted _ true => True
  | _ => False

/-- The closures that were started, with the thread that did. -/
def starts (log : List (Event T F)) : List (T × F) :=
  log.filterMap fun
    | .started t f => some (t, f)
    | _ => none

/-- The closure that thread `t` was to run was started, and has finished. -/
def Finished (log : List (Event T F)) (t : T) (f : F) : Prop :=
  starts log = [(t, f)] ∧ .finished t f ∈ log

/-- How far the thread that runs the closure is. -/
def Progress (log : List (Event T F)) (t : T) : Call F → Prop
  | .starting _ => starts log = []
  | .inClosure f => starts log = [(t, f)]
  | .storing f => Finished log t f
  | _ => False

/-- What the state word says about the calls and the log. -/
def Phase (s : State T F) : Prop :=
  match s.state with
  | .uninit => (∀ t, ¬(s.calls t).Inside) ∧ starts s.log = []
  | .running => ∃ t, (∀ t', (s.calls t').Inside ↔ t' = t) ∧ Progress s.log t (s.calls t)
  | .done => (∀ t, ¬(s.calls t).Inside) ∧ ∃ t f, Finished s.log t f

/-- Every caller that was let past was so after the closure had finished. -/
def PassesAfter (log : List (Event T F)) : Prop :=
  ∀ post e pre, log = post ++ e :: pre → e.Passes → ∃ t f, Finished pre t f

structure Inv (s : State T F) : Prop where
  phase : Phase s
  spinning : ∀ t, s.calls t = .spinning → s.state ≠ .uninit
  sawDone : ∀ t, (s.calls t).SawDone → s.state = .done
  passes : PassesAfter s.log

omit [DecidableEq T] in
theorem new_inv : Inv (new T F) where
  phase := ⟨fun _ => id, rfl⟩
  spinning t ht := by cases ht
  sawDone t ht := ht.elim
  passes post e pre h := by simp [new] at h

/-! ### Steps outside the initialization -/

/-- The threads outside the initialization stay there. -/
theorem inside_setCall {s : State T F} {t : T} {c : Call F} (hold : ¬(s.calls t).Inside)
    (hc : ¬c.Inside) (t' : T) : ((s.setCall t c).calls t').Inside ↔ (s.calls t').Inside := by
  by_cases ht : t' = t
  · subst ht
    simp [State.setCall, hold, hc]
  · simp [State.setCall, ht]

theorem Phase.setCall {s : State T F} (h : Phase s) {t : T} {c : Call F}
    (hold : ¬(s.calls t).Inside) (hc : ¬c.Inside) : Phase (s.setCall t c) := by
  have hinside := inside_setCall hold hc
  unfold Phase at h ⊢
  rw [show (s.setCall t c).state = s.state from rfl]
  cases hstate : s.state with
  | uninit =>
      rw [hstate] at h
      exact ⟨fun t' ht' => h.1 t' ((hinside t').mp ht'), h.2⟩
  | running =>
      rw [hstate] at h
      obtain ⟨u, hu, hprog⟩ := h
      have hut : u ≠ t := by
        rintro rfl
        exact hold ((hu u).mpr rfl)
      refine ⟨u, fun t' => (hinside t').trans (hu t'), ?_⟩
      simpa [State.setCall, hut] using hprog
  | done =>
      rw [hstate] at h
      exact ⟨fun t' ht' => h.1 t' ((hinside t').mp ht'), h.2⟩

/-- A thread outside the initialization goes on to `c`. -/
theorem Inv.setCall {s : State T F} (h : Inv s) {t : T} {c : Call F}
    (hold : ¬(s.calls t).Inside) (hc : ¬c.Inside) (hspin : c = .spinning → s.state ≠ .uninit)
    (hsaw : c.SawDone → s.state = .done) : Inv (s.setCall t c) where
  phase := h.phase.setCall hold hc
  spinning t' ht' := by
    by_cases ht : t' = t
    · subst ht
      exact hspin (by simpa [State.setCall] using ht')
    · exact h.spinning t' (by simpa [State.setCall, ht] using ht')
  sawDone t' ht' := by
    by_cases ht : t' = t
    · subst ht
      exact hsaw (by simpa [State.setCall] using ht')
    · exact h.sawDone t' (by simpa [State.setCall, ht] using ht')
  passes := h.passes

omit [DecidableEq T] in
theorem PassesAfter.cons {log : List (Event T F)} (h : PassesAfter log) {e : Event T F}
    (he : e.Passes → ∃ t f, Finished log t f) : PassesAfter (e :: log) := by
  intro post e' pre hsplit hpass
  cases post with
  | nil =>
      obtain ⟨rfl, rfl⟩ := List.cons.inj hsplit
      exact he hpass
  | cons e₀ post =>
      obtain ⟨-, hsplit⟩ := List.cons.inj hsplit
      exact h post e' pre hsplit hpass

section

omit [DecidableEq T]

variable {s : State T F} {e : Event T F}

theorem Finished.cons {log : List (Event T F)} {t : T} {f : F} (h : Finished log t f)
    (he : starts (e :: log) = starts log) : Finished (e :: log) t f :=
  ⟨he.trans h.1, List.mem_cons_of_mem _ h.2⟩

theorem Progress.cons {log : List (Event T F)} {t : T} {c : Call F} (h : Progress log t c)
    (he : starts (e :: log) = starts log) : Progress (e :: log) t c := by
  cases c with
  | starting f => exact he.trans h
  | inClosure f => exact he.trans h
  | storing f => exact Finished.cons h he
  | idle | firstLoad | exchange | spinning | returning | completedLoad | completedReturning =>
      exact h.elim

theorem Inv.finished (h : Inv s) (hdone : s.state = .done) : ∃ t f, Finished s.log t f := by
  have hphase := h.phase
  unfold Phase at hphase
  rw [hdone] at hphase
  exact hphase.2

/-- An event that does not start a closure. -/
theorem Inv.emit (h : Inv s) (he : starts (e :: s.log) = starts s.log)
    (hpass : e.Passes → s.state = .done) : Inv (s.emit e) where
  phase := by
    have hphase := h.phase
    unfold Phase at hphase ⊢
    rw [show (s.emit e).state = s.state from rfl]
    cases hstate : s.state with
    | uninit =>
        rw [hstate] at hphase
        exact ⟨hphase.1, he.trans hphase.2⟩
    | running =>
        rw [hstate] at hphase
        obtain ⟨t, ht, hprog⟩ := hphase
        exact ⟨t, ht, hprog.cons he⟩
    | done =>
        rw [hstate] at hphase
        obtain ⟨hout, t, f, hfin⟩ := hphase
        exact ⟨hout, t, f, hfin.cons he⟩
  spinning := h.spinning
  sawDone := h.sawDone
  passes := h.passes.cons fun hp => h.finished (hpass hp)

/-- A thread inside the initialization is the only one. -/
theorem Inv.inside (h : Inv s) {t : T} (ht : (s.calls t).Inside) :
    s.state = .running ∧ (∀ t', (s.calls t').Inside ↔ t' = t) ∧
      Progress s.log t (s.calls t) := by
  have hphase := h.phase
  unfold Phase at hphase
  cases hstate : s.state with
  | uninit =>
      rw [hstate] at hphase
      exact absurd ht (hphase.1 t)
  | running =>
      rw [hstate] at hphase
      obtain ⟨u, hu, hprog⟩ := hphase
      obtain rfl := (hu t).mp ht
      exact ⟨rfl, hu, hprog⟩
  | done =>
      rw [hstate] at hphase
      exact absurd ht (hphase.1 t)

end

/-! ### Steps of the initialization -/

/-- The exchange succeeds. -/
theorem Inv.enter {s : State T F} (h : Inv s) (huninit : s.state = .uninit) (t : T) (f : F) :
    Inv ({ s with state := .running }.setCall t (.starting f)) := by
  have hphase := h.phase
  unfold Phase at hphase
  rw [huninit] at hphase
  refine ⟨⟨t, fun t' => ?_, ?_⟩, fun _ _ => by simp [State.setCall], fun t' ht' => ?_, h.passes⟩
  · by_cases ht : t' = t
    · subst ht
      simp [State.setCall, Call.Inside]
    · simpa [State.setCall, ht] using hphase.1 t'
  · simpa [State.setCall, Progress] using hphase.2
  · by_cases ht : t' = t
    · subst ht
      simp [State.setCall, Call.SawDone] at ht'
    · have hdone := h.sawDone t' (by simpa [State.setCall, ht] using ht')
      rw [huninit] at hdone
      cases hdone

/-- The thread inside the initialization starts or ends its closure. -/
theorem Inv.inner {s : State T F} (h : Inv s) {t : T} {c : Call F} {e : Event T F}
    (hold : (s.calls t).Inside) (hc : c.Inside) (hprog : Progress (e :: s.log) t c)
    (he : ¬e.Passes) : Inv ((s.emit e).setCall t c) := by
  obtain ⟨hrunning, honly, -⟩ := h.inside hold
  have hcall : ((s.emit e).setCall t c).calls t = c := by simp [State.setCall]
  have hother : ∀ t', t' ≠ t → ((s.emit e).setCall t c).calls t' = s.calls t' := by
    intro t' ht
    simp [State.setCall, State.emit, ht]
  refine ⟨?_, fun t' _ => ?_, fun t' ht' => ?_, h.passes.cons fun hp => absurd hp he⟩
  · unfold Phase
    rw [show ((s.emit e).setCall t c).state = .running from hrunning]
    refine ⟨t, fun t' => ?_, by rwa [hcall]⟩
    by_cases ht : t' = t
    · subst ht
      rw [hcall]
      exact iff_of_true hc rfl
    · rw [hother t' ht]
      exact honly t'
  · rw [show ((s.emit e).setCall t c).state = .running from hrunning]
    simp
  · by_cases ht : t' = t
    · subst ht
      rw [hcall] at ht'
      cases c <;> first | exact hc.elim | exact ht'.elim
    · rw [hother t' ht] at ht'
      exact h.sawDone t' ht'

/-- `ONCE_DONE` is stored. -/
theorem Inv.store {s : State T F} (h : Inv s) {t : T} {f : F} (hcall : s.calls t = .storing f) :
    Inv ({ s with state := .done }.setCall t .returning) := by
  obtain ⟨-, honly, hprog⟩ := h.inside (t := t) (by rw [hcall]; trivial)
  rw [hcall] at hprog
  refine ⟨⟨fun t' => ?_, t, f, hprog⟩, fun _ _ => by simp [State.setCall], fun _ _ => rfl,
    h.passes⟩
  by_cases ht : t' = t
  · subst ht
    simp [State.setCall, Call.Inside]
  · simpa [State.setCall, ht] using (honly t').not.mpr ht

/-! ### Every step -/

theorem Inv.advance {s s' : State T F} (h : Inv s) {t : T}
    (hstep : advance s t (s.calls t) = some s') : Inv s' := by
  cases hcall : s.calls t with
  | idle =>
      rw [hcall] at hstep
      cases hstep
  | firstLoad f =>
      have hold : ¬(s.calls t).Inside := by rw [hcall]; exact id
      simp only [hcall, Once.advance] at hstep
      split_ifs at hstep with hdone <;> obtain rfl := Option.some.inj hstep
      · exact h.setCall hold id nofun fun _ => hdone
      · exact h.setCall hold id nofun False.elim
  | exchange f =>
      have hold : ¬(s.calls t).Inside := by rw [hcall]; exact id
      simp only [hcall, Once.advance] at hstep
      split_ifs at hstep with huninit <;> obtain rfl := Option.some.inj hstep
      · exact h.enter huninit t f
      · exact h.setCall hold id (fun _ => huninit) False.elim
  | starting f =>
      have hold : (s.calls t).Inside := by rw [hcall]; trivial
      have hprog := (h.inside hold).2.2
      rw [hcall] at hprog hstep
      obtain rfl := Option.some.inj hstep
      have hstarts : starts (.started t f :: s.log) = (t, f) :: starts s.log := rfl
      exact h.inner hold trivial (hstarts.trans (congrArg _ hprog)) id
  | inClosure f =>
      have hold : (s.calls t).Inside := by rw [hcall]; trivial
      have hprog := (h.inside hold).2.2
      rw [hcall] at hprog hstep
      obtain rfl := Option.some.inj hstep
      exact h.inner hold trivial ⟨hprog, List.mem_cons_self⟩ id
  | storing f =>
      rw [hcall] at hstep
      obtain rfl := Option.some.inj hstep
      exact h.store hcall
  | spinning =>
      have hold : ¬(s.calls t).Inside := by rw [hcall]; exact id
      simp only [hcall, Once.advance] at hstep
      split_ifs at hstep with hdone <;> obtain rfl := Option.some.inj hstep
      · exact h.setCall hold id nofun fun _ => hdone
      · exact h
  | returning =>
      have hold : ¬(s.calls t).Inside := by rw [hcall]; exact id
      have hdone : s.state = .done := h.sawDone t (by rw [hcall]; trivial)
      rw [hcall] at hstep
      obtain rfl := Option.some.inj hstep
      exact (h.emit rfl fun _ => hdone).setCall hold id nofun False.elim
  | completedLoad =>
      have hold : ¬(s.calls t).Inside := by rw [hcall]; exact id
      rw [hcall] at hstep
      obtain rfl := Option.some.inj hstep
      refine h.setCall hold id nofun fun hsaw => ?_
      by_contra hne
      rw [decide_eq_false hne] at hsaw
      exact hsaw
  | completedReturning result =>
      have hold : ¬(s.calls t).Inside := by rw [hcall]; exact id
      have hdone : result = true → s.state = .done := by
        rintro rfl
        exact h.sawDone t (by rw [hcall]; trivial)
      rw [hcall] at hstep
      obtain rfl := Option.some.inj hstep
      refine (h.emit rfl fun hpass => hdone ?_).setCall hold id nofun False.elim
      cases result with
      | true => rfl
      | false => exact hpass.elim

theorem Inv.step {s s' : State T F} (h : Inv s) {l : Label T F} (hstep : step s l = some s') :
    Inv s' := by
  cases l with
  | callOnce t f =>
      simp only [Once.step] at hstep
      split at hstep
      · rename_i hcall
        obtain rfl := Option.some.inj hstep
        exact h.setCall (by rw [hcall]; exact id) id nofun False.elim
      · cases hstep
  | isCompleted t =>
      simp only [Once.step] at hstep
      split at hstep
      · rename_i hcall
        obtain rfl := Option.some.inj hstep
        exact h.setCall (by rw [hcall]; exact id) id nofun False.elim
      · cases hstep
  | step t => exact h.advance hstep

/-- The state word moves from `ONCE_UNINIT` to `ONCE_RUNNING` to `ONCE_DONE`. -/
theorem Inv.state_step {s s' : State T F} (h : Inv s) {l : Label T F}
    (hstep : Once.step s l = some s') :
    s'.state = s.state ∨ s.state = .uninit ∧ s'.state = .running ∨
      s.state = .running ∧ s'.state = .done := by
  cases l with
  | callOnce t f | isCompleted t =>
      simp only [Once.step] at hstep
      split at hstep
      · obtain rfl := Option.some.inj hstep
        exact .inl rfl
      · cases hstep
  | step t =>
      simp only [Once.step] at hstep
      cases hcall : s.calls t with
      | idle =>
          rw [hcall] at hstep
          cases hstep
      | firstLoad f | spinning =>
          simp only [hcall, Once.advance] at hstep
          split_ifs at hstep <;> obtain rfl := Option.some.inj hstep <;> exact .inl rfl
      | exchange f =>
          simp only [hcall, Once.advance] at hstep
          split_ifs at hstep with huninit <;> obtain rfl := Option.some.inj hstep
          · exact .inr (.inl ⟨huninit, rfl⟩)
          · exact .inl rfl
      | storing f =>
          have hrunning := (h.inside (t := t) (by rw [hcall]; trivial)).1
          rw [hcall] at hstep
          obtain rfl := Option.some.inj hstep
          exact .inr (.inr ⟨hrunning, rfl⟩)
      | starting f | inClosure f | returning | completedLoad | completedReturning result =>
          rw [hcall] at hstep
          obtain rfl := Option.some.inj hstep
          exact .inl rfl

/-- The thread inside the initialization gets to its end by itself. -/
theorem inside_finishes {s : State T F} {t : T} (h : (s.calls t).Inside) :
    ∃ n s', run step s (List.replicate n (.step t)) = some s' ∧ s'.state = .done := by
  have hstoring : ∀ (m : State T F) f, m.calls t = .storing f →
      ∃ n s', run step m (List.replicate n (.step t)) = some s' ∧ s'.state = .done := by
    intro m f hm
    exact ⟨1, _, by simp only [List.replicate, run, Once.step, hm, Once.advance]; rfl, rfl⟩
  have hclosure : ∀ (m : State T F) f, m.calls t = .inClosure f →
      ∃ n s', run step m (List.replicate n (.step t)) = some s' ∧ s'.state = .done := by
    intro m f hm
    obtain ⟨n, s', hrun, hdone⟩ := hstoring ((m.emit (.finished t f)).setCall t (.storing f)) f
      (Function.update_self ..)
    refine ⟨n + 1, s', ?_, hdone⟩
    rwa [List.replicate_succ, run_cons, Once.step, hm, Once.advance, Option.bind_some]
  cases hcall : s.calls t with
  | starting f =>
      obtain ⟨n, s', hrun, hdone⟩ := hclosure ((s.emit (.started t f)).setCall t (.inClosure f)) f
        (Function.update_self ..)
      refine ⟨n + 1, s', ?_, hdone⟩
      rwa [List.replicate_succ, run_cons, Once.step, hcall, Once.advance, Option.bind_some]
  | inClosure f => exact hclosure s f hcall
  | storing f => exact hstoring s f hcall
  | idle | firstLoad | exchange | spinning | returning | completedLoad | completedReturning =>
      rw [hcall] at h
      exact h.elim

/-- **`Once` runs its initializer once, and nobody gets past it early.** After
every run: at most one closure was started; every `call_once` that returned and
every `is_completed` that was true did so after that closure had finished; the
next step moves the state word forward or leaves it; it is `ONCE_RUNNING`
exactly while one thread is inside the initialization; and a thread that spins
has somebody to wait for, who can finish, unless it is already done. -/
theorem once_runs_once {as : List (Label T F)} {s : State T F}
    (hrun : run step (new T F) as = some s) :
    (starts s.log).length ≤ 1 ∧
    (∀ post e pre, s.log = post ++ e :: pre → e.Passes →
      ∃ t f, starts s.log = [(t, f)] ∧ .finished t f ∈ pre) ∧
    (∀ l s', step s l = some s' →
      s'.state = s.state ∨ s.state = .uninit ∧ s'.state = .running ∨
        s.state = .running ∧ s'.state = .done) ∧
    (s.state = .running → ∃! t, (s.calls t).Inside) ∧
    (∀ t, (s.calls t).Inside → s.state = .running) ∧
    (∀ t, s.calls t = .spinning → s.state = .done ∨
      ∃ t', (s.calls t').Inside ∧
        ∃ n s', run step s (List.replicate n (.step t')) = some s' ∧ s'.state = .done) := by
  have h : Inv s := run_invariant (fun _ _ _ hs hstep => hs.step hstep) new_inv hrun
  have hstarts : (starts s.log).length ≤ 1 := by
    have hphase := h.phase
    unfold Phase at hphase
    cases hstate : s.state with
    | uninit =>
        rw [hstate] at hphase
        simp [hphase.2]
    | running =>
        rw [hstate] at hphase
        obtain ⟨t, -, hprog⟩ := hphase
        cases hcall : s.calls t <;> simp_all [Progress, Finished]
    | done =>
        rw [hstate] at hphase
        obtain ⟨-, t, f, hfin⟩ := hphase
        simp [hfin.1]
  have hrunning : s.state = .running → ∃ t, ∀ t', (s.calls t').Inside ↔ t' = t := by
    intro hstate
    have hphase := h.phase
    unfold Phase at hphase
    rw [hstate] at hphase
    obtain ⟨t, ht, -⟩ := hphase
    exact ⟨t, ht⟩
  refine ⟨hstarts, ?_, fun _ _ hstep => h.state_step hstep, ?_, fun t ht => (h.inside ht).1, ?_⟩
  · intro post e pre hsplit hpass
    obtain ⟨t, f, hfin⟩ := h.passes post e pre hsplit hpass
    refine ⟨t, f, ?_, hfin.2⟩
    -- there is no room for a second start before or after
    have hsuffix : starts pre <:+ starts s.log := by
      rw [hsplit]
      exact ((List.suffix_cons e pre).trans (List.suffix_append post _)).filterMap _
    rw [← hfin.1]
    refine (hsuffix.eq_of_length_le ?_).symm
    rw [hfin.1]
    exact hstarts
  · intro hstate
    obtain ⟨t, ht⟩ := hrunning hstate
    exact ⟨t, (ht t).mpr rfl, fun t' ht' => (ht t').mp ht'⟩
  · intro t hspin
    cases hstate : s.state with
    | uninit => exact absurd hstate (h.spinning t hspin)
    | done => exact .inl rfl
    | running =>
        obtain ⟨t', ht'⟩ := hrunning hstate
        have hin := (ht' t').mpr rfl
        exact .inr ⟨t', hin, inside_finishes hin⟩

/-- Thread 1 loads the state before thread 0 has made its exchange, loses its
own and spins. -/
theorem once_runs_once_loser :
    ∃ s, run step (new (Fin 2) ℕ)
        [.callOnce 0 7, .callOnce 1 8, .step 1, .step 0, .step 0, .step 0, .step 1] = some s ∧
      s.calls 1 = .spinning ∧ s.state = .running ∧ ∃! t, (s.calls t).Inside := by
  obtain ⟨s, hrun, hspin, hstate⟩ : ∃ s, run step (new (Fin 2) ℕ)
      [.callOnce 0 7, .callOnce 1 8, .step 1, .step 0, .step 0, .step 0, .step 1] = some s ∧
      s.calls 1 = .spinning ∧ s.state = .running := ⟨_, rfl, rfl, rfl⟩
  exact ⟨s, hrun, hspin, hstate, (once_runs_once hrun).2.2.2.1 hstate⟩

end SmpNostd.Once
