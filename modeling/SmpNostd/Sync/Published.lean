import SmpNostd.Lib.Guarded
import SmpNostd.Sync.Once

/-!
What `Once` is for: data that is set up once and read without a lock.

The closure given to `call_once` loads and stores cells one at a time. Whoever
has come back from a `call_once`, or has been told by `is_completed` that the
initialization is complete, may read the cells from then on, at any time and
without another look at the state word. So the closure must have made its last
store before anybody is let past, nobody may be in a closure any more then, and
no later caller may run a closure of its own over the data.
-/

namespace SmpNostd.Published

open Machine Once Guarded

variable {T L V : Type} [DecidableEq T]

/-- The `Once`, the cells, and what is still to be done of the closure that is
running. -/
structure State (T L V : Type) where
  once : Once.State T (Prog L V Unit)
  data : L → V
  rest : Prog L V Unit

def start (d : L → V) : State T L V where
  once := Once.new T (Prog L V Unit)
  data := d
  rest := .ret ()

/-- A step of the calls of the `Once`, the next access of the closure that is
running, or a read of a cell by a thread that has been let past. -/
inductive Label (T L V : Type)
  | once (a : Once.Label T (Prog L V Unit))
  | access (t : T)
  | read (t : T) (l : L)

/-- Thread `t` has come back from `call_once`, or `is_completed` was true. -/
def letPast {F : Type} (log : List (Event T F)) (t : T) : Bool :=
  log.any fun
    | .returned u => u = t
    | .isCompleted u completed => u = t && completed
    | .started _ _ | .finished _ _ => false

/-- A closure has all of its accesses before it when it is started, and none when
it ends. -/
def onceStep (s : State T L V) (a : Once.Label T (Prog L V Unit)) : Option (State T L V) :=
  match a with
  | .step t =>
      match s.once.calls t, s.rest with
      | .starting f, _ => (Once.step s.once a).map fun o => { s with once := o, rest := f }
      | .inClosure _, .load _ _ | .inClosure _, .store _ _ _ => none
      | _, _ => (Once.step s.once a).map fun o => { s with once := o }
  | _ => (Once.step s.once a).map fun o => { s with once := o }

variable [DecidableEq L]

/-- The next load or store of the closure that thread `t` is in. -/
def access (s : State T L V) (t : T) : Option (State T L V) :=
  match s.once.calls t, s.rest with
  | .inClosure _, .load l k => some { s with rest := k (s.data l) }
  | .inClosure _, .store l v p => some { s with data := Function.update s.data l v, rest := p }
  | _, _ => none

def step (s : State T L V) : Label T L V → Option (State T L V)
  | .once a => onceStep s a
  | .access t => access s t
  | .read t _ => if letPast s.once.log t then some s else none

variable {s s' : State T L V} {d : L → V}

/-! ### What the steps of the calls do -/

section Calls

variable {F : Type} {o o' : Once.State T F} {a : Once.Label T F}

/-- Thread `t` is at its closure, or about to be. -/
def AtClosure (o : Once.State T F) (t : T) : Prop :=
  ∃ f, o.calls t = .starting f ∨ o.calls t = .inClosure f

/-- A step that is neither the start nor the end of a closure. -/
structure Quiet (o o' : Once.State T F) : Prop where
  starts_eq : starts o'.log = starts o.log
  inClosure_iff : ∀ t f, o'.calls t = .inClosure f ↔ o.calls t = .inClosure f

/-- Thread `t` goes on to a point outside of the closure. -/
theorem inClosure_setCall {t : T} {c : Call F} (hold : ∀ f, o.calls t ≠ .inClosure f)
    (hc : ∀ f, c ≠ .inClosure f) (u : T) (f : F) :
    (o.setCall t c).calls u = .inClosure f ↔ o.calls u = .inClosure f := by
  by_cases hut : u = t
  · subst hut
    rw [show (o.setCall u c).calls u = c from Function.update_self ..]
    exact iff_of_false (hc f) (hold f)
  · rw [show (o.setCall t c).calls u = o.calls u from Function.update_of_ne hut ..]

theorem quiet_of_step (h : Once.step o a = some o')
    (ha : ∀ t, a = .step t → ¬AtClosure o t) : Quiet o o' := by
  cases a with
  | callOnce t f | isCompleted t =>
      simp only [Once.step] at h
      split at h <;> cases h
      rename_i hidle
      exact ⟨rfl, inClosure_setCall (by simp [hidle]) (by simp)⟩
  | step t =>
      have hnot := ha t rfl
      simp only [Once.step] at h
      cases hcall : o.calls t with
      | idle =>
          rw [hcall] at h
          cases h
      | starting f => exact absurd ⟨f, .inl hcall⟩ hnot
      | inClosure f => exact absurd ⟨f, .inr hcall⟩ hnot
      | firstLoad f | exchange f =>
          simp only [hcall, Once.advance] at h
          split_ifs at h <;> cases h <;>
            exact ⟨rfl, inClosure_setCall (by simp [hcall]) (by simp)⟩
      | spinning =>
          simp only [hcall, Once.advance] at h
          split_ifs at h <;> cases h
          · exact ⟨rfl, inClosure_setCall (by simp [hcall]) (by simp)⟩
          · exact ⟨rfl, fun _ _ => .rfl⟩
      | storing f | returning | completedLoad | completedReturning b =>
          rw [hcall] at h
          cases h
          exact ⟨rfl, inClosure_setCall (by simp [Once.State.emit, hcall]) (by simp)⟩

end Calls

/-- What a step can be, with the state it leads to. -/
inductive Steps (s : State T L V) : Label T L V → State T L V → Prop
  | quiet {a o} (h : Once.step s.once a = some o) (hquiet : Quiet s.once o) :
      Steps s (.once a) { s with once := o }
  | start {t f} (hcall : s.once.calls t = .starting f) :
      Steps s (.once (.step t))
        { s with once := (s.once.emit (.started t f)).setCall t (.inClosure f), rest := f }
  | finish {t f} (hcall : s.once.calls t = .inClosure f) (hrest : s.rest = .ret ()) :
      Steps s (.once (.step t))
        { s with once := (s.once.emit (.finished t f)).setCall t (.storing f) }
  | load {t f l k} (hcall : s.once.calls t = .inClosure f) (hrest : s.rest = .load l k) :
      Steps s (.access t) { s with rest := k (s.data l) }
  | store {t f l v p} (hcall : s.once.calls t = .inClosure f) (hrest : s.rest = .store l v p) :
      Steps s (.access t) { s with data := Function.update s.data l v, rest := p }
  | read {t l} (hpast : letPast s.once.log t = true) : Steps s (.read t l) s

theorem steps_of_step {a : Label T L V} (h : step s a = some s') : Steps s a s' := by
  cases a with
  | once a =>
      simp only [step, onceStep] at h
      split at h
      · rename_i t
        split at h
        · rename_i f hcall
          simp only [Once.step, hcall] at h
          cases h
          exact .start hcall
        · cases h
        · cases h
        · rename_i hstarting hload hstore
          obtain ⟨o, ho, rfl⟩ := Option.map_eq_some_iff.mp h
          cases hcall : s.once.calls t with
          | inClosure f =>
              have hrest : s.rest = .ret () := by
                cases hrest : s.rest with
                | ret u => rfl
                | load l k => exact absurd hrest (hload f l k hcall)
                | store l v p => exact absurd hrest (hstore f l v p hcall)
              simp only [Once.step, hcall] at ho
              cases ho
              exact .finish hcall hrest
          | starting f => exact absurd hcall (hstarting f)
          | idle | firstLoad | exchange | storing | spinning | returning | completedLoad
          | completedReturning =>
              refine .quiet ho (quiet_of_step ho ?_)
              rintro u ⟨⟩ ⟨f, hf | hf⟩ <;> rw [hcall] at hf <;> cases hf
      · rename_i hother
        obtain ⟨o, ho, rfl⟩ := Option.map_eq_some_iff.mp h
        exact .quiet ho (quiet_of_step ho fun t ht => absurd ht (hother t))
  | access t =>
      simp only [step, access] at h
      split at h
      · rename_i f l k hcall hrest
        cases h
        exact .load hcall hrest
      · rename_i f l v p hcall hrest
        cases h
        exact .store hcall hrest
      · cases h
  | read t l =>
      obtain ⟨hpast, heq⟩ := Option.ite_none_right_eq_some.mp h
      cases heq
      exact .read hpast

/-- The calls go their way as without the data. -/
theorem once_of_steps {a : Label T L V} (h : Steps s a s') :
    s'.once = s.once ∨ ∃ b, Once.step s.once b = some s'.once := by
  cases h with
  | quiet h => exact .inr ⟨_, h⟩
  | @start t f hcall => exact .inr ⟨.step t, by simp [Once.step, hcall, Once.advance]⟩
  | @finish t f hcall => exact .inr ⟨.step t, by simp [Once.step, hcall, Once.advance]⟩
  | load | store | read => exact .inl rfl

/-! ### The invariant -/

/-- The cells before, during and after the one closure: what it has still to do
makes of them what all of it makes of the initial ones. -/
structure Inv (d : L → V) (s : State T L V) : Prop where
  once : Once.Inv s.once
  before : starts s.once.log = [] → s.data = d
  during : ∀ t f, s.once.calls t = .inClosure f → s.rest.exec s.data = f.exec d
  after : ∀ t f, starts s.once.log = [(t, f)] → (∀ u g, s.once.calls u ≠ .inClosure g) →
    s.data = (f.exec d).1

omit [DecidableEq T] in
theorem start_inv (d : L → V) : Inv d (start d : State T L V) where
  once := new_inv
  before _ := rfl
  during t f h := by cases h
  after t f h := by cases h

omit [DecidableEq T] in
/-- The thread in the closure is alone, and its closure is the one that was
started. -/
theorem Inv.alone (h : Inv d s) {t : T} {f : Prog L V Unit} (hcall : s.once.calls t = .inClosure f) :
    starts s.once.log = [(t, f)] ∧ ∀ u, (s.once.calls u).Inside → u = t := by
  obtain ⟨-, honly, hprogress⟩ := h.once.inside (t := t) (by rw [hcall]; trivial)
  rw [hcall] at hprogress
  exact ⟨hprogress, fun u hu => (honly u).mp hu⟩

theorem Inv.steps {a : Label T L V} (h : Inv d s) (hstep : Steps s a s') : Inv d s' := by
  have honce : Once.Inv s'.once := by
    obtain hsame | ⟨b, hb⟩ := once_of_steps hstep
    · exact hsame ▸ h.once
    · exact h.once.step hb
  cases hstep with
  | quiet _ hquiet =>
      refine ⟨honce, fun hnil => ?_, fun t f hcall => ?_, fun t f hone hnobody => ?_⟩
      · exact h.before (hquiet.starts_eq ▸ hnil)
      · exact h.during t f ((hquiet.inClosure_iff t f).mp hcall)
      · exact h.after t f (hquiet.starts_eq ▸ hone)
          fun u g hu => hnobody u g ((hquiet.inClosure_iff u g).mpr hu)
  | @start t f hcall =>
      obtain ⟨-, honly, hprogress⟩ := h.once.inside (t := t) (by rw [hcall]; trivial)
      rw [hcall] at hprogress
      have hself : ((s.once.emit (.started t f)).setCall t (.inClosure f)).calls t =
          .inClosure f := Function.update_self ..
      refine ⟨honce, fun hnil => (List.cons_ne_nil _ _ hnil).elim,
        fun u g hu => ?_, fun u g _ hnobody => ?_⟩
      · have hinside := (honce.inside (t := t) (by rw [hself]; trivial)).2.1 u
        obtain rfl : u = t := hinside.mp (by rw [hu]; trivial)
        obtain rfl : g = f := by simpa using hu.symm.trans hself
        rw [h.before hprogress]
      · exact absurd hself (hnobody t f)
  | @finish t f hcall hrest =>
      obtain ⟨hstarts, honly⟩ := h.alone hcall
      have hdone := h.during t f hcall
      rw [hrest] at hdone
      have hself : ((s.once.emit (.finished t f)).setCall t (.storing f)).calls t =
          .storing f := Function.update_self ..
      refine ⟨honce, fun hnil => ?_, fun u g hu => ?_, fun u g hone _ => ?_⟩
      · exact absurd (hstarts.symm.trans hnil) (List.cons_ne_nil _ _)
      · have hinside := (honce.inside (t := t) (by rw [hself]; trivial)).2.1 u
        obtain rfl : u = t := hinside.mp (by rw [hu]; trivial)
        cases hself.symm.trans hu
      · obtain ⟨⟨rfl, rfl⟩, -⟩ := List.cons.inj (hstarts.symm.trans hone)
        exact congrArg Prod.fst hdone
  | @load t f l k hcall hrest =>
      refine ⟨honce, h.before, fun u g hu => ?_, h.after⟩
      rw [← h.during u g hu, hrest]
      rfl
  | @store t f l v p hcall hrest =>
      obtain ⟨hstarts, -⟩ := h.alone hcall
      refine ⟨honce, fun hnil => ?_, fun u g hu => ?_, fun u g _ hnobody => ?_⟩
      · exact absurd (hstarts.symm.trans hnil) (List.cons_ne_nil _ _)
      · rw [← h.during u g hu, hrest]
        rfl
      · exact absurd hcall (hnobody t f)
  | read => exact h

theorem inv_of_run {as : List (Label T L V)} (hrun : run step (start d) as = some s) : Inv d s :=
  run_invariant (fun _ _ _ h hstep => h.steps (steps_of_step hstep)) (start_inv d) hrun

/-! ### Who has been let past -/

section Past

variable {F : Type} {o o' : Once.State T F}

/-- `ONCE_DONE` is the last state. -/
theorem done_of_step (h : Once.Inv o) {a : Once.Label T F} (hstep : Once.step o a = some o')
    (hdone : o.state = .done) : o'.state = .done := by
  rcases h.state_step hstep with hsame | ⟨huninit, -⟩ | ⟨hrunning, -⟩
  · exact hsame.trans hdone
  · cases huninit.symm.trans hdone
  · cases hrunning.symm.trans hdone

/-- A step logs at most one event, and one that lets somebody past only after
`ONCE_DONE` has been seen. -/
theorem letPast_of_step (h : Once.Inv o) {a : Once.Label T F} (hstep : Once.step o a = some o')
    {t : T} (hpast : letPast o'.log t = true) : letPast o.log t = true ∨ o.state = .done := by
  cases a with
  | callOnce u f | isCompleted u =>
      simp only [Once.step] at hstep
      split at hstep <;> cases hstep
      exact .inl hpast
  | step u =>
      simp only [Once.step] at hstep
      cases hcall : o.calls u with
      | idle =>
          rw [hcall] at hstep
          cases hstep
      | firstLoad f | exchange f | spinning =>
          simp only [hcall, Once.advance] at hstep
          split_ifs at hstep <;> cases hstep <;> exact .inl hpast
      | starting f | inClosure f | storing f | completedLoad =>
          rw [hcall] at hstep
          cases hstep
          exact .inl hpast
      | returning => exact .inr (h.sawDone u (by rw [hcall]; trivial))
      | completedReturning completed =>
          cases completed with
          | true => exact .inr (h.sawDone u (by rw [hcall]; trivial))
          | false =>
              rw [hcall] at hstep
              cases hstep
              left
              simpa [letPast, Once.State.emit, Once.State.setCall] using hpast

end Past

/-- Nobody is let past before `ONCE_DONE` is stored. -/
theorem done_of_letPast {as : List (Label T L V)} (hrun : run step (start d) as = some s)
    {t : T} (hpast : letPast s.once.log t = true) : s.once.state = .done := by
  refine (run_invariant (I := fun s : State T L V => Once.Inv s.once ∧
    (letPast s.once.log t = true → s.once.state = .done)) (fun m a m' hm hstep => ?_)
    ⟨new_inv, fun h => by cases h⟩ hrun).2 hpast
  obtain ⟨honce, hdone⟩ := hm
  obtain hsame | ⟨b, hb⟩ := once_of_steps (steps_of_step hstep)
  · rw [hsame]
    exact ⟨honce, hdone⟩
  · refine ⟨honce.step hb, fun hlater => done_of_step honce hb ?_⟩
    exact (letPast_of_step honce hb hlater).elim hdone id

omit [DecidableEq T] in
/-- With `ONCE_DONE` stored, the cells are what the one closure has made of them,
and nobody is in a closure. -/
theorem Inv.initialised (h : Inv d s) (hdone : s.once.state = .done) :
    (∃ u f, starts s.once.log = [(u, f)] ∧ s.data = (f.exec d).1) ∧
      ∀ u g, s.once.calls u ≠ .inClosure g := by
  have hphase := h.once.phase
  unfold Phase at hphase
  rw [hdone] at hphase
  obtain ⟨hout, u, f, hstarts, -⟩ := hphase
  have hnobody : ∀ u g, s.once.calls u ≠ .inClosure g := by
    intro u g hu
    exact hout u (by rw [hu]; trivial)
  exact ⟨⟨u, f, hstarts, h.after u f hstarts hnobody⟩, hnobody⟩

/-- The thread that makes an access is in its closure. -/
theorem inClosure_of_access {t : T} (h : (step s (.access t)).isSome) :
    ∃ f, s.once.calls t = .inClosure f := by
  obtain ⟨s', hs'⟩ := Option.isSome_iff_exists.mp h
  cases steps_of_step hs' with
  | load hcall | store hcall => exact ⟨_, hcall⟩

/-- **What `Once` sets up is read complete and for good.** In every run: a thread
that has been let past finds the cells as the one closure that was started makes
of the initial ones; whatever happens later, they stay so; and while a closure
can make an access, nobody else can make one and nobody can read. -/
theorem published {as : List (Label T L V)} (hrun : run step (start d) as = some s) :
    (∀ t, letPast s.once.log t = true →
      (∃ u f, starts s.once.log = [(u, f)] ∧ s.data = (f.exec d).1) ∧
      ∀ bs s', run step s bs = some s' → s'.data = s.data) ∧
    (∀ t, (step s (.access t)).isSome →
      (∀ u, (step s (.access u)).isSome → u = t) ∧ ∀ u l, step s (.read u l) = none) := by
  have h := inv_of_run hrun
  refine ⟨fun t hpast => ?_, fun t haccess => ?_⟩
  · have hdone := done_of_letPast hrun hpast
    refine ⟨(h.initialised hdone).1, fun bs s' hlater => ?_⟩
    refine (run_invariant (I := fun m : State T L V => Inv d m ∧ m.once.state = .done ∧
      m.data = s.data) (fun m a m' hm hstep => ?_) ⟨h, hdone, rfl⟩ hlater).2.2
    obtain ⟨hm, hmdone, hdata⟩ := hm
    have hsteps := steps_of_step hstep
    have hmdone' : m'.once.state = .done := by
      obtain hsame | ⟨b, hb⟩ := once_of_steps hsteps
      · rwa [hsame]
      · exact done_of_step hm.once hb hmdone
    refine ⟨hm.steps hsteps, hmdone', ?_⟩
    cases hsteps with
    | quiet | start | finish | load | read => exact hdata
    | store hcall => exact absurd hcall ((hm.initialised hmdone).2 _ _)
  · obtain ⟨f, hcall⟩ := inClosure_of_access haccess
    have honly := (h.alone hcall).2
    refine ⟨fun u hu => ?_, fun u l => ?_⟩
    · obtain ⟨g, hg⟩ := inClosure_of_access hu
      exact honly u (by rw [hg]; trivial)
    · refine if_neg fun hpast => ?_
      exact (h.initialised (done_of_letPast hrun hpast)).2 t f hcall

/-- A closure that fills two cells. -/
def fill : Prog Bool ℕ Unit := .store false 1 (.store true 2 (.ret ()))

/-- Thread 1 loses the exchange and waits until thread 0 has filled both cells. -/
theorem published_fill :
    let as : List (Label ℕ Bool ℕ) :=
      [.once (.callOnce 0 fill), .once (.callOnce 1 fill), .once (.step 0), .once (.step 1),
        .once (.step 0), .once (.step 0), .once (.step 1), .access 0, .once (.step 1), .access 0,
        .once (.step 0), .once (.step 0), .once (.step 1), .once (.step 1), .read 1 true]
    ∃ s, run step (start fun _ => 0) as = some s ∧ letPast s.once.log 1 = true ∧
      ∃ u f, starts s.once.log = [(u, f)] ∧ s.data = (f.exec fun _ => 0).1 := by
  intro as
  obtain ⟨s, hrun, hpast⟩ : ∃ s, run step (start fun _ => 0) as = some s ∧
      letPast s.once.log 1 = true := ⟨_, rfl, by decide⟩
  exact ⟨s, hrun, hpast, ((published hrun).1 1 hpast).1⟩

end SmpNostd.Published
