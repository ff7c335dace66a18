import SmpNostd.Sync.RwLock

/-!
What `try_read` says.

`try_read` gives up when it finds `WRITER_BIT` in the word, and also when its one
`compare_exchange` fails. But the word is the number of readers too: a reader that
comes or goes after the load makes the exchange fail, and `2 ^ 32 - 1` readers look
like a writer. `read`, which does the same, tries again.
-/

namespace SmpNostd.RwLock

open Machine

variable {T : Type}

/-- A write guard is live. -/
def State.WriteLive (s : State T) : Prop := s.writeGuards ≠ []

instance (s : State T) : Decidable s.WriteLive :=
  inferInstanceAs (Decidable (¬s.writeGuards = []))

/-- Before an access of `try_read`: the readers do not look like a writer to its
load, and are as many at its exchange as it has loaded. -/
def State.Undisturbed (s : State T) : Call → Prop
  | .tryReadLoad => s.readGuards.length < writerBit
  | .tryReadExchange current => s.readGuards.length = current
  | _ => True

variable [DecidableEq T] {s s' : State T} {t : T}

/-- In the run `as` from `s`, `l` is the state in which `t` makes its last step. -/
def LastStepAt (t : T) (s : State T) (as : List (Label T)) (l : State T) : Prop :=
  ∃ bs cs, as = bs ++ .step t :: cs ∧ .step t ∉ cs ∧ run step s bs = some l

/-- The readers let a call of `try_read` through, of which the steps up to its last
access in `m` are `mid`: before its load they do not look like a writer, and before
its exchange they are as many as before its load. -/
def ReadersStay (t : T) (s : State T) (mid : List (Label T)) (m : State T) : Prop :=
  match m.calls t with
  | .tryReadLoad => m.readGuards.length < writerBit
  | .tryReadExchange _ => ∃ l, LastStepAt t s mid l ∧ m.readGuards.length = l.readGuards.length
  | _ => True

/-! ### The load that an exchange belongs to -/

theorem calls_advance_of_ne {u : T} {c : Call} (h : advance s u c = some s') (hne : t ≠ u) :
    s'.calls t = s.calls t := by
  have hset : ∀ (s : State T) (c : Call), (s.setCall u c).calls t = s.calls t :=
    fun s c => Function.update_of_ne hne ..
  cases c <;> simp only [advance] at h
  case idle => cases h
  case readReturned | tryReadReturned | writeReturned | tryWriteReturned =>
    cases h
    exact hset ..
  all_goals
    split at h <;> cases h
    all_goals first | rfl | exact hset ..

/-- Only its own load gets a call to the exchange. -/
theorem exchanging_of_step {a : Label T} {current : ℕ} (ha : a ≠ .step t)
    (hstep : step s a = some s') (hcall : s'.calls t = .tryReadExchange current) :
    s.calls t = .tryReadExchange current := by
  cases a with
  | step u =>
      have hne : t ≠ u := fun heq => ha (congrArg Label.step heq.symm)
      exact (calls_advance_of_ne hstep hne).symm.trans hcall
  | read u | tryRead u | write u | tryWrite u =>
      obtain ⟨-, heq⟩ := Option.ite_none_right_eq_some.mp hstep
      cases heq
      by_cases hu : t = u
      · subst hu
        simp [State.setCall] at hcall
      · simpa [State.setCall, hu] using hcall
  | spurious u =>
      simp only [step] at hstep
      split at hstep <;> cases hstep
      · by_cases hu : t = u
        · subst hu
          simp [State.setCall] at hcall
        · simpa [State.setCall, hu] using hcall
      · exact hcall
  | dropRead u | dropWrite u =>
      obtain ⟨-, heq⟩ := Option.ite_none_right_eq_some.mp hstep
      obtain rfl := Option.some.inj heq
      exact hcall

theorem exchanging_of_run {as : List (Label T)} {current : ℕ} (has : .step t ∉ as)
    (hrun : run step s as = some s') (hcall : s'.calls t = .tryReadExchange current) :
    s.calls t = .tryReadExchange current := by
  induction as generalizing s with
  | nil =>
      obtain rfl := Option.some.inj hrun
      exact hcall
  | cons a as ih =>
      obtain ⟨m, hm, hrest⟩ := run_cons_eq_some.mp hrun
      have hlater := ih (List.not_mem_of_not_mem_cons has) hrest
      exact exchanging_of_step (List.ne_of_not_mem_cons has).symm hm hlater

theorem load_of_exchanging {current : ℕ} (hstep : step s (.step t) = some s')
    (hcall : s'.calls t = .tryReadExchange current) : s.state = current := by
  simp only [step] at hstep
  cases hc : s.calls t <;> simp only [hc, advance] at hstep
  case idle => cases hstep
  case tryReadLoad =>
    split at hstep <;> cases hstep
    · simp [State.setCall] at hcall
    · simpa [State.setCall] using hcall
  case readReturned | tryReadReturned | writeReturned | tryWriteReturned =>
    cases hstep
    simp [State.setCall] at hcall
  all_goals
    split at hstep <;> cases hstep <;> simp [State.setCall, hc] at hcall

/-- The word that an exchange expects is the one that the last step has loaded. -/
theorem LastStepAt.state_eq {as : List (Label T)} {l : State T} {current : ℕ}
    (h : LastStepAt t s as l) (hrun : run step s as = some s')
    (hcall : s'.calls t = .tryReadExchange current) : l.state = current := by
  obtain ⟨bs, cs, rfl, hcs, hbs⟩ := h
  rw [run_append, hbs, Option.bind_some] at hrun
  obtain ⟨m, hm, hrest⟩ := run_cons_eq_some.mp hrun
  exact load_of_exchanging hm (exchanging_of_run hcs hrest hcall)

theorem exists_lastStepAt {as : List (Label T)} (has : .step t ∈ as)
    (hrun : run step s as = some s') : ∃ l, LastStepAt t s as l := by
  induction as generalizing s with
  | nil => cases has
  | cons a as ih =>
      obtain ⟨m, hm, hrest⟩ := run_cons_eq_some.mp hrun
      by_cases hlater : .step t ∈ as
      · obtain ⟨l, bs, cs, rfl, hcs, hbs⟩ := ih hlater hrest
        exact ⟨l, a :: bs, cs, rfl, hcs, run_cons_eq_some.mpr ⟨m, hm, hbs⟩⟩
      · obtain rfl : .step t = a := (List.mem_cons.mp has).resolve_right hlater
        exact ⟨s, [], as, rfl, hlater, rfl⟩

/-! ### What it finds -/

omit [DecidableEq T] in
theorem Inv.count_of_free (h : Inv s) (hfree : ¬s.WriteLive) : s.state = s.readGuards.length := by
  rcases h.accounted with ⟨⟨u, hone⟩, -, -⟩ | ⟨-, hcount⟩
  · exact absurd hone (by rw [not_not.mp hfree]; simp)
  · exact hcount

/-- With no write guard live during the call, the word tells how many readers there
are, at both accesses. -/
theorem readersStay_iff {m : State T} {mid : List (Label T)}
    (hreach : Reachable step (new T) s) (hload : s.calls t = .tryReadLoad)
    (hrun : run step s mid = some m) (hnever : ¬Sometime step State.WriteLive s mid) :
    ReadersStay t s mid m ↔ m.Undisturbed (m.calls t) := by
  cases hcall : m.calls t
  case tryReadExchange current =>
    have hcount : ∀ l, LastStepAt t s mid l → l.readGuards.length = current := by
      intro l hl
      have hstate := hl.state_eq hrun hcall
      obtain ⟨bs, cs, hsplit, -, hbs⟩ := hl
      have hfree : ¬l.WriteLive := fun hlive => hnever ⟨bs, _, l, hsplit, hbs, hlive⟩
      rw [← (inv_of_reachable (hreach.run hbs)).count_of_free hfree, hstate]
    have hmem : .step t ∈ mid := by
      by_contra hno
      rw [exchanging_of_run hno hrun hcall] at hload
      cases hload
    obtain ⟨l, hl⟩ := exists_lastStepAt hmem hrun
    simp only [ReadersStay, hcall, State.Undisturbed]
    constructor
    · rintro ⟨l', hl', heq⟩
      exact heq.trans (hcount l' hl')
    · intro heq
      exact ⟨l, hl, heq.trans (hcount l hl).symm⟩
  all_goals simp only [ReadersStay, hcall, State.Undisturbed]

/-- With no write guard live, the last access of `try_read` gets a read guard
exactly if the readers let it. -/
theorem acquired_iff {acquired : Bool} (hs : Inv s) (hfree : ¬s.WriteLive)
    (hret : step s (.step t) = some s') (hanswer : s'.calls t = .tryReadReturned acquired) :
    acquired = true ↔ s.Undisturbed (s.calls t) := by
  have hcount := hs.count_of_free hfree
  simp only [step] at hret
  cases hcall : s.calls t <;> simp only [hcall, advance] at hret
  case idle => cases hret
  case tryReadLoad =>
    split at hret <;> cases hret
    · rename_i hwriter
      obtain rfl : acquired = false := by simpa [State.setCall] using hanswer.symm
      simp [State.Undisturbed, ← hcount, hwriter]
    · simp [State.setCall] at hanswer
  case tryReadExchange current =>
    split at hret <;> cases hret
    · rename_i hsame
      obtain rfl : acquired = true := by simpa [State.setCall] using hanswer.symm
      simp [State.Undisturbed, ← hcount, hsame]
    · rename_i hchanged
      obtain rfl : acquired = false := by simpa [State.setCall] using hanswer.symm
      simp [State.Undisturbed, ← hcount, hchanged]
  case readLoad | readExchange | writeExchange | tryWriteExchange =>
    split at hret <;> cases hret <;> simp [State.setCall, hcall] at hanswer
  case readReturned | tryReadReturned | writeReturned | tryWriteReturned =>
    cases hret
    simp [State.setCall] at hanswer

/-- **When readers do not exclude readers in `try_read`.** A call starts in `s`, and
after any steps `mid` makes its last access in `m`. That it fails only if a write
guard was live at some instant of the call means: in a call during which none was,
as many read guards are live when it makes its exchange as when it made its load, or
fewer than look like a writer if it ends with the load. -/
theorem try_read_refused_iff {s₁ m : State T} {mid : List (Label T)} {acquired : Bool}
    (hreach : Reachable step (new T) s) (hstart : step s (.tryRead t) = some s₁)
    (hrun : run step s₁ mid = some m) (hret : step m (.step t) = some s')
    (hanswer : s'.calls t = .tryReadReturned acquired) :
    (acquired = false → Sometime step State.WriteLive s₁ mid) ↔
      (¬Sometime step State.WriteLive s₁ mid → ReadersStay t s₁ mid m) := by
  have hs₁ := hreach.of_step hstart
  have hm : Inv m := inv_of_reachable (hs₁.run hrun)
  have hload : s₁.calls t = .tryReadLoad := by
    obtain ⟨-, heq⟩ := Option.ite_none_right_eq_some.mp hstart
    cases heq
    exact Function.update_self ..
  constructor
  · intro hrefused hnever
    refine (readersStay_iff hs₁ hload hrun hnever).mpr ?_
    have hfree : ¬m.WriteLive := fun h => hnever (.last hrun h)
    have hacquired : acquired = true := by
      cases acquired with
      | true => rfl
      | false => exact absurd (hrefused rfl) hnever
    exact (acquired_iff hm hfree hret hanswer).mp hacquired
  · rintro hstay rfl
    by_contra hnever
    have hfree : ¬m.WriteLive := fun h => hnever (.last hrun h)
    have hundisturbed := (readersStay_iff hs₁ hload hrun hnever).mp (hstay hnever)
    exact absurd ((acquired_iff hm hfree hret hanswer).mpr hundisturbed) (by decide)

/-- A second reader has loaded the word as well, and is behind. -/
theorem try_read_refused_iff_second_behind :
    ∃ s₁ m s' : State ℕ, step (new ℕ) (.tryRead 0) = some s₁ ∧
      run step s₁ [.step 0, .read 1, .step 1] = some m ∧
      step m (.step 0) = some s' ∧ s'.calls 0 = .tryReadReturned true ∧
      (true = false → Sometime step State.WriteLive s₁ [.step 0, .read 1, .step 1]) := by
  obtain ⟨s₁, m, s', hstart, hrun, hret, hanswer, hexchange, hcount⟩ : ∃ s₁ m s' : State ℕ,
      step (new ℕ) (.tryRead 0) = some s₁ ∧ run step s₁ [.step 0, .read 1, .step 1] = some m ∧
      step m (.step 0) = some s' ∧ s'.calls 0 = .tryReadReturned true ∧
      m.calls 0 = .tryReadExchange 0 ∧ m.readGuards.length = s₁.readGuards.length :=
    ⟨_, _, _, rfl, rfl, rfl, rfl, rfl, rfl⟩
  have hstay : ReadersStay 0 s₁ [.step 0, .read 1, .step 1] m := by
    simp only [ReadersStay, hexchange]
    exact ⟨s₁, ⟨[], [.read 1, .step 1], rfl, by decide, rfl⟩, hcount⟩
  exact ⟨s₁, m, s', hstart, hrun, hret, hanswer,
    (try_read_refused_iff ⟨[], rfl⟩ hstart hrun hret hanswer).mpr fun _ => hstay⟩

/-- A second reader gets in between the two accesses: `try_read` fails, and no
write guard has ever been live. -/
theorem reader_refuses_reader :
    ∃ s₁ m s' : State ℕ, step (new ℕ) (.tryRead 0) = some s₁ ∧
      run step s₁ [.step 0, .read 1, .step 1, .step 1] = some m ∧
      step m (.step 0) = some s' ∧ s'.calls 0 = .tryReadReturned false ∧
      ¬Sometime step State.WriteLive s₁ [.step 0, .read 1, .step 1, .step 1] := by
  refine ⟨_, _, _, rfl, rfl, rfl, rfl, Throughout.not_sometime ?_⟩
  decide

end SmpNostd.RwLock
