import Mathlib.Data.Fintype.Card
import SmpNostd.Sync.TicketAnswers

/-!
How long `lock` of the ticket lock waits.

A thread that waits with a ticket is let in after the tickets before it, and each of
these costs two steps, the load that lets its owner in and the drop of the guard. At any
moment just one step brings the others closer to their turn: the drop of the guard if
there is one, and otherwise the load of the thread whose ticket is being served. All
other steps, those of later calls of `lock` and of `try_lock` included, change nothing
for those who wait. So the number of rounds in which all holders drop their guards and
all waiting threads load once is bounded by the number of tickets ahead, however the
steps in a round are ordered and whatever else is between them.
-/

namespace SmpNostd.TicketLock

open Machine

variable {T : Type} [DecidableEq T]

/-- The step everybody is waiting for. -/
def Serves (s : State T) (a : Label T) : Prop :=
  (∃ g ∈ s.guards, a = .drop g.1 g.2) ∨
    s.guards = [] ∧ ∃ u, s.calls u = .waiting s.nowServing ∧ a = .step u

variable {s s' : State T} {t : T} {k : ℕ} {a b : Label T}

/-! ### What a step does while a thread waits -/

inductive Moves (s : State T) (a : Label T) (s' : State T) : Prop
  | quiet (hserving : s'.nowServing = s.nowServing) (hguards : s'.guards = s.guards)
      (hwaiting : ∀ u k, s.calls u = .waiting k → s'.calls u = .waiting k)
      (hnot : ¬Serves s a)
  | enter {u : T} (ha : a = .step u) (hcall : s.calls u = .waiting s.nowServing)
      (hs' : s' = (s.grant u s.nowServing).setCall u .lockReturned)
  | leave {u : T} {k : ℕ} (ha : a = .drop u k) (hguard : (u, k) ∈ s.guards)
      (hs' : s' = { s with
        nowServing := fetchAdd s.nowServing, guards := s.guards.erase (u, k) })

theorem setCall_waiting {u : T} {c : Call} (hu : ∀ k, s.calls u ≠ .waiting k) (v : T) (k : ℕ)
    (hv : s.calls v = .waiting k) : (s.setCall u c).calls v = .waiting k := by
  have hne : v ≠ u := by
    rintro rfl
    exact hu k hv
  rw [setCall_calls_of_ne _ _ hne, hv]

/-- Nobody gets past a waiting thread: an exchange of `try_lock` fails. -/
theorem moves_of_step (h : Inv s) (hwait : s.calls t = .waiting k)
    (hstep : step s a = some s') : Moves s a s' := by
  cases a with
  | lock u | tryLock u | isLocked u =>
      simp only [step] at hstep
      split at hstep <;> cases hstep
      rename_i hidle
      refine .quiet rfl rfl (fun v j hv => ?_) (by simp [Serves])
      exact setCall_waiting (by simp [hidle, State.take]) v j hv
  | drop u j =>
      simp only [step] at hstep
      split at hstep <;> cases hstep
      exact .leave rfl ‹_› rfl
  | step u =>
      have hquiet : ∀ c, (∀ j, s.calls u ≠ .waiting j) → Moves s (.step u) (s.setCall u c) := by
        intro c hu
        refine .quiet rfl rfl (setCall_waiting hu) ?_
        simp [Serves, hu]
      simp only [step] at hstep
      cases hcall : s.calls u with
      | idle => simp [hcall, advance] at hstep
      | waiting j =>
          simp only [hcall, advance] at hstep
          split at hstep <;> cases hstep
          · rename_i hj
            subst hj
            exact .enter rfl hcall rfl
          · rename_i hj
            exact .quiet rfl rfl (fun _ _ => id) (by simp [Serves, hcall, Ne.symm hj])
      | tryExchange n =>
          obtain ⟨hlo, hhi⟩ := h.owns_range (.inl hwait)
          have hn := h.calls_ok u
          rw [hcall] at hn
          have hne : s.nextTicket ≠ n := by
            simp only [CallOk] at hn
            omega
          simp only [hcall, advance, if_neg hne] at hstep
          cases hstep
          exact hquiet _ (by simp [hcall])
      | tryNext n =>
          simp only [hcall, advance] at hstep
          split at hstep <;> cases hstep <;> exact hquiet _ (by simp [hcall])
      | isLockedNext | lockReturned | tryReturned | isLockedReturned =>
          simp only [hcall, advance] at hstep
          cases hstep
          exact hquiet _ (by simp [hcall])

theorem mem_granted_of_step (hk : k ∈ s.granted) (hstep : step s a = some s') :
    k ∈ s'.granted := by
  cases a with
  | lock u | tryLock u | isLocked u | drop u j =>
      simp only [step] at hstep
      split at hstep <;> cases hstep
      exact hk
  | step u =>
      simp only [step] at hstep
      cases hcall : s.calls u <;> simp only [hcall, advance] at hstep
      case idle => cases hstep
      case waiting | tryNext | tryExchange =>
        split at hstep <;> cases hstep <;> simp [State.setCall, State.grant, State.take, hk]
      case lockReturned | tryReturned | isLockedReturned | isLockedNext =>
        cases hstep
        exact hk

/-! ### The turns before a ticket -/

/-- The steps that are still to be waited for, the load that lets the owner of ticket `k`
in included. -/
def State.turnsLeft (s : State T) (k : ℕ) : ℕ :=
  2 * (k - s.nowServing) + if s.guards = [] then 1 else 0

theorem turn_step (h : Inv s) (hbound : s.taken < 2 ^ 64) (hwait : s.calls t = .waiting k)
    (hstep : step s a = some s') :
    k ∈ s'.granted ∨ s'.calls t = .waiting k ∧
      (Serves s a ∧ s'.turnsLeft k + 1 = s.turnsLeft k ∨
        s'.turnsLeft k = s.turnsLeft k ∧ ∀ b, Serves s b → b ≠ a ∧ Serves s' b) := by
  obtain ⟨hlo, hhi⟩ := h.owns_range (.inl hwait)
  cases moves_of_step h hwait hstep with
  | quiet hserving hguards hwaiting hnot =>
      refine .inr ⟨hwaiting t k hwait, .inr ⟨?_, fun b hb => ⟨?_, ?_⟩⟩⟩
      · rw [State.turnsLeft, State.turnsLeft, hserving, hguards]
      · rintro rfl
        exact hnot hb
      · obtain ⟨g, hg, rfl⟩ | ⟨hnil, u, hu, rfl⟩ := hb
        · exact .inl ⟨g, hguards ▸ hg, rfl⟩
        · exact .inr ⟨hguards.trans hnil, u, hserving ▸ hwaiting u _ hu, rfl⟩
  | @enter u ha hcall hs' =>
      obtain ⟨hnil, -⟩ := h.serve hcall
      subst ha hs'
      by_cases hut : t = u
      · subst hut
        obtain rfl : s.nowServing = k := by simpa [hcall] using hwait
        left
        simp [State.setCall, State.grant]
      · right
        refine ⟨(setCall_calls_of_ne _ _ hut).trans hwait, .inl ⟨.inr ⟨hnil, u, hcall, rfl⟩, ?_⟩⟩
        simp [State.turnsLeft, State.setCall, State.grant, hnil]
  | @leave u j ha hguard hs' =>
      subst ha hs'
      obtain ⟨v, hone, hlt⟩ : ∃ v, s.guards = [(v, s.nowServing)] ∧ s.nowServing < s.nextTicket := by
        rcases h.guards_eq with hnil | hone
        · rw [hnil] at hguard
          cases hguard
        · exact hone
      obtain ⟨rfl, rfl⟩ : u = v ∧ j = s.nowServing := by simpa [hone] using hguard
      have hne : s.nowServing ≠ k := by
        rintro rfl
        obtain rfl := h.owns_unique t u _ (.inl hwait) (.inr hguard)
        exact h.guard_not_waiting t _ hguard hwait
      have hnext : fetchAdd s.nowServing = s.nowServing + 1 := by
        have := h.next_eq
        exact fetchAdd_of_lt (by omega)
      refine .inr ⟨hwait, .inl ⟨.inl ⟨_, hguard, rfl⟩, ?_⟩⟩
      simp only [State.turnsLeft, hone, List.erase_cons_head, hnext, if_true,
        reduceCtorEq, if_false]
      omega

theorem inv_run (h : Inv s) (hbound : s'.taken < 2 ^ 64) {as : List (Label T)}
    (hrun : run step s as = some s') : Inv s' := by
  refine run_invariant (I := fun m : State T => m.taken < 2 ^ 64 → Inv m) ?_ (fun _ => h) hrun
    hbound
  intro m a m' hI hstep hm'
  exact inv_step (hI (lt_of_le_of_lt (taken_le_of_step hstep) hm')) hm' hstep

/-- Nobody sends those who wait back. -/
theorem turn_run (h : Inv s) (hbound : s'.taken < 2 ^ 64) (hwait : s.calls t = .waiting k)
    {as : List (Label T)} (hrun : run step s as = some s') :
    k ∈ s'.granted ∨ s'.calls t = .waiting k ∧ s'.turnsLeft k ≤ s.turnsLeft k := by
  induction as generalizing s with
  | nil =>
      obtain rfl := Option.some.inj hrun
      exact .inr ⟨hwait, le_rfl⟩
  | cons a as ih =>
      obtain ⟨m, hm, hrest⟩ := run_cons_eq_some.mp hrun
      have hmbound : m.taken < 2 ^ 64 := lt_of_le_of_lt (taken_le_of_run hrest) hbound
      have hsbound : s.taken < 2 ^ 64 := lt_of_le_of_lt (taken_le_of_step hm) hmbound
      obtain hin | ⟨hwait', hturn⟩ := turn_step h hsbound hwait hm
      · exact .inl (run_invariant (fun _ _ _ => mem_granted_of_step) hin hrest)
      · refine (ih (inv_step h hmbound hm) hwait' hrest).imp_right fun ⟨hw, hle⟩ => ⟨hw, ?_⟩
        rcases hturn with ⟨-, heq⟩ | ⟨heq, -⟩ <;> omega

/-- The step that everybody waits for is waited for until it comes. -/
theorem turn_served (h : Inv s) (hbound : s'.taken < 2 ^ 64) (hwait : s.calls t = .waiting k)
    {as : List (Label T)} (hb : Serves s b) (hmem : b ∈ as) (hrun : run step s as = some s') :
    k ∈ s'.granted ∨ s'.calls t = .waiting k ∧ s'.turnsLeft k < s.turnsLeft k := by
  induction as generalizing s with
  | nil => cases hmem
  | cons a as ih =>
      obtain ⟨m, hm, hrest⟩ := run_cons_eq_some.mp hrun
      have hmbound : m.taken < 2 ^ 64 := lt_of_le_of_lt (taken_le_of_run hrest) hbound
      have hsbound : s.taken < 2 ^ 64 := lt_of_le_of_lt (taken_le_of_step hm) hmbound
      have hinv := inv_step h hmbound hm
      obtain hin | ⟨hwait', ⟨-, heq⟩ | ⟨heq, hstays⟩⟩ := turn_step h hsbound hwait hm
      · exact .inl (run_invariant (fun _ _ _ => mem_granted_of_step) hin hrest)
      · exact (turn_run hinv hbound hwait' hrest).imp_right fun ⟨hw, hle⟩ => ⟨hw, by omega⟩
      · obtain ⟨hne, hb'⟩ := hstays b hb
        have hmem' : b ∈ as := (List.mem_cons.mp hmem).resolve_left hne
        exact (ih hinv hwait' hb' hmem' hrest).imp_right fun ⟨hw, hlt⟩ => ⟨hw, by omega⟩

/-! ### Rounds -/

/-- Who has a guard at the beginning drops it, and who waits then loads at least once. -/
def Round (s : State T) (as : List (Label T)) : Prop :=
  (∀ g ∈ s.guards, .drop g.1 g.2 ∈ as) ∧ ∀ u k, s.calls u = .waiting k → .step u ∈ as

def Rounds : State T → List (List (Label T)) → Prop
  | _, [] => True
  | s, as :: rounds => Round s as ∧ ∀ m, run step s as = some m → Rounds m rounds

theorem Round.serves (h : Inv s) (hwait : s.calls t = .waiting k) {as : List (Label T)}
    (hround : Round s as) : ∃ b ∈ as, Serves s b := by
  rcases h.guards_eq with hnil | ⟨u, hone, -⟩
  · obtain ⟨u, hu, -⟩ := h.hand_off hnil hwait
    exact ⟨_, hround.2 u _ hu, .inr ⟨hnil, u, hu, rfl⟩⟩
  · have hmem : (u, s.nowServing) ∈ s.guards := by simp [hone]
    exact ⟨_, hround.1 _ hmem, .inl ⟨_, hmem, rfl⟩⟩

omit [DecidableEq T] in
theorem turnsLeft_pos (h : Inv s) (hwait : s.calls t = .waiting k) : 0 < s.turnsLeft k := by
  obtain ⟨hlo, -⟩ := h.owns_range (.inl hwait)
  rcases h.guards_eq with hnil | ⟨u, hone, -⟩
  · simp [State.turnsLeft, hnil]
  · have hne : s.nowServing ≠ k := by
      rintro rfl
      exact h.guard_not_waiting t (u, s.nowServing) (by simp [hone])
        (by simpa using hwait)
    have hpos : 0 < k - s.nowServing := by omega
    simp [State.turnsLeft, hone, hpos]

theorem granted_of_rounds (h : Inv s) (hbound : s'.taken < 2 ^ 64)
    (hwait : s.calls t = .waiting k) {rounds : List (List (Label T))} (hrounds : Rounds s rounds)
    (hlen : s.turnsLeft k ≤ rounds.length) (hrun : run step s rounds.flatten = some s') :
    k ∈ s'.granted := by
  induction rounds generalizing s with
  | nil => exact absurd hlen (Nat.not_le.mpr (turnsLeft_pos h hwait))
  | cons as rounds ih =>
      obtain ⟨hround, hrounds⟩ := hrounds
      rw [List.flatten_cons, run_append, Option.bind_eq_some_iff] at hrun
      obtain ⟨m, hm, hrest⟩ := hrun
      have hmbound : m.taken < 2 ^ 64 := lt_of_le_of_lt (taken_le_of_run hrest) hbound
      have hinv : Inv m := inv_run h hmbound hm
      obtain ⟨b, hmem, hb⟩ := hround.serves h hwait
      obtain hin | ⟨hwait', hless⟩ := turn_served h hmbound hwait hb hmem hm
      · exact run_invariant (fun _ _ _ => mem_granted_of_step) hin hrest
      · rw [List.length_cons] at hlen
        exact ih hinv hwait' (hrounds m hm) (by omega) hrest

/-! ### The length of the queue -/

omit [DecidableEq T] in
/-- The tickets after the one being served are in the hands of threads that wait, each
with one of them. -/
theorem ahead_le_card [Fintype T] (h : Inv s) (hwait : s.calls t = .waiting k) :
    k - s.nowServing ≤ Fintype.card T := by
  obtain ⟨hlo, hhi⟩ := h.owns_range (.inl hwait)
  have hwaits : ∀ i : Fin (k - s.nowServing), ∃ u, s.calls u = .waiting (s.nowServing + 1 + i) := by
    intro i
    obtain ⟨u, hu | hu⟩ := h.owned (s.nowServing + 1 + i) (by omega) (by omega)
    · exact ⟨u, hu⟩
    · rcases h.guards_eq with hnil | ⟨v, hone, -⟩
      · rw [hnil] at hu
        cases hu
      · simp only [hone, List.mem_singleton, Prod.mk.injEq] at hu
        omega
  choose owner howner using hwaits
  have hinjective : Function.Injective owner := by
    intro i j hij
    have heq := howner i
    rw [hij, howner j, Call.waiting.injEq] at heq
    exact Fin.ext (by omega)
  simpa using Fintype.card_le_of_injective owner hinjective

/-- **Every call of `lock` is let in.** A thread waits with ticket `k`. While it does, all
guards that are given out, those of `try_lock` included, are for tickets before its own.
There are never more tickets ahead of it than threads. In every run in which holders
drop their guards and waiting threads load `now_serving`, each in every round and in any
order, it has been let in after two rounds for every ticket ahead of it and one more,
whatever other calls there are in between. -/
theorem lock_within_rounds [Fintype T] {s : State T} {t : T} {k : ℕ}
    (hreach : Reachable step (new T) s) (hwait : s.calls t = .waiting k)
    (htaken : s.taken < 2 ^ 64) :
    k - s.nowServing ≤ Fintype.card T ∧
    (∀ as m, run step s as = some m → m.taken < 2 ^ 64 → m.calls t = .waiting k →
      ∀ j ∈ m.granted, j < k) ∧
    ∀ rounds s', Rounds s rounds → 2 * (k - s.nowServing) < rounds.length →
      run step s rounds.flatten = some s' → s'.taken < 2 ^ 64 → k ∈ s'.granted := by
  have h := inv_of_reachable hreach htaken
  refine ⟨ahead_le_card h hwait, fun as m hrun hm hwait' j hj => ?_,
    fun rounds s' hrounds hlen hrun hbound => ?_⟩
  · have hinv := inv_run h hm hrun
    have hpos := turnsLeft_pos hinv hwait'
    rw [hinv.granted_eq, List.mem_range] at hj
    obtain ⟨hlo, -⟩ := hinv.owns_range (.inl hwait')
    rcases hinv.guards_eq with hnil | ⟨u, hone, -⟩
    · simp only [hnil, List.length_nil] at hj
      omega
    · simp only [State.turnsLeft, hone, reduceCtorEq, if_false] at hpos
      simp only [hone, List.length_singleton] at hj
      omega
  · refine granted_of_rounds h hbound hwait hrounds (le_trans ?_ hlen) hrun
    unfold State.turnsLeft
    split <;> omega

/-- Thread 0 has the lock and thread 1 waits; a `try_lock` of thread 2 comes when the lock
is about to be dropped. -/
def queued : List (Label (Fin 3)) := [.lock 0, .lock 1, .step 0, .tryLock 2]

def turns : List (List (Label (Fin 3))) :=
  [[.step 1, .step 2, .drop 0 0, .step 2], [.tryLock 2, .step 1], [.drop 1 1, .step 2]]

theorem lock_within_rounds_queued :
    ∃ s s', run step (new (Fin 3)) queued = some s ∧ s.calls 1 = .waiting 1 ∧
      run step s turns.flatten = some s' ∧ 1 ∈ s'.granted := by
  refine ⟨_, _, rfl, rfl, rfl, ?_⟩
  refine (lock_within_rounds (t := 1) (k := 1) ⟨queued, rfl⟩ rfl (by decide)).2.2 turns _ ?_
    (by decide) rfl (by decide)
  refine ⟨⟨by decide, fun u k hu => ?_⟩, fun m hm => ?_⟩
  · match u with
    | 0 | 2 => cases hu
    | 1 => decide
  · cases hm
    refine ⟨⟨by decide, fun u k hu => ?_⟩, fun m hm => ?_⟩
    · match u with
      | 0 | 2 => cases hu
      | 1 => decide
    · cases hm
      refine ⟨⟨by decide, fun u k hu => ?_⟩, fun _ _ => True.intro⟩
      match u with
      | 0 | 1 | 2 => cases hu

end SmpNostd.TicketLock
