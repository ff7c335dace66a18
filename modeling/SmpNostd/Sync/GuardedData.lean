import SmpNostd.Lib.Guarded
import SmpNostd.Sync.TicketLock
import SmpNostd.Sync.RwLock
import SmpNostd.Sync.SpinLock
import Mathlib.Data.List.Nodup

/-!
The data of the locks of `spinlock.rs`.

`TicketLock<T>`, `SpinLock<T>` and `RwLock<T>` keep their value in an
`UnsafeCell` next to the lock words and declare themselves `Sync`. What makes
this sound is that the value is reached only through the `Deref` and `DerefMut`
of a guard, and that the lock words admit no two guards at once unless both
are read guards. Here the accesses through the guards are put between the
atomic steps of each lock, in any order that the lock words allow. The locks
give what the general argument asks of a lock, so the data behind each of them
is free of races and linearizable.

The value is a family of cells, so that a reader who got in too early would
see one cell of it old and another one new.
-/

namespace SmpNostd.GuardedData

open Machine Lin Guarded

variable {L V R : Type*} [DecidableEq L]

/-! ### The ticket lock -/

section TicketLock

variable {T : Type} [DecidableEq T]

/-- `TicketLock<T>`, whose guards all come with `DerefMut`. -/
def ticketLock (T : Type) [DecidableEq T] :
    Lock T (TicketLock.State T) (TicketLock.Label T) where
  init := TicketLock.new T
  step := TicketLock.step
  holds s t m := m = .exclusive ∧ ∃ g ∈ s.guards, g.1 = t
  drops
    | .drop t _ => some (t, .exclusive)
    | _ => none

/-- A guard of the ticket lock goes only by being dropped. -/
theorem ticketLock_keeps {s s' : TicketLock.State T} {a : TicketLock.Label T} {g : T × ℕ}
    (hstep : TicketLock.step s a = some s') (hg : g ∈ s.guards) (hdrop : a ≠ .drop g.1 g.2) :
    g ∈ s'.guards := by
  cases a with
  | lock t | tryLock t | isLocked t =>
      simp only [TicketLock.step] at hstep
      split at hstep <;> cases hstep
      exact hg
  | step t =>
      simp only [TicketLock.step] at hstep
      cases hcall : s.calls t <;> simp only [hcall, TicketLock.advance] at hstep
      case idle => cases hstep
      case waiting | tryNext | tryExchange =>
        split at hstep <;> cases hstep <;>
          simp [TicketLock.State.setCall, TicketLock.State.grant, TicketLock.State.take, hg]
      case lockReturned | tryReturned | isLockedReturned | isLockedNext =>
        cases hstep
        exact hg
  | drop t k =>
      simp only [TicketLock.step] at hstep
      split at hstep <;> cases hstep
      have hne : g ≠ (t, k) := by
        rintro rfl
        exact hdrop rfl
      exact (List.mem_erase_of_ne hne).mpr hg

theorem ticketLock_excludes : (ticketLock T).Excludes fun s => s.taken < 2 ^ 64 where
  fits_of_step _ _ _ hstep hfits := lt_of_le_of_lt (TicketLock.taken_le_of_step hstep) hfits
  exclusive s t u m hreach hfits ht hu := by
    obtain ⟨-, g, hg, rfl⟩ := of_decide_eq_true ht
    obtain ⟨-, h, hh, rfl⟩ := of_decide_eq_true hu
    rcases (TicketLock.inv_of_reachable hreach hfits).guards_eq with hnil | ⟨v, hone, -⟩
    · simp [hnil] at hg
    · rw [hone, List.mem_singleton] at hg hh
      rw [hg, hh]
  holds_of_drops s a s' t m hstep hdrops := by
    cases a <;> cases hdrops
    rename_i k
    simp only [ticketLock, TicketLock.step] at hstep
    split at hstep <;> cases hstep
    rename_i hg
    exact decide_eq_true ⟨rfl, (t, k), hg, rfl⟩
  keeps s a s' t m hstep hdrops hholds := by
    obtain ⟨rfl, g, hg, rfl⟩ := of_decide_eq_true hholds
    refine decide_eq_true ⟨rfl, g, ticketLock_keeps hstep hg ?_, rfl⟩
    rintro rfl
    exact hdrops rfl

/-- **The data of a ticket lock** is linearizable and free of races, in every
run in which fewer than `2 ^ 64` tickets are taken. -/
theorem ticketLock_data {d : L → V} {s : State T (TicketLock.State T) L V R}
    {as : List (Label T (TicketLock.Label T) L V R)}
    (hrun : run (step (ticketLock T)) (start (ticketLock T) d) as = some s)
    (hbound : s.lock.taken < 2 ^ 64) :
    (∃ c, (object d).History ⟨d, fun _ => .idle⟩
        (history (step (ticketLock T)) visible (start (ticketLock T) d) as) c ∧
      (¬Writing (ticketLock T) s → s.data = c.state)) ∧
    ∀ t u, Stores s t → (step (ticketLock T) s (.access t)).isSome →
      (step (ticketLock T) s (.access u)).isSome → u = t :=
  ⟨linearizable ticketLock_excludes hrun hbound, fun _ _ hstores =>
    race_free ticketLock_excludes ⟨as, hrun⟩ hbound hstores⟩

/-- `*guard += 1`, answering with the old value. -/
def increment : Section Unit ℕ ℕ where
  mode := .exclusive
  prog := .load () fun n => .store () (n + 1) (.ret n)
  readOnly h := by cases h

/-- Two threads count at the same time: the second one waits, and no count is
lost. -/
theorem ticketLock_data_increment :
    let as : List (Label ℕ (TicketLock.Label ℕ) Unit ℕ ℕ) :=
      [.call 0 increment, .call 1 increment, .lock (.lock 0), .lock (.lock 1),
        .lock (.step 1), .lock (.step 0), .access 0, .lock (.step 1), .access 0,
        .lock (.drop 0 0), .lock (.step 1), .ret 0, .access 1, .access 1,
        .lock (.drop 1 1), .ret 1]
    ∃ s, run (step (ticketLock ℕ)) (start (ticketLock ℕ) fun _ => 0) as = some s ∧
      s.lock.taken < 2 ^ 64 ∧ s.data () = 2 ∧
      ∃ c, (object fun _ => 0).History ⟨fun _ => 0, fun _ => .idle⟩
        (history (step (ticketLock ℕ)) visible (start (ticketLock ℕ) fun _ => 0) as) c := by
  intro as
  have hrun : run (step (ticketLock ℕ)) (start (ticketLock ℕ) fun _ => 0) as = some _ := rfl
  obtain ⟨⟨c, hc, -⟩, -⟩ := ticketLock_data hrun (by decide)
  exact ⟨_, hrun, by decide, rfl, c, hc⟩

end TicketLock

/-! ### The reader-writer lock -/

section RwLock

variable {T : Type} [DecidableEq T]

/-- `RwLock<T>`: a read guard has `Deref` only. -/
def rwLock (T : Type) [DecidableEq T] : Lock T (RwLock.State T) (RwLock.Label T) where
  init := RwLock.new T
  step := RwLock.step
  holds s t
    | .shared => t ∈ s.readGuards
    | .exclusive => t ∈ s.writeGuards
  drops
    | .dropRead t => some (t, .shared)
    | .dropWrite t => some (t, .exclusive)
    | _ => none

/-- Of the steps of the reader-writer lock only the drops take a guard away. -/
theorem rwLock_keeps {s s' : RwLock.State T} {a : RwLock.Label T} (t : T)
    (hstep : RwLock.step s a = some s') :
    (t ∈ s.readGuards → a ≠ .dropRead t → t ∈ s'.readGuards) ∧
      (t ∈ s.writeGuards → a ≠ .dropWrite t → t ∈ s'.writeGuards) := by
  cases a with
  | read u | tryRead u | write u | tryWrite u =>
      simp only [RwLock.step] at hstep
      split at hstep <;> cases hstep
      exact ⟨fun h _ => h, fun h _ => h⟩
  | step u =>
      simp only [RwLock.step] at hstep
      cases hcall : s.calls u <;> simp only [hcall, RwLock.advance] at hstep
      case idle => cases hstep
      case readReturned | tryReadReturned | writeReturned | tryWriteReturned =>
        cases hstep
        exact ⟨fun h _ => h, fun h _ => h⟩
      all_goals
        split at hstep <;> cases hstep <;>
          exact ⟨fun h _ => by simp [RwLock.State.setCall, RwLock.State.enterRead,
              RwLock.State.enterWrite, h],
            fun h _ => by simp [RwLock.State.setCall, RwLock.State.enterRead,
              RwLock.State.enterWrite, h]⟩
  | spurious u =>
      simp only [RwLock.step] at hstep
      split at hstep <;> cases hstep <;> exact ⟨fun h _ => h, fun h _ => h⟩
  | dropRead u =>
      simp only [RwLock.step, Option.ite_none_right_eq_some, Option.some.injEq] at hstep
      obtain ⟨-, rfl⟩ := hstep
      refine ⟨fun h hne => (List.mem_erase_of_ne ?_).mpr h, fun h _ => h⟩
      rintro rfl
      exact hne rfl
  | dropWrite u =>
      simp only [RwLock.step, Option.ite_none_right_eq_some, Option.some.injEq] at hstep
      obtain ⟨-, rfl⟩ := hstep
      refine ⟨fun h _ => h, fun h hne => (List.mem_erase_of_ne ?_).mpr h⟩
      rintro rfl
      exact hne rfl

/-- The reader-writer lock excludes with any number of guards, leaked ones
included. -/
theorem rwLock_excludes : (rwLock T).Excludes fun _ => True where
  fits_of_step _ _ _ _ _ := trivial
  exclusive s t u m hreach _ ht hu := by
    have ht : t ∈ s.writeGuards := of_decide_eq_true ht
    rcases (RwLock.inv_of_reachable hreach).accounted with ⟨⟨v, hone⟩, hread, -⟩ | ⟨hnil, -⟩
    · cases m with
      | shared =>
          have hu : u ∈ s.readGuards := of_decide_eq_true hu
          simp [hread] at hu
      | exclusive =>
          have hu : u ∈ s.writeGuards := of_decide_eq_true hu
          rw [hone, List.mem_singleton] at ht hu
          rw [ht, hu]
    · simp [hnil] at ht
  holds_of_drops s a s' t m hstep hdrops := by
    cases a <;> cases hdrops
    all_goals
      simp only [rwLock, RwLock.step, Option.ite_none_right_eq_some] at hstep
      exact decide_eq_true hstep.1
  keeps s a s' t m hstep hdrops hholds := by
    have hkeep := rwLock_keeps t hstep
    cases m with
    | shared =>
        refine decide_eq_true (hkeep.1 (of_decide_eq_true hholds) ?_)
        rintro rfl
        exact hdrops rfl
    | exclusive =>
        refine decide_eq_true (hkeep.2 (of_decide_eq_true hholds) ?_)
        rintro rfl
        exact hdrops rfl

/-- **The data of a reader-writer lock** is linearizable and free of races, in
every run. -/
theorem rwLock_data {d : L → V} {s : State T (RwLock.State T) L V R}
    {as : List (Label T (RwLock.Label T) L V R)}
    (hrun : run (step (rwLock T)) (start (rwLock T) d) as = some s) :
    (∃ c, (object d).History ⟨d, fun _ => .idle⟩
        (history (step (rwLock T)) visible (start (rwLock T) d) as) c ∧
      (¬Writing (rwLock T) s → s.data = c.state)) ∧
    ∀ t u, Stores s t → (step (rwLock T) s (.access t)).isSome →
      (step (rwLock T) s (.access u)).isSome → u = t :=
  ⟨linearizable rwLock_excludes hrun trivial, fun _ _ hstores =>
    race_free rwLock_excludes ⟨as, hrun⟩ trivial hstores⟩

/-- Both cells under a read guard. -/
def snapshot : Section Bool ℕ (ℕ × ℕ) where
  mode := .shared
  prog := .load false fun m => .load true fun n => .ret (m, n)
  readOnly _ := fun _ _ => trivial

/-- Both cells set under a write guard. -/
def setBoth (n : ℕ) : Section Bool ℕ (ℕ × ℕ) where
  mode := .exclusive
  prog := .store false n (.store true n (.ret (n, n)))
  readOnly h := by cases h

/-- A reader that would like to get in between the two stores of a writer has
to wait, and a second reader gets in beside the first. -/
theorem rwLock_data_snapshot :
    let as : List (Label ℕ (RwLock.Label ℕ) Bool ℕ (ℕ × ℕ)) :=
      [.call 0 (setBoth 7), .call 1 snapshot, .call 2 snapshot, .lock (.write 0),
        .lock (.step 0), .access 0, .lock (.read 1), .lock (.step 1), .access 0,
        .lock (.dropWrite 0), .lock (.step 1), .lock (.step 1), .access 1,
        .lock (.tryRead 2), .lock (.step 2), .lock (.step 2), .access 2, .access 1,
        .lock (.dropRead 1), .access 2, .lock (.dropRead 2), .ret 2, .ret 1, .ret 0]
    ∃ s, run (step (rwLock ℕ)) (start (rwLock ℕ) fun _ => 0) as = some s ∧
      (s.data false, s.data true) = (7, 7) ∧
      ∃ c, (object fun _ => 0).History ⟨fun _ => 0, fun _ => .idle⟩
        (history (step (rwLock ℕ)) visible (start (rwLock ℕ) fun _ => 0) as) c := by
  intro as
  have hrun : run (step (rwLock ℕ)) (start (rwLock ℕ) fun _ => 0) as = some _ := rfl
  obtain ⟨⟨c, hc, -⟩, -⟩ := rwLock_data hrun
  exact ⟨_, hrun, rfl, c, hc⟩

end RwLock

/-! ### The interrupt-disabling spin lock -/

section SpinLock

variable {C K : Type} [DecidableEq C] [DecidableEq K]

/-- What the lock words and the guards do in a step: nothing, or a free lock
is taken, or a guard goes and its lock is free. -/
theorem spinLock_cases {s s' : SpinLock.State C K} {a : SpinLock.Label C K}
    (hstep : SpinLock.step s a = some s') :
    ((∀ c g, a ≠ .drop c g) ∧ s'.locked = s.locked ∧ s'.guards = s.guards) ∨
    (∃ c l was, (∀ d g, a ≠ .drop d g) ∧ s.locked l = false ∧
      s'.locked = Function.update s.locked l true ∧
      s'.guards = Function.update s.guards c (⟨l, was⟩ :: s.guards c)) ∨
    ∃ c g, a = .drop c g ∧ g ∈ s.guards c ∧
      s'.locked = Function.update s.locked g.lock false ∧
      s'.guards = Function.update s.guards c ((s.guards c).erase g) := by
  cases a with
  | lock c l =>
      simp only [SpinLock.step, SpinLock.lock] at hstep
      split at hstep
      · cases hstep
      · rename_i hfree
        cases hstep
        exact .inr (.inl ⟨c, l, _, by simp, Bool.not_eq_true _ ▸ hfree, rfl, rfl⟩)
  | tryLock c l =>
      obtain rfl := Option.some.inj hstep
      cases hl : s.locked l with
      | true =>
          rw [SpinLock.tryLock_of_locked hl]
          exact .inl ⟨by simp, rfl, rfl⟩
      | false =>
          refine .inr (.inl ⟨c, l, (SpinLock.disableInterrupts (s.rflags c)).1, by simp, hl, ?_⟩)
          have hfree : ¬(s.setRflags c (SpinLock.disableInterrupts (s.rflags c)).2).locked l :=
            fun htaken => Bool.false_ne_true (hl.symm.trans htaken)
          simp only [SpinLock.tryLock, if_neg hfree]
          exact ⟨rfl, rfl⟩
  | drop c g =>
      simp only [SpinLock.step] at hstep
      split at hstep <;> cases hstep
      rename_i hg
      exact .inr (.inr ⟨c, g, rfl, hg, rfl, rfl⟩)

/-- Every guard's lock is taken, and no lock has two guards. -/
structure OneGuard (s : SpinLock.State C K) : Prop where
  locked : ∀ c, ∀ g ∈ s.guards c, s.locked g.lock = true
  unique : ∀ c d, ∀ g ∈ s.guards c, ∀ h ∈ s.guards d, g.lock = h.lock → c = d
  nodup : ∀ c, ((s.guards c).map SpinLock.Guard.lock).Nodup

omit [DecidableEq C] [DecidableEq K] in
theorem oneGuard_start (rflags : C → BitVec 64) : OneGuard (SpinLock.start K rflags) where
  locked _ _ hg := by cases hg
  unique _ _ _ hg := by cases hg
  nodup _ := List.nodup_nil

/-- The guard of a lock that was free is the only one for it. -/
theorem OneGuard.acquire {s s' : SpinLock.State C K} (h : OneGuard s) {c : C} {l : K}
    {was : Bool} (hfree : s.locked l = false)
    (hlocked : s'.locked = Function.update s.locked l true)
    (hguards : s'.guards = Function.update s.guards c (⟨l, was⟩ :: s.guards c)) :
    OneGuard s' := by
  have hne : ∀ d, ∀ g ∈ s.guards d, g.lock ≠ l := by
    rintro d g hg rfl
    rw [h.locked d g hg] at hfree
    cases hfree
  have hmem : ∀ d g, g ∈ s'.guards d → (d = c ∧ g.lock = l) ∨ g ∈ s.guards d := by
    intro d g hg
    rw [hguards] at hg
    by_cases hd : d = c
    · subst hd
      rw [Function.update_self, List.mem_cons] at hg
      exact hg.imp (fun heq => ⟨rfl, by rw [heq]⟩) id
    · rw [Function.update_of_ne hd] at hg
      exact .inr hg
  refine ⟨?_, ?_, ?_⟩
  · intro d g hg
    rw [hlocked]
    rcases hmem d g hg with ⟨-, hl⟩ | hg
    · rw [hl, Function.update_self]
    · rw [Function.update_of_ne (hne d g hg)]
      exact h.locked d g hg
  · intro d e g hg k hk heq
    rcases hmem d g hg with ⟨hd, hl⟩ | hg <;> rcases hmem e k hk with ⟨he, hl'⟩ | hk
    · rw [hd, he]
    · exact absurd (heq.symm.trans hl) (hne e k hk)
    · exact absurd (heq.trans hl') (hne d g hg)
    · exact h.unique d e g hg k hk heq
  · intro d
    rw [hguards]
    by_cases hd : d = c
    · subst hd
      rw [Function.update_self, List.map_cons, List.nodup_cons]
      refine ⟨fun hl => ?_, h.nodup d⟩
      obtain ⟨g, hg, hgl⟩ := List.mem_map.mp hl
      exact hne d g hg hgl
    · rw [Function.update_of_ne hd]
      exact h.nodup d

/-- Once its guard has gone no guard of a lock is left. -/
theorem OneGuard.drop {s s' : SpinLock.State C K} (h : OneGuard s) {c : C}
    {g : SpinLock.Guard K} (hg : g ∈ s.guards c)
    (hlocked : s'.locked = Function.update s.locked g.lock false)
    (hguards : s'.guards = Function.update s.guards c ((s.guards c).erase g)) :
    OneGuard s' := by
  have hsub : ∀ d, (s'.guards d).Sublist (s.guards d) := by
    intro d
    rw [hguards]
    by_cases hd : d = c
    · subst hd
      rw [Function.update_self]
      exact List.erase_sublist
    · rw [Function.update_of_ne hd]
  have hother : ∀ d, ∀ k ∈ s'.guards d, k.lock ≠ g.lock := by
    intro d k hk heq
    obtain rfl := h.unique d c k ((hsub d).subset hk) g hg heq
    have hnodup : (s.guards d).Nodup := (h.nodup d).of_map _
    rw [hguards, Function.update_self, hnodup.mem_erase_iff] at hk
    exact hk.1 (List.inj_on_of_nodup_map (h.nodup d) hk.2 hg heq)
  refine ⟨?_, ?_, fun d => (h.nodup d).sublist ((hsub d).map _)⟩
  · intro d k hk
    rw [hlocked, Function.update_of_ne (hother d k hk)]
    exact h.locked d k ((hsub d).subset hk)
  · intro d e k hk j hj heq
    exact h.unique d e k ((hsub d).subset hk) j ((hsub e).subset hj) heq

theorem oneGuard_of_reachable {rflags : C → BitVec 64} {s : SpinLock.State C K}
    (hreach : Reachable SpinLock.step (SpinLock.start K rflags) s) : OneGuard s := by
  refine reachable_invariant (fun s a s' h hstep => ?_) (oneGuard_start rflags) hreach
  rcases spinLock_cases hstep with ⟨-, hl, hg⟩ | ⟨c, l, was, -, hfree, hl, hg⟩ |
    ⟨c, g, -, hmem, hl, hg⟩
  · refine ⟨?_, ?_, ?_⟩ <;> simp only [hl, hg]
    · exact h.locked
    · exact h.unique
    · exact h.nodup
  · exact h.acquire hfree hl hg
  · exact h.drop hmem hl hg

/-- `SpinLock<T>`, the one of the locks that is `l`; its guards all come with
`DerefMut`. -/
def spinLock (rflags : C → BitVec 64) (l : K) :
    Lock C (SpinLock.State C K) (SpinLock.Label C K) where
  init := SpinLock.start K rflags
  step := SpinLock.step
  holds s c m := m = .exclusive ∧ ∃ g ∈ s.guards c, g.lock = l
  drops
    | .drop c g => if g.lock = l then some (c, .exclusive) else none
    | _ => none

theorem spinLock_excludes (rflags : C → BitVec 64) (l : K) :
    (spinLock rflags l).Excludes fun _ => True where
  fits_of_step _ _ _ _ _ := trivial
  exclusive s c d m hreach _ hc hd := by
    obtain ⟨-, g, hg, hgl⟩ := of_decide_eq_true hc
    obtain ⟨-, h, hh, hhl⟩ := of_decide_eq_true hd
    exact (oneGuard_of_reachable hreach).unique d c h hh g hg (hhl.trans hgl.symm)
  holds_of_drops s a s' c m hstep hdrops := by
    rcases spinLock_cases hstep with ⟨hno, -, -⟩ | ⟨-, -, -, hno, -, -, -⟩ |
      ⟨d, g, rfl, hmem, -, -⟩
    · cases a <;> first | exact absurd rfl (hno _ _) | cases hdrops
    · cases a <;> first | exact absurd rfl (hno _ _) | cases hdrops
    · obtain ⟨hl, heq⟩ := Option.ite_none_right_eq_some.mp hdrops
      cases heq
      exact decide_eq_true ⟨rfl, g, hmem, hl⟩
  keeps s a s' c m hstep hdrops hholds := by
    obtain ⟨rfl, g, hg, hgl⟩ := of_decide_eq_true hholds
    refine decide_eq_true ⟨rfl, g, ?_, hgl⟩
    rcases spinLock_cases hstep with ⟨-, -, hguards⟩ | ⟨d, k, was, -, -, -, hguards⟩ |
      ⟨d, h, rfl, -, -, hguards⟩ <;> rw [hguards]
    · exact hg
    · by_cases hd : c = d
      · subst hd
        rw [Function.update_self]
        exact List.mem_cons_of_mem _ hg
      · rwa [Function.update_of_ne hd]
    · by_cases hd : c = d
      · subst hd
        rw [Function.update_self]
        refine (List.mem_erase_of_ne ?_).mpr hg
        rintro rfl
        exact hdrops (if_pos hgl)
      · rwa [Function.update_of_ne hd]

/-- **The data of a spin lock** is linearizable and free of races, in every run
of any number of cores on any number of such locks. -/
theorem spinLock_data {rflags : C → BitVec 64} {l : K} {d : L → V}
    {s : State C (SpinLock.State C K) L V R} {as : List (Label C (SpinLock.Label C K) L V R)}
    (hrun : run (step (spinLock rflags l)) (start (spinLock rflags l) d) as = some s) :
    (∃ c, (object d).History ⟨d, fun _ => .idle⟩
        (history (step (spinLock rflags l)) visible (start (spinLock rflags l) d) as) c ∧
      (¬Writing (spinLock rflags l) s → s.data = c.state)) ∧
    ∀ t u, Stores s t → (step (spinLock rflags l) s (.access t)).isSome →
      (step (spinLock rflags l) s (.access u)).isSome → u = t :=
  ⟨linearizable (spinLock_excludes rflags l) hrun trivial, fun _ _ hstores =>
    race_free (spinLock_excludes rflags l) ⟨as, hrun⟩ trivial hstores⟩

/-- Two cores count behind the lock `0`, one of them inside a section of
another lock. -/
theorem spinLock_data_increment :
    let lock := spinLock (fun _ : ℕ => 0#64) 0
    let as : List (Label ℕ (SpinLock.Label ℕ ℕ) Unit ℕ ℕ) :=
      [.call 0 increment, .call 1 increment, .lock (.lock 1 5), .lock (.lock 0 0),
        .lock (.tryLock 1 0), .access 0, .access 0, .lock (.drop 0 ⟨0, false⟩),
        .lock (.lock 1 0), .access 1, .lock (.drop 1 ⟨5, false⟩), .access 1,
        .lock (.drop 1 ⟨0, false⟩), .ret 1, .ret 0]
    ∃ s, run (step lock) (start lock fun _ => 0) as = some s ∧ s.data () = 2 ∧
      ∃ c, (object fun _ => 0).History ⟨fun _ => 0, fun _ => .idle⟩
        (history (step lock) visible (start lock fun _ => 0) as) c := by
  intro lock as
  have hdata : (run (step lock) (start lock fun _ => 0) as).map (fun s => s.data ()) = some 2 := by
    decide +kernel
  obtain ⟨s, hrun, hs⟩ := Option.map_eq_some_iff.mp hdata
  obtain ⟨⟨c, hc, -⟩, -⟩ := spinLock_data hrun
  exact ⟨s, hrun, hs, c, hc⟩

end SpinLock

end SmpNostd.GuardedData
