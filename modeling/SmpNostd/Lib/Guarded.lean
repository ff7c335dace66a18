import SmpNostd.Lib.Linearizability

/-!
Data behind a lock.

A lock hands out guards, and a thread that has one works on the data behind
the lock: it loads and stores single cells, and any other thread may run
between two of its accesses. Nothing about the lock is assumed but that an
exclusive guard is the only guard, and that a guard stays until its holder
drops it. From these two facts alone follow that no two threads ever race for
a cell, and that the data behaves as if every critical section were performed
at a single instant: the history of the calls and answers is linearizable.

The instant is the drop of the guard. Until then the atomic object lags
behind: its state is the data without the stores of the section in progress.
The invariant says this without looking into the past, by looking at what is
still to come. The rest of a section, performed on the data as it is, ends as
the whole section does on the state of the atomic object. A load or a store
moves one instruction from the rest to the data, and at the drop there is no
rest left.

A lock may keep its promises only up to some point, when a counter of it would
wrap. The predicate `fits` marks the states before that point.
-/

namespace SmpNostd.Guarded

open Machine Lin

/-! ### Critical sections -/

/-- A guard to look at the data, or one to change it. -/
inductive Mode
  | shared
  | exclusive
  deriving DecidableEq, Repr

/-- What a thread does while it has a guard: loads and stores of single cells,
each of which may depend on what was loaded before, and an answer. -/
inductive Prog (L V R : Type*)
  | ret (r : R)
  | load (l : L) (k : V → Prog L V R)
  | store (l : L) (v : V) (p : Prog L V R)

variable {T σ ι L V R : Type*}

/-- All of a section at once: the cells after it, and its answer. -/
def Prog.exec [DecidableEq L] : Prog L V R → (L → V) → (L → V) × R
  | .ret r, d => (d, r)
  | .load l k, d => (k (d l)).exec d
  | .store l v p, d => p.exec (Function.update d l v)

/-- The section stores nothing, whatever it loads. -/
def Prog.ReadOnly : Prog L V R → Prop
  | .ret _ => True
  | .load _ k => ∀ v, (k v).ReadOnly
  | .store _ _ _ => False

/-- A section with the guard it is performed under. Under a shared guard the
data can only be looked at. -/
structure Section (L V R : Type*) where
  mode : Mode
  prog : Prog L V R
  readOnly : mode = .shared → prog.ReadOnly

/-- What the data is for: every section is performed at once. -/
def object [DecidableEq L] (d : L → V) : Object (L → V) (Section L V R) R where
  init := d
  apply d op := op.prog.exec d

/-! ### The lock -/

/-- A lock, with the guards its threads have and the labels that drop one. -/
structure Lock (T σ ι : Type*) where
  init : σ
  step : σ → ι → Option σ
  holds : σ → T → Mode → Bool
  drops : ι → Option (T × Mode)

/-- What the data needs of its lock, in the states that fit. -/
structure Lock.Excludes (lock : Lock T σ ι) (fits : σ → Prop) : Prop where
  fits_of_step : ∀ s a s', lock.step s a = some s' → fits s' → fits s
  /-- The holder of an exclusive guard is the only holder of a guard. -/
  exclusive : ∀ s t u m, Reachable lock.step lock.init s → fits s →
    lock.holds s t .exclusive → lock.holds s u m → u = t
  holds_of_drops : ∀ s a s' t m, lock.step s a = some s' → lock.drops a = some (t, m) →
    lock.holds s t m
  /-- A guard stays until it is dropped. -/
  keeps : ∀ s a s' t m, lock.step s a = some s' → lock.drops a ≠ some (t, m) →
    lock.holds s t m → lock.holds s' t m

/-! ### The data and its lock -/

/-- Where a thread is in an operation on the data. -/
inductive Thread (L V R : Type*)
  | idle
  /-- It waits for its guard or has it, and `rest` is still to be done. -/
  | running (op : Section L V R) (rest : Prog L V R)
  | done (r : R)

structure State (T σ L V R : Type*) where
  lock : σ
  data : L → V
  threads : T → Thread L V R

def start (lock : Lock T σ ι) (d : L → V) : State T σ L V R where
  lock := lock.init
  data := d
  threads _ := .idle

/-- The lock makes a step, or a thread calls an operation, makes the next
access of its section, or returns. -/
inductive Label (T ι L V R : Type*)
  | lock (a : ι)
  | call (t : T) (op : Section L V R)
  | access (t : T)
  | ret (t : T)

variable [DecidableEq T]

def State.setThread (s : State T σ L V R) (t : T) (p : Thread L V R) : State T σ L V R :=
  { s with threads := Function.update s.threads t p }

@[simp] theorem setThread_threads_self (s : State T σ L V R) (t : T) (p : Thread L V R) :
    (s.setThread t p).threads t = p := Function.update_self ..

@[simp] theorem setThread_threads_of_ne (s : State T σ L V R) {t u : T} (p : Thread L V R)
    (h : u ≠ t) : (s.setThread t p).threads u = s.threads u := Function.update_of_ne h ..

@[simp] theorem setThread_lock (s : State T σ L V R) (t : T) (p : Thread L V R) :
    (s.setThread t p).lock = s.lock := rfl

@[simp] theorem setThread_data (s : State T σ L V R) (t : T) (p : Thread L V R) :
    (s.setThread t p).data = s.data := rfl

variable [DecidableEq L]

/-- The next load or store of a thread. It goes through the guard. -/
def access (lock : Lock T σ ι) (s : State T σ L V R) (t : T) : Option (State T σ L V R) :=
  match s.threads t with
  | .running op (.load l k) =>
      if lock.holds s.lock t op.mode then some (s.setThread t (.running op (k (s.data l))))
      else none
  | .running op (.store l v p) =>
      if lock.holds s.lock t op.mode then
        some { s.setThread t (.running op p) with data := Function.update s.data l v }
      else none
  | _ => none

/-- A guard is dropped at the end of the section it was taken for; all other
steps of the lock may come at any time. -/
def lockStep (lock : Lock T σ ι) (s : State T σ L V R) (a : ι) : Option (State T σ L V R) :=
  match lock.drops a with
  | none => (lock.step s.lock a).map fun l => { s with lock := l }
  | some (t, m) =>
      match s.threads t with
      | .running op (.ret r) =>
          if op.mode = m then
            (lock.step s.lock a).map fun l => { s.setThread t (.done r) with lock := l }
          else none
      | _ => none

def step (lock : Lock T σ ι) (s : State T σ L V R) : Label T ι L V R → Option (State T σ L V R)
  | .lock a => lockStep lock s a
  | .call t op =>
      match s.threads t with
      | .idle => some (s.setThread t (.running op op.prog))
      | _ => none
  | .access t => access lock s t
  | .ret t =>
      match s.threads t with
      | .done _ => some (s.setThread t .idle)
      | _ => none

/-- Only calls and answers are seen. -/
def visible (s : State T σ L V R) : Label T ι L V R → Option (Event T (Section L V R) R)
  | .call t op => some (.call t op)
  | .ret t =>
      match s.threads t with
      | .done r => some (.ret t r)
      | _ => none
  | _ => none

/-- What a step can be, with the state it leads to. -/
inductive Steps (lock : Lock T σ ι) (s : State T σ L V R) :
    Label T ι L V R → State T σ L V R → Prop
  | quiet {a : ι} {l : σ} (hdrops : lock.drops a = none) (h : lock.step s.lock a = some l) :
      Steps lock s (.lock a) { s with lock := l }
  | drop {a : ι} {l : σ} {t : T} {op : Section L V R} {r : R}
      (hdrops : lock.drops a = some (t, op.mode)) (h : lock.step s.lock a = some l)
      (ht : s.threads t = .running op (.ret r)) :
      Steps lock s (.lock a) { s.setThread t (.done r) with lock := l }
  | call {t : T} (op : Section L V R) (ht : s.threads t = .idle) :
      Steps lock s (.call t op) (s.setThread t (.running op op.prog))
  | load {t : T} {op : Section L V R} {l : L} {k : V → Prog L V R}
      (ht : s.threads t = .running op (.load l k)) (hholds : lock.holds s.lock t op.mode) :
      Steps lock s (.access t) (s.setThread t (.running op (k (s.data l))))
  | store {t : T} {op : Section L V R} {l : L} {v : V} {p : Prog L V R}
      (ht : s.threads t = .running op (.store l v p)) (hholds : lock.holds s.lock t op.mode) :
      Steps lock s (.access t)
        { s.setThread t (.running op p) with data := Function.update s.data l v }
  | ret {t : T} {r : R} (ht : s.threads t = .done r) :
      Steps lock s (.ret t) (s.setThread t .idle)

theorem steps_of_step {lock : Lock T σ ι} {s s' : State T σ L V R} {a : Label T ι L V R}
    (h : step lock s a = some s') : Steps lock s a s' := by
  cases a with
  | lock a =>
      simp only [step, lockStep] at h
      split at h
      · rename_i hdrops
        obtain ⟨l, hl, rfl⟩ := Option.map_eq_some_iff.mp h
        exact .quiet hdrops hl
      · rename_i t m hdrops
        split at h
        · rename_i op r ht
          split at h
          · rename_i hm
            obtain ⟨l, hl, rfl⟩ := Option.map_eq_some_iff.mp h
            exact .drop (hm ▸ hdrops) hl ht
          · cases h
        · cases h
  | call t op =>
      simp only [step] at h
      split at h <;> cases h
      rename_i ht
      exact .call op ht
  | access t =>
      simp only [step, access] at h
      split at h
      · rename_i op l k ht
        obtain ⟨hholds, heq⟩ := Option.ite_none_right_eq_some.mp h
        cases heq
        exact .load ht hholds
      · rename_i op l v p ht
        obtain ⟨hholds, heq⟩ := Option.ite_none_right_eq_some.mp h
        cases heq
        exact .store ht hholds
      · cases h
  | ret t =>
      simp only [step] at h
      split at h <;> cases h
      rename_i r ht
      exact .ret ht

/-! ### Threads by themselves -/

/-- What a section in progress is like: under a shared guard its rest is
read-only, and without a guard all of it is still to be done. -/
structure Inv (lock : Lock T σ ι) (s : State T σ L V R) : Prop where
  reachable : Reachable lock.step lock.init s.lock
  readOnly : ∀ t op p, s.threads t = .running op p → op.mode = .shared → p.ReadOnly
  unstarted : ∀ t op p, s.threads t = .running op p → lock.holds s.lock t op.mode = false → p = op.prog

omit [DecidableEq T] [DecidableEq L] in
theorem inv_start (lock : Lock T σ ι) (d : L → V) : Inv lock (start (R := R) lock d) where
  reachable := ⟨[], rfl⟩
  readOnly _ _ _ h := by cases h
  unstarted _ _ _ h := by cases h

omit [DecidableEq L] in
/-- A thread changes its phase, the lock and the guards being as they are. -/
theorem Inv.setThread {lock : Lock T σ ι} {s : State T σ L V R} (h : Inv lock s) {t : T}
    {ph : Thread L V R}
    (hro : ∀ op p, ph = .running op p → op.mode = .shared → p.ReadOnly)
    (hun : ∀ op p, ph = .running op p → lock.holds s.lock t op.mode = false → p = op.prog) :
    Inv lock (s.setThread t ph) where
  reachable := h.reachable
  readOnly u op p hu := by
    by_cases hut : u = t
    · subst hut
      exact hro op p (by simpa using hu)
    · rw [setThread_threads_of_ne s ph hut] at hu
      exact h.readOnly u op p hu
  unstarted u op p hu := by
    by_cases hut : u = t
    · subst hut
      exact hun op p (by simpa using hu)
    · rw [setThread_threads_of_ne s ph hut] at hu
      exact h.unstarted u op p hu

omit [DecidableEq T] [DecidableEq L] in
theorem Lock.Excludes.holds_eq_false {lock : Lock T σ ι} {fits : σ → Prop}
    (hex : lock.Excludes fits) {l l' : σ} {a : ι} {t : T} {m : Mode}
    (h : lock.step l a = some l') (hdrops : lock.drops a ≠ some (t, m))
    (hfalse : lock.holds l' t m = false) : lock.holds l t m = false := by
  by_contra htrue
  rw [Bool.not_eq_false] at htrue
  rw [hex.keeps l a l' t m h hdrops htrue] at hfalse
  cases hfalse

/-- One step keeps the sections in order. -/
theorem inv_step {lock : Lock T σ ι} {fits : σ → Prop} (hex : lock.Excludes fits)
    {s s' : State T σ L V R} {a : Label T ι L V R} (h : Inv lock s)
    (hstep : step lock s a = some s') : Inv lock s' := by
  cases steps_of_step hstep with
  | quiet hdrops hl =>
      refine ⟨h.reachable.of_step hl, h.readOnly, fun u op p hu hfalse => ?_⟩
      exact h.unstarted u op p hu (hex.holds_eq_false hl (by simp [hdrops]) hfalse)
  | @drop a l t op r hdrops hl ht =>
      have hset : Inv lock (s.setThread t (.done r)) := h.setThread (by simp) (by simp)
      refine ⟨h.reachable.of_step hl, hset.readOnly, fun u op' p hu hfalse => ?_⟩
      have hut : u ≠ t := by
        rintro rfl
        simp at hu
      refine hset.unstarted u op' p hu (hex.holds_eq_false hl ?_ hfalse)
      rw [hdrops]
      simp [Ne.symm hut]
  | call op ht =>
      apply h.setThread
      · rintro op' p ⟨⟩
        exact op.readOnly
      · rintro op' p ⟨⟩ -
        rfl
  | load ht hholds =>
      apply h.setThread
      · rintro op' p ⟨⟩ hm
        exact h.readOnly _ _ _ ht hm _
      · rintro op' p ⟨⟩ hfalse
        rw [hholds] at hfalse
        cases hfalse
  | @store t op l v p ht hholds =>
      have hset : Inv lock (s.setThread t (.running op p)) := by
        apply h.setThread
        · rintro op' p ⟨⟩ hm
          exact (h.readOnly _ _ _ ht hm).elim
        · rintro op' p ⟨⟩ hfalse
          rw [hholds] at hfalse
          cases hfalse
      exact ⟨hset.reachable, hset.readOnly, hset.unstarted⟩
  | ret ht => exact h.setThread (by simp) (by simp)

/-! ### No races -/

/-- Thread `t` is about to store into a cell. -/
def Stores (s : State T σ L V R) (t : T) : Prop :=
  ∃ op l v p, s.threads t = .running op (.store l v p)

/-- The lock still fits in every state before one in which it does. -/
theorem fits_of_run {lock : Lock T σ ι} {fits : σ → Prop} (hex : lock.Excludes fits)
    {s s' : State T σ L V R} {a : Label T ι L V R} (h : step lock s a = some s')
    (hfits : fits s'.lock) : fits s.lock := by
  cases steps_of_step h with
  | quiet _ hl | drop _ hl _ => exact hex.fits_of_step _ _ _ hl hfits
  | call | load | store | ret => exact hfits

/-- **No two threads race for the data.** A thread that can store is the only
one that can make an access at all. -/
theorem race_free {lock : Lock T σ ι} {fits : σ → Prop} (hex : lock.Excludes fits) {d : L → V}
    {s : State T σ L V R} (hreach : Reachable (step lock) (start lock d) s)
    (hfits : fits s.lock) {t u : T} (hstores : Stores s t)
    (ht : (step lock s (.access t)).isSome) (hu : (step lock s (.access u)).isSome) : u = t := by
  have h : Inv lock s :=
    reachable_invariant (fun _ _ _ hI hstep => inv_step hex hI hstep) (inv_start lock d) hreach
  have hholds : ∀ v, (step lock s (.access v)).isSome → ∃ m, lock.holds s.lock v m := by
    intro v hv
    obtain ⟨s', hs'⟩ := Option.isSome_iff_exists.mp hv
    cases steps_of_step hs' with
    | load _ hholds | store _ hholds => exact ⟨_, hholds⟩
  obtain ⟨op, l, v, p, hop⟩ := hstores
  have hmode : op.mode = .exclusive := by
    cases hm : op.mode with
    | exclusive => rfl
    | shared => exact (h.readOnly t op _ hop hm).elim
  have hexcl : lock.holds s.lock t .exclusive := by
    obtain ⟨s', hs'⟩ := Option.isSome_iff_exists.mp ht
    cases steps_of_step hs' with
    | load ht' _ => rw [ht'] at hop; cases hop
    | store ht' hholds =>
        rw [ht'] at hop
        cases hop
        exact hmode ▸ hholds
  obtain ⟨m, hm⟩ := hholds u hu
  exact hex.exclusive s.lock t u m h.reachable hfits hexcl hm

/-! ### Linearizability -/

/-- Where a thread of the atomic object is. -/
def Thread.phase : Thread L V R → Phase (Section L V R) R
  | .idle => .idle
  | .running op _ => .pending op
  | .done r => .done r

/-- A section that may store is in progress and has its guard. -/
def Writing (lock : Lock T σ ι) (s : State T σ L V R) : Prop :=
  ∃ t op p, s.threads t = .running op p ∧ op.mode = .exclusive ∧
    lock.holds s.lock t .exclusive

/-- A state, and the state of the atomic object it stands for. -/
structure Sim (lock : Lock T σ ι) (s : State T σ L V R)
    (c : Atomic T (L → V) (Section L V R) R) : Prop extends Inv lock s where
  phase_eq : ∀ t, c.phase t = (s.threads t).phase
  /-- The rest of a section does to the cells what all of it is to do to the
  atomic object. -/
  rest : ∀ t op p, s.threads t = .running op p → lock.holds s.lock t op.mode →
    op.prog.exec c.state = p.exec s.data
  data_eq : ¬Writing lock s → s.data = c.state

omit [DecidableEq T] in
theorem sim_start (lock : Lock T σ ι) (d : L → V) :
    Sim lock (start (R := R) lock d) ⟨d, fun _ => .idle⟩ where
  toInv := inv_start lock d
  phase_eq _ := rfl
  rest _ _ _ h := by cases h
  data_eq _ := rfl

omit [DecidableEq T] [DecidableEq L] in
/-- While somebody writes, nobody else has a guard. -/
theorem Inv.writer_eq {lock : Lock T σ ι} {fits : σ → Prop} {s : State T σ L V R}
    (h : Inv lock s) (hex : lock.Excludes fits) (hfits : fits s.lock) {t : T} {m : Mode}
    (hholds : lock.holds s.lock t m) (hw : Writing lock s) :
    ∃ op p, s.threads t = .running op p ∧ op.mode = .exclusive ∧
      lock.holds s.lock t .exclusive := by
  obtain ⟨u, op, p, hu, hm, hexcl⟩ := hw
  obtain rfl := hex.exclusive s.lock u t m h.reachable hfits hexcl hholds
  exact ⟨op, p, hu, hm, hexcl⟩

omit [DecidableEq L] in
/-- The phases still correspond after a thread has changed its own. -/
theorem phase_eq_update {s : State T σ L V R} {c : Atomic T (L → V) (Section L V R) R}
    (h : ∀ u, c.phase u = (s.threads u).phase) (t : T) {ph : Thread L V R}
    {q : Phase (Section L V R) R} (hq : q = ph.phase) (u : T) :
    Function.update c.phase t q u = ((s.setThread t ph).threads u).phase := by
  by_cases hut : u = t
  · subst hut
    rw [Function.update_self, setThread_threads_self, hq]
  · rw [Function.update_of_ne hut, setThread_threads_of_ne s ph hut, h u]

omit [DecidableEq L] in
/-- A load or a store is not seen: the operation stays pending. -/
theorem phase_eq_running {s : State T σ L V R} {c : Atomic T (L → V) (Section L V R) R}
    (h : ∀ u, c.phase u = (s.threads u).phase) {t : T} {op : Section L V R}
    {p : Prog L V R} (ht : s.threads t = .running op p) (q : Prog L V R) (u : T) :
    c.phase u = ((s.setThread t (.running op q)).threads u).phase := by
  have hself : c.phase t = .pending op := by rw [h t, ht]; rfl
  have hpending : Phase.pending op = Thread.phase (.running op q) := rfl
  have hupd := phase_eq_update h t hpending u
  rwa [← hself, Function.update_eq_self] at hupd

omit [DecidableEq T] in
/-- A step of the lock that drops nothing. A thread that gets its guard has
all of its section before it, and nobody is writing then. -/
theorem Sim.quiet {lock : Lock T σ ι} {fits : σ → Prop} (hex : lock.Excludes fits)
    {s : State T σ L V R} {c : Atomic T (L → V) (Section L V R) R} (h : Sim lock s c)
    {a : ι} {l : σ} (hinv : Inv lock { s with lock := l }) (hfits : fits l)
    (hdrops : lock.drops a = none) (hl : lock.step s.lock a = some l) :
    Sim lock { s with lock := l } c where
  toInv := hinv
  phase_eq := h.phase_eq
  rest t op p ht hholds := by
    by_cases hold : lock.holds s.lock t op.mode
    · exact h.rest t op p ht hold
    · have hnot : ¬Writing lock s := by
        rintro ⟨u, op', p', hu, hm, hexcl⟩
        have hkept : lock.holds l u .exclusive :=
          hex.keeps s.lock a l u .exclusive hl (by simp [hdrops]) hexcl
        obtain rfl := hex.exclusive l u t op.mode hinv.reachable hfits hkept hholds
        rw [ht] at hu
        cases hu
        exact hold (hm ▸ hexcl)
      rw [h.unstarted t op p ht (Bool.not_eq_true _ ▸ hold), h.data_eq hnot]
  data_eq hnot := by
    apply h.data_eq
    rintro ⟨u, op, p, hu, hm, hexcl⟩
    exact hnot ⟨u, op, p, hu, hm, hex.keeps s.lock a l u .exclusive hl (by simp [hdrops]) hexcl⟩

/-- The drop of a guard is where its section takes effect. -/
theorem Sim.drop {lock : Lock T σ ι} {fits : σ → Prop} (hex : lock.Excludes fits)
    {s : State T σ L V R} {c : Atomic T (L → V) (Section L V R) R} (h : Sim lock s c)
    {a : ι} {l : σ} {t : T} {op : Section L V R} {r : R} {d : L → V}
    (hinv : Inv lock { s.setThread t (.done r) with lock := l }) (hfits : fits s.lock)
    (hdrops : lock.drops a = some (t, op.mode)) (hl : lock.step s.lock a = some l)
    (ht : s.threads t = .running op (.ret r)) :
    Sim lock { s.setThread t (.done r) with lock := l } (c.effect (object d) t op) := by
  have hholds : lock.holds s.lock t op.mode := hex.holds_of_drops s.lock a l t op.mode hl hdrops
  have heff : op.prog.exec c.state = (s.data, r) := h.rest t op _ ht hholds
  have hstate : (c.effect (object d) t op).state = s.data := congrArg Prod.fst heff
  refine ⟨hinv, ?_, ?_, fun _ => hstate.symm⟩
  · exact phase_eq_update h.phase_eq t (congrArg Phase.done (congrArg Prod.snd heff))
  · intro u op' p hu hlater
    have hut : u ≠ t := by
      rintro rfl
      simp at hu
    replace hu : s.threads u = .running op' p := by simpa [hut] using hu
    rw [hstate]
    change op'.prog.exec s.data = p.exec s.data
    by_cases hold : lock.holds s.lock u op'.mode
    · -- two guards at once: both are shared, and the data is as it was
      have hnot : ¬Writing lock s := fun hw => by
        obtain ⟨-, -, -, -, hexcl⟩ := h.writer_eq hex hfits hholds hw
        exact hut (hex.exclusive s.lock t u _ h.reachable hfits hexcl hold)
      rw [h.data_eq hnot, h.rest u op' p hu hold, h.data_eq hnot]
    · rw [h.unstarted u op' p hu (Bool.not_eq_true _ ▸ hold)]

/-- A call. The thread may have its guard already; then nobody writes. -/
theorem Sim.call {lock : Lock T σ ι} {fits : σ → Prop} (hex : lock.Excludes fits)
    {s : State T σ L V R} {c : Atomic T (L → V) (Section L V R) R} (h : Sim lock s c)
    {t : T} (op : Section L V R) (hinv : Inv lock (s.setThread t (.running op op.prog)))
    (hfits : fits s.lock) (ht : s.threads t = .idle) :
    Sim lock (s.setThread t (.running op op.prog)) (c.setPhase t (.pending op)) := by
  refine ⟨hinv, phase_eq_update h.phase_eq t rfl, ?_, ?_⟩
  · intro u op' p hu hholds
    by_cases hut : u = t
    · subst hut
      rw [setThread_threads_self] at hu
      cases hu
      have hnot : ¬Writing lock s := fun hw => by
        obtain ⟨op', p, hrun, -⟩ := h.writer_eq hex hfits hholds hw
        rw [ht] at hrun
        cases hrun
      change op.prog.exec c.state = op.prog.exec s.data
      rw [h.data_eq hnot]
    · rw [setThread_threads_of_ne s _ hut] at hu
      exact h.rest u op' p hu hholds
  · intro hnot
    apply h.data_eq
    rintro ⟨u, op', p, hu, hm, hexcl⟩
    have hut : u ≠ t := by
      rintro rfl
      rw [ht] at hu
      cases hu
    exact hnot ⟨u, op', p, by rwa [setThread_threads_of_ne s _ hut], hm, hexcl⟩

/-- A load or a store takes an instruction off the rest. A store has the data
for itself. -/
theorem Sim.access {lock : Lock T σ ι} {fits : σ → Prop} (hex : lock.Excludes fits)
    {s : State T σ L V R} {c : Atomic T (L → V) (Section L V R) R} (h : Sim lock s c)
    {t : T} {op : Section L V R} {p q : Prog L V R} {d : L → V}
    (hinv : Inv lock { s.setThread t (.running op q) with data := d }) (hfits : fits s.lock)
    (ht : s.threads t = .running op p) (hholds : lock.holds s.lock t op.mode)
    (hexec : p.exec s.data = q.exec d) (hstores : op.mode = .shared → d = s.data) :
    Sim lock { s.setThread t (.running op q) with data := d } c := by
  refine ⟨hinv, phase_eq_running h.phase_eq ht q, ?_, ?_⟩
  · intro u op' p' hu hother
    by_cases hut : u = t
    · subst hut
      replace hu : Thread.running op q = .running op' p' := by simpa using hu
      cases hu
      exact (h.rest u op p ht hholds).trans hexec
    · replace hu : s.threads u = .running op' p' := by simpa [hut] using hu
      have hm : op.mode = .shared := by
        cases hm : op.mode with
        | shared => rfl
        | exclusive =>
            exact absurd (hex.exclusive s.lock t u _ h.reachable hfits (hm ▸ hholds) hother) hut
      rw [h.rest u op' p' hu hother]
      change p'.exec s.data = p'.exec d
      rw [hstores hm]
  · intro hnot
    have hm : op.mode = .shared := by
      cases hm : op.mode with
      | shared => rfl
      | exclusive => exact absurd ⟨t, op, q, by simp, hm, hm ▸ hholds⟩ hnot
    change d = c.state
    rw [hstores hm]
    apply h.data_eq
    rintro ⟨u, op', p', hu, hm', hexcl⟩
    refine hnot ⟨u, op', p', ?_, hm', hexcl⟩
    have hut : u ≠ t := by
      rintro rfl
      rw [ht] at hu
      cases hu
      rw [hm] at hm'
      cases hm'
    change (s.setThread t (.running op q)).threads u = _
    rwa [setThread_threads_of_ne s _ hut]

/-- A return is the atomic object's. -/
theorem Sim.ret {lock : Lock T σ ι} {s : State T σ L V R}
    {c : Atomic T (L → V) (Section L V R) R} (h : Sim lock s c) {t : T} {r : R}
    (hinv : Inv lock (s.setThread t .idle)) (ht : s.threads t = .done r) :
    Sim lock (s.setThread t .idle) (c.setPhase t .idle) := by
  have hother : ∀ u op p, (s.setThread t .idle).threads u = .running op p →
      s.threads u = .running op p := by
    intro u op p hu
    have hut : u ≠ t := by
      rintro rfl
      simp at hu
    rwa [setThread_threads_of_ne s _ hut] at hu
  refine ⟨hinv, phase_eq_update h.phase_eq t rfl, ?_, ?_⟩
  · intro u op p hu hholds
    exact h.rest u op p (hother u op p hu) hholds
  · intro hnot
    apply h.data_eq
    rintro ⟨u, op, p, hu, hm, hexcl⟩
    have hut : u ≠ t := by
      rintro rfl
      rw [ht] at hu
      cases hu
    exact hnot ⟨u, op, p, by rwa [setThread_threads_of_ne s _ hut], hm, hexcl⟩

/-- One step of the data and its lock is at most one step of the atomic
object, seen as the same. -/
theorem sim_step {lock : Lock T σ ι} {fits : σ → Prop} (hex : lock.Excludes fits) {d : L → V}
    {s s' : State T σ L V R} {a : Label T ι L V R} {c : Atomic T (L → V) (Section L V R) R}
    (h : Sim lock s c) (hfits : fits s'.lock) (hstep : step lock s a = some s') :
    ∃ c', Sim lock s' c' ∧ (object d).History c (visible s a).toList c' := by
  have hinv := inv_step hex h.toInv hstep
  have hbefore := fits_of_run hex hstep hfits
  cases steps_of_step hstep with
  | quiet hdrops hl => exact ⟨c, h.quiet hex hinv hfits hdrops hl, .nil c⟩
  | @drop a l t op r hdrops hl ht =>
      refine ⟨c.effect (object d) t op, h.drop hex hinv hbefore hdrops hl ht, ?_⟩
      exact Object.Step.history (.effect (by rw [h.phase_eq t, ht]; rfl))
  | @call t op ht =>
      refine ⟨c.setPhase t (.pending op), h.call hex op hinv hbefore ht, ?_⟩
      exact Object.Step.history (.call op (by rw [h.phase_eq t, ht]; rfl))
  | load ht hholds =>
      exact ⟨c, h.access hex hinv hbefore ht hholds rfl (fun _ => rfl), .nil c⟩
  | store ht hholds =>
      refine ⟨c, h.access hex hinv hbefore ht hholds rfl ?_, .nil c⟩
      intro hm
      exact (h.readOnly _ _ _ ht hm).elim
  | @ret t r ht =>
      refine ⟨c.setPhase t .idle, h.ret hinv ht, ?_⟩
      simp only [visible, ht]
      exact Object.Step.history (.ret (by rw [h.phase_eq t, ht]; rfl))

/-- **Data behind a lock is linearizable.** Along every run the calls and
answers are those of the atomic object, and whenever nobody writes, the cells
hold what the operations performed so far make of them. -/
theorem linearizable {lock : Lock T σ ι} {fits : σ → Prop} (hex : lock.Excludes fits)
    {d : L → V} {s : State T σ L V R} {as : List (Label T ι L V R)}
    (hrun : run (step lock) (start lock d) as = some s) (hfits : fits s.lock) :
    ∃ c, (object d).History ⟨d, fun _ => .idle⟩
        (history (step lock) visible (start lock d) as) c ∧
      (¬Writing lock s → s.data = c.state) := by
  have hback : ∀ (s : State T σ L V R) a t, step lock s a = some t → fits t.lock → fits s.lock :=
    fun _ _ _ hstep => fits_of_run hex hstep
  obtain ⟨c, hsim, hhist⟩ := simulation_within hback (Sim lock)
    (fun _ _ _ _ hsim hfit hstep => sim_step hex hsim hfit hstep) (sim_start lock d) hrun hfits
  exact ⟨c, hhist, hsim.data_eq⟩

end SmpNostd.Guarded
