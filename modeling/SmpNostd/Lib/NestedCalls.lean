import SmpNostd.Lib.Machine

/-!
Programs that access a device, called on one core.

The calls in progress are a stack: the handler of an interrupt may make calls of
its own between any two accesses of a call that it interrupts, and they return
before that call goes on. Between any two accesses the device may change as well.

How an access is performed is up to an interface. Where the states of one interface
are abstracted to those of another by a function, and the accesses that the programs
make have the same answers and the same effects, all runs are the same on both.
-/

namespace SmpNostd.NestedCalls

open Machine

variable {A : Type} {R : A → Type} {ι C ε α β σ τ : Type}

/-- A program that makes accesses. The answer to the access `a` is an `R a`. -/
inductive Prog (R : A → Type) (α : Type)
  | ret (a : α)
  | panic
  | access (a : A) (next : R a → Prog R α)

namespace Prog

protected def bind : Prog R α → (α → Prog R β) → Prog R β
  | .ret a, f => f a
  | .panic, _ => .panic
  | .access a next, f => .access a fun r => (next r).bind f

instance : Monad (Prog R) where
  pure := .ret
  bind := Prog.bind

/-- Every access of the program meets `Q`, if the answers are all as `B` says. -/
def All (Q : A → Prop) (B : (a : A) → R a → Prop) : Prog R α → Prop
  | .ret _ | .panic => True
  | .access a next => Q a ∧ ∀ r, B a r → (next r).All Q B

/-- The program does not return before it has made an access that meets `T`. -/
def Makes (T : A → Prop) : Prog R α → Prop
  | .ret _ => False
  | .panic => True
  | .access a next => T a ∨ ∀ r, (next r).Makes T

end Prog

/-- How the accesses of the client `i` are performed, `none` for a fault, and what
else happens to the device. -/
structure Interface (ι : Type) (R : A → Type) (ε σ : Type) where
  perform : σ → ι → (a : A) → Option (R a × σ)
  event : σ → ε → σ

inductive Trap
  | panic
  | fault
  deriving DecidableEq, Repr

structure State (ι : Type) (R : A → Type) (α σ : Type) where
  world : σ
  /-- The calls in progress and whose they are. -/
  stack : List (ι × Prog R α)
  answers : List (ι × α)
  trap : Option Trap

inductive Label (ι C ε : Type)
  | call (client : ι) (c : C)
  /-- The call on top of the stack makes its next access, or returns. -/
  | access
  | event (e : ε)
  deriving DecidableEq, Repr

def init (w : σ) : State ι R α σ := ⟨w, [], [], none⟩

/-- The next access of the call on top of the stack. -/
def access (f : Interface ι R ε σ) (s : State ι R α σ) : Option (State ι R α σ) :=
  match s.stack with
  | [] => none
  | (i, .ret a) :: stack => some { s with stack := stack, answers := s.answers ++ [(i, a)] }
  | (_, .panic) :: _ => some { s with trap := some .panic }
  | (i, .access a next) :: stack =>
      match f.perform s.world i a with
      | some (r, w) => some { s with world := w, stack := (i, next r) :: stack }
      | none => some { s with trap := some .fault }

/-- One step, with the programs of the calls as `prog` has them. -/
def step (f : Interface ι R ε σ) (prog : C → Prog R α) (s : State ι R α σ)
    (l : Label ι C ε) : Option (State ι R α σ) :=
  match s.trap, l with
  | some _, _ => none
  | none, .call i c => some { s with stack := (i, prog c) :: s.stack }
  | none, .access => access f s
  | none, .event e => some { s with world := f.event s.world e }

/-- What a step can do. -/
inductive Step (f : Interface ι R ε σ) (prog : C → Prog R α) (s : State ι R α σ) :
    Label ι C ε → State ι R α σ → Prop
  | call {i : ι} {c : C} : Step f prog s (.call i c) { s with stack := (i, prog c) :: s.stack }
  | ret {i : ι} {a : α} {stack} (hstack : s.stack = (i, .ret a) :: stack) :
      Step f prog s .access { s with stack := stack, answers := s.answers ++ [(i, a)] }
  | trap {t : Trap} : Step f prog s .access { s with trap := some t }
  | perform {i : ι} {a : A} {next : R a → Prog R α} {stack} {r : R a} {w : σ}
      (hstack : s.stack = (i, .access a next) :: stack)
      (hperform : f.perform s.world i a = some (r, w)) :
      Step f prog s .access { s with world := w, stack := (i, next r) :: stack }
  | event {e : ε} : Step f prog s (.event e) { s with world := f.event s.world e }

variable {f : Interface ι R ε σ} {g : Interface ι R ε τ} {prog : C → Prog R α}
  {s t : State ι R α σ} {l : Label ι C ε}

theorem step_cases (h : step f prog s l = some t) : Step f prog s l t := by
  obtain ⟨world, stack, answers, trap⟩ := s
  cases trap with
  | some => cases h
  | none =>
      cases l with
      | call i c =>
          obtain rfl := Option.some.inj h
          exact .call
      | event e =>
          obtain rfl := Option.some.inj h
          exact .event
      | access =>
          obtain _ | ⟨⟨i, p⟩, stack⟩ := stack
          · cases h
          cases p with
          | ret a =>
              obtain rfl := Option.some.inj h
              exact .ret rfl
          | panic =>
              obtain rfl := Option.some.inj h
              exact .trap
          | access a next =>
              cases hperform : f.perform world i a with
              | none =>
                  simp only [step, access, hperform, Option.some.injEq] at h
                  subst h
                  exact .trap
              | some x =>
                  simp only [step, access, hperform, Option.some.injEq] at h
                  subst h
                  exact .perform rfl hperform

/-! ### What all accesses keep -/

variable {I : σ → Prop} {Q : A → Prop} {B : (a : A) → R a → Prop}

/-- Accesses that meet `Q` keep `I` and are answered as `B` says; what else happens
to the device keeps `I` too. -/
structure Keeps (f : Interface ι R ε σ) (I : σ → Prop) (Q : A → Prop)
    (B : (a : A) → R a → Prop) : Prop where
  perform : ∀ {w i a r w'}, I w → Q a → f.perform w i a = some (r, w') → I w' ∧ B a r
  event : ∀ {w e}, I w → I (f.event w e)

/-- The device is in a state as `I` says, and all accesses to come meet `Q`. -/
structure Inv (I : σ → Prop) (Q : A → Prop) (B : (a : A) → R a → Prop)
    (s : State ι R α σ) : Prop where
  world : I s.world
  stack : ∀ x ∈ s.stack, x.2.All Q B

/-- The accesses of a call that is made meet `Q`. -/
def CallMeets (prog : C → Prog R α) (Q : A → Prop) (B : (a : A) → R a → Prop) :
    Label ι C ε → Prop
  | .call _ c => (prog c).All Q B
  | .access | .event _ => True

theorem callMeets_of_call (h : ∀ i c, l = .call i c → (prog c).All Q B) :
    CallMeets prog Q B l := by
  cases l with
  | call i c => exact h i c rfl
  | access | event => trivial

/-- With no call in progress there is nothing to ask of accesses. -/
theorem inv_of_idle (hI : I s.world) (hidle : s.stack = []) : Inv I Q B s :=
  ⟨hI, by simp [hidle]⟩

theorem Keeps.step (h : Keeps f I Q B) (hs : Inv I Q B s) (hl : CallMeets prog Q B l)
    (hstep : step f prog s l = some t) : Inv I Q B t := by
  cases step_cases hstep with
  | call => exact ⟨hs.world, List.forall_mem_cons.mpr ⟨hl, hs.stack⟩⟩
  | ret hstack =>
      have ⟨_, hrest⟩ := List.forall_mem_cons.mp (hstack ▸ hs.stack)
      exact ⟨hs.world, hrest⟩
  | trap => exact ⟨hs.world, hs.stack⟩
  | perform hstack hperform =>
      have ⟨htop, hrest⟩ := List.forall_mem_cons.mp (hstack ▸ hs.stack)
      have ⟨hworld, hr⟩ := h.perform hs.world htop.1 hperform
      exact ⟨hworld, List.forall_mem_cons.mpr ⟨htop.2 _ hr, hrest⟩⟩
  | event => exact ⟨h.event hs.world, hs.stack⟩

theorem Keeps.run (h : Keeps f I Q B) {labels : List (Label ι C ε)}
    (hcalls : ∀ l ∈ labels, CallMeets prog Q B l) (hs : Inv I Q B s)
    (hrun : Machine.run (NestedCalls.step f prog) s labels = some t) : Inv I Q B t :=
  run_invariant_of_stepsMeet (fun _ _ _ hs hl hstep => h.step hs hl hstep) hs
    (stepsMeet_of_forall_mem hcalls s) hrun

/-! ### Interfaces with the same runs -/

def State.map (abs : σ → τ) (s : State ι R α σ) : State ι R α τ where
  world := abs s.world
  stack := s.stack
  answers := s.answers
  trap := s.trap

/-- Seen through `abs`, `f` performs the accesses that meet `Q` as `g` does. -/
structure Refines (f : Interface ι R ε σ) (g : Interface ι R ε τ) (abs : σ → τ) (I : σ → Prop)
    (Q : A → Prop) (B : (a : A) → R a → Prop) : Prop where
  keeps : Keeps f I Q B
  perform : ∀ {w} i a, I w → Q a →
    g.perform (abs w) i a = (f.perform w i a).map fun x => (x.1, abs x.2)
  event : ∀ {w} e, I w → g.event (abs w) e = abs (f.event w e)

theorem Refines.access {abs : σ → τ} (h : Refines f g abs I Q B) (hs : Inv I Q B s) :
    (access f s).map (State.map abs) = NestedCalls.access g (s.map abs) := by
  obtain ⟨world, stack, answers, trap⟩ := s
  obtain _ | ⟨⟨i, p⟩, stack⟩ := stack
  · rfl
  cases p with
  | ret | panic => rfl
  | access a next =>
      have ⟨htop, _⟩ := List.forall_mem_cons.mp hs.stack
      have hperform := h.perform i a hs.world htop.1
      simp only [NestedCalls.access, State.map, hperform]
      cases f.perform world i a <;> rfl

theorem Refines.step {abs : σ → τ} (h : Refines f g abs I Q B) (hs : Inv I Q B s)
    (l : Label ι C ε) :
    (step f prog s l).map (State.map abs) = NestedCalls.step g prog (s.map abs) l := by
  obtain ⟨world, stack, answers, trap⟩ := s
  cases trap with
  | some => rfl
  | none =>
      cases l with
      | call => rfl
      | access => exact h.access hs
      | event e => exact congrArg some (congrArg (State.mk · stack answers none)
          (h.event e hs.world).symm)

theorem Refines.run {abs : σ → τ} (h : Refines f g abs I Q B) {labels : List (Label ι C ε)}
    (hcalls : ∀ l ∈ labels, CallMeets prog Q B l) (hs : Inv I Q B s) :
    (Machine.run (NestedCalls.step f prog) s labels).map (State.map abs) =
      Machine.run (NestedCalls.step g prog) (s.map abs) labels :=
  run_map (I := Inv I Q B) (fun _ l hs => h.step hs l)
    (fun _ _ _ hs hl hstep => h.keeps.step hs hl hstep) hs (stepsMeet_of_forall_mem hcalls s)

/-! ### What a call does before it returns -/

/-- Either `P` holds already, or the call of `i` at the bottom of the stack still has
an access before it that meets `T`. -/
def Pending (P : σ → Prop) (T : A → Prop) (i : ι) (s : State ι R α σ) : Prop :=
  P s.world ∨ ∃ above p, s.stack = above ++ [(i, p)] ∧ p.Makes T

/-- One step, where an access of `i` that meets `T` brings `P` about, and the
accesses that meet `Q` keep it. -/
theorem Pending.step {P : σ → Prop} {T : A → Prop} {i : ι}
    (hP : Keeps f (fun w => I w ∧ P w) Q B)
    (hT : ∀ {w a r w'}, I w → T a → f.perform w i a = some (r, w') → P w')
    (hs : Inv I Q B s) (hl : CallMeets prog Q B l) (h : Pending P T i s)
    (hstep : NestedCalls.step f prog s l = some t) : Pending P T i t := by
  obtain hdone | ⟨above, p, hstack, hp⟩ := h
  · exact .inl (hP.step ⟨⟨hs.world, hdone⟩, hs.stack⟩ hl hstep).world.2
  cases step_cases hstep with
  | call => exact .inr ⟨_ :: above, p, congrArg (_ :: ·) hstack, hp⟩
  | trap | event => exact .inr ⟨above, p, hstack, hp⟩
  | ret htop =>
      obtain _ | ⟨x, above⟩ := above
      · obtain ⟨hx, _⟩ := List.cons.inj (htop.symm.trans hstack)
        obtain ⟨_, rfl⟩ := Prod.mk.inj hx
        exact hp.elim
      · obtain ⟨_, hrest⟩ := List.cons.inj (htop.symm.trans hstack)
        exact .inr ⟨above, p, hrest, hp⟩
  | @perform _ a _ _ _ _ htop hperform =>
      obtain _ | ⟨x, above⟩ := above
      · -- The call itself makes its next access.
        obtain ⟨hx, hrest⟩ := List.cons.inj (htop.symm.trans hstack)
        obtain ⟨rfl, rfl⟩ := Prod.mk.inj hx
        obtain hTa | hnext := hp
        · exact .inl (hT hs.world hTa hperform)
        · exact .inr ⟨[], _, congrArg (_ :: ·) hrest, hnext _⟩
      · obtain ⟨_, hrest⟩ := List.cons.inj (htop.symm.trans hstack)
        exact .inr ⟨_ :: above, p, congrArg (_ :: ·) hrest, hp⟩

/-- When the call at the bottom of the stack has returned, `P` holds. -/
theorem Pending.run {P : σ → Prop} {T : A → Prop} {i : ι} (hkeeps : Keeps f I Q B)
    (hP : Keeps f (fun w => I w ∧ P w) Q B)
    (hT : ∀ {w a r w'}, I w → T a → f.perform w i a = some (r, w') → P w')
    {labels : List (Label ι C ε)} (hcalls : ∀ l ∈ labels, CallMeets prog Q B l)
    (hs : Inv I Q B s) (h : Pending P T i s)
    (hrun : Machine.run (NestedCalls.step f prog) s labels = some t) (hdone : t.stack = []) :
    P t.world := by
  have hinv : Inv I Q B t ∧ Pending P T i t :=
    run_invariant_of_stepsMeet (I := fun s => Inv I Q B s ∧ Pending P T i s)
      (fun _ _ _ hs hl hstep => ⟨hkeeps.step hs.1 hl hstep, hs.2.step hP hT hs.1 hl hstep⟩)
      ⟨hs, h⟩ (stepsMeet_of_forall_mem hcalls s) hrun
  obtain hP | ⟨above, p, hstack, -⟩ := hinv.2
  · exact hP
  · exact absurd (hdone.symm.trans hstack) (by simp)

end SmpNostd.NestedCalls
