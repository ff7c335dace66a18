import Mathlib.Data.Fintype.Basic
import Mathlib.Data.Set.BooleanAlgebra
import Mathlib.Order.CompletePartialOrder
import SmpNostd.Lib.Machine

/-!
Devices whose registers are reached through a window.

Such a device has one latch and one window: writing an index to the latch
selects a register, and the window then reads and writes the selected one. A
driver is a program of such accesses. When several threads run drivers on one
device, the latch is shared, and a thread that selects between another's
selection and its access redirects that access.

Programs that select before every access and keep to their own registers do not
disturb each other as long as no such redirection happens: each then has the
effect it has when it is run alone.
-/

namespace SmpNostd.Mmio

open Machine

variable {ι V α β : Type}

structure Device (ι V : Type) where
  latch : ι
  regs : ι → V

/-- A driver program. Every constructor but the first two is one access to the
device; what comes after a read depends on the value read. -/
inductive Prog (ι V α : Type)
  | ret (a : α)
  | panic
  | select (i : ι) (next : Prog ι V α)
  | read (next : V → Prog ι V α)
  | write (v : V) (next : Prog ι V α)

namespace Prog

def bind : Prog ι V α → (α → Prog ι V β) → Prog ι V β
  | .ret a, f => f a
  | .panic, _ => .panic
  | .select i next, f => .select i (next.bind f)
  | .read next, f => .read fun v => (next v).bind f
  | .write v next, f => .write v (next.bind f)

instance : Monad (Prog ι V) where
  pure := .ret
  bind := bind

/-- The next access is one of the window. -/
def AtAccess : Prog ι V α → Prop
  | .read _ | .write _ _ => True
  | .ret _ | .panic | .select _ _ => False

instance : ∀ p : Prog ι V α, Decidable p.AtAccess
  | .read _ | .write _ _ => isTrue trivial
  | .ret _ | .panic | .select _ _ => isFalse id

/-- The next access is one of the latch. -/
def AtSelect : Prog ι V α → Prop
  | .select _ _ => True
  | .ret _ | .panic | .read _ | .write _ _ => False

instance : ∀ p : Prog ι V α, Decidable p.AtSelect
  | .select _ _ => isTrue trivial
  | .ret _ | .panic | .read _ | .write _ _ => isFalse id

/-! ### Programs that keep to their registers -/

/-- Every access of the window is right after a selection, and only registers
in `F` are selected. -/
inductive Uses (F : Set ι) : Prog ι V α → Prop
  | ret (a : α) : Uses F (.ret a)
  | panic : Uses F .panic
  | read {i : ι} {next : V → Prog ι V α} :
      i ∈ F → (∀ v, Uses F (next v)) → Uses F (.select i (.read next))
  | write {i : ι} {v : V} {next : Prog ι V α} :
      i ∈ F → Uses F next → Uses F (.select i (.write v next))

variable {F : Set ι}

theorem Uses.bind {p : Prog ι V α} {f : α → Prog ι V β} (hp : Uses F p)
    (hf : ∀ a, Uses F (f a)) : Uses F (p >>= f) := by
  induction hp with
  | ret a => exact hf a
  | panic => exact .panic
  | read hi _ ih => exact .read hi ih
  | write hi _ ih => exact .write hi ih

theorem Uses.not_atAccess {p : Prog ι V α} (h : Uses F p) : ¬p.AtAccess := by
  cases h <;> exact id

/-! ### Running a program -/

variable [DecidableEq ι]

/-- Perform the next access. -/
def step (d : Device ι V) : Prog ι V α → Option (Device ι V × Prog ι V α)
  | .ret _ | .panic => none
  | .select i next => some ({ d with latch := i }, next)
  | .read next => some (d, next (d.regs d.latch))
  | .write v next => some ({ d with regs := Function.update d.regs d.latch v }, next)

/-- Run a program alone, to its end. -/
def exec (d : Device ι V) : Prog ι V α → Device ι V × Option α
  | .ret a => (d, some a)
  | .panic => (d, none)
  | .select i next => exec { d with latch := i } next
  | .read next => exec d (next (d.regs d.latch))
  | .write v next => exec { d with regs := Function.update d.regs d.latch v } next

theorem exec_bind (d : Device ι V) (p : Prog ι V α) (f : α → Prog ι V β) :
    (p >>= f).exec d =
      match p.exec d with
      | (d', some a) => (f a).exec d'
      | (d', none) => (d', none) := by
  show (p.bind f).exec d = _
  induction p generalizing d with
  | ret a => rfl
  | panic => rfl
  | select i next ih => exact ih _
  | read next ih => exact ih _ _
  | write v next ih => exact ih _

theorem exec_bind_of_eq_some {d d' : Device ι V} {p : Prog ι V α} {a : α}
    (h : p.exec d = (d', some a)) (f : α → Prog ι V β) :
    (p >>= f).exec d = (f a).exec d' := by
  rw [exec_bind, h]

/-- The states the device is in while a program runs alone, the first and the
last one included. -/
def states (d : Device ι V) : Prog ι V α → List (Device ι V)
  | .ret _ | .panic => [d]
  | .select i next => d :: states { d with latch := i } next
  | .read next => d :: states d (next (d.regs d.latch))
  | .write v next => d :: states { d with regs := Function.update d.regs d.latch v } next

theorem exec_mem_states (d : Device ι V) (p : Prog ι V α) : (p.exec d).1 ∈ p.states d := by
  induction p generalizing d with
  | ret a => exact List.mem_singleton.mpr rfl
  | panic => exact List.mem_singleton.mpr rfl
  | select i next ih => exact List.mem_cons_of_mem _ (ih _)
  | read next ih => exact List.mem_cons_of_mem _ (ih _ _)
  | write v next ih => exact List.mem_cons_of_mem _ (ih _)

/-- The rule for a program that is run after another. -/
theorem forall_states_bind {P : Device ι V → Prop} {d : Device ι V} {p : Prog ι V α}
    {f : α → Prog ι V β} (hp : ∀ m ∈ p.states d, P m)
    (hf : ∀ a, (p.exec d).2 = some a → ∀ m ∈ (f a).states (p.exec d).1, P m) :
    ∀ m ∈ (p >>= f).states d, P m := by
  show ∀ m ∈ (p.bind f).states d, P m
  induction p generalizing d with
  | ret a => exact hf a rfl
  | panic => exact hp
  | select i next ih =>
      obtain ⟨hd, hnext⟩ := List.forall_mem_cons.mp hp
      exact List.forall_mem_cons.mpr ⟨hd, ih hnext hf⟩
  | read next ih =>
      obtain ⟨hd, hnext⟩ := List.forall_mem_cons.mp hp
      exact List.forall_mem_cons.mpr ⟨hd, ih _ hnext hf⟩
  | write v next ih =>
      obtain ⟨hd, hnext⟩ := List.forall_mem_cons.mp hp
      exact List.forall_mem_cons.mpr ⟨hd, ih hnext hf⟩

/-- A program that uses `F` ends the same from devices that look the same in
`F`. -/
theorem Uses.exec_congr {p : Prog ι V α} (h : Uses F p) {d d' : Device ι V}
    (hd : ∀ i ∈ F, d.regs i = d'.regs i) :
    (p.exec d).2 = (p.exec d').2 ∧ ∀ i ∈ F, (p.exec d).1.regs i = (p.exec d').1.regs i := by
  induction h generalizing d d' with
  | ret a => exact ⟨rfl, hd⟩
  | panic => exact ⟨rfl, hd⟩
  | @read i next hi _ ih =>
      simp only [exec]
      rw [hd i hi]
      exact ih _ hd
  | @write i v next hi _ ih =>
      simp only [exec]
      apply ih
      intro j hj
      simp only [Function.update_apply]
      split
      · rfl
      · exact hd j hj

end Prog

/-! ### Several programs on one device -/

/-- A device and the programs that threads run on it. -/
structure Pool (T ι V α : Type) where
  device : Device ι V
  progs : T → Prog ι V α

variable {T : Type} [DecidableEq T] [DecidableEq ι]

/-- Thread `t` performs its next access. -/
def Pool.step (s : Pool T ι V α) (t : T) : Option (Pool T ι V α) :=
  ((s.progs t).step s.device).map fun (d, p) => ⟨d, Function.update s.progs t p⟩

/-- If thread `t` is about to select, no other thread is between its selection
and its access. -/
def Pool.SelectsAlone (s : Pool T ι V α) (t : T) : Prop :=
  (s.progs t).AtSelect → ∀ u, u ≠ t → ¬(s.progs u).AtAccess

instance [Fintype T] (s : Pool T ι V α) (t : T) : Decidable (s.SelectsAlone t) :=
  inferInstanceAs (Decidable ((s.progs t).AtSelect → ∀ u, u ≠ t → ¬(s.progs u).AtAccess))

/-- A program with the selection put back that it has made and not used yet. -/
def Prog.resume (latch : ι) : Prog ι V α → Prog ι V α
  | .read next => .select latch (.read next)
  | .write v next => .select latch (.write v next)
  | p => p

omit [DecidableEq ι] in
theorem Prog.Uses.resume {F : Set ι} {p : Prog ι V α} (h : Uses F p) (latch : ι) :
    p.resume latch = p := by
  cases h <;> rfl

/-- What is left of every program does on the device as it is what the whole
program does, alone, on the device as it was; and between a selection and its
access nobody else selects. -/
structure Pool.Inv (F : T → Set ι) (s₀ s : Pool T ι V α) : Prop where
  uses : ∀ t, ((s.progs t).resume s.device.latch).Uses (F t)
  alone : ∀ t u, (s.progs t).AtAccess → u ≠ t → ¬(s.progs u).AtAccess
  result : ∀ t, ((s.progs t).exec s.device).2 = ((s₀.progs t).exec s₀.device).2 ∧
    ∀ i ∈ F t, ((s.progs t).exec s.device).1.regs i = ((s₀.progs t).exec s₀.device).1.regs i
  rest : ∀ i, (∀ t, i ∉ F t) → s.device.regs i = s₀.device.regs i

variable {F : T → Set ι} {s₀ s s' : Pool T ι V α}

omit [DecidableEq T] in
theorem Pool.Inv.init (huses : ∀ t, (s₀.progs t).Uses (F t)) : Pool.Inv F s₀ s₀ where
  uses t := by
    rw [(huses t).resume]
    exact huses t
  alone t _ h := absurd h (huses t).not_atAccess
  result _ := ⟨rfl, fun _ _ => rfl⟩
  rest _ _ := rfl

omit [DecidableEq T] in
/-- A thread that is not between a selection and its access. -/
theorem Pool.Inv.uses_of_not_atAccess (h : Pool.Inv F s₀ s) {t : T}
    (ht : ¬(s.progs t).AtAccess) : (s.progs t).Uses (F t) := by
  have huses := h.uses t
  cases hp : s.progs t with
  | read | write =>
      rw [hp] at ht
      exact absurd trivial ht
  | ret | panic | select =>
      rw [hp] at huses
      exact huses

/-- One access of thread `t`, after which it is at `p` and the device looks the
same to all others, which are not between a selection and an access. -/
theorem Pool.Inv.set (h : Pool.Inv F s₀ s) {t : T} {d : Device ι V} {p : Prog ι V α}
    (hothers : ∀ u, u ≠ t → ¬(s.progs u).AtAccess)
    (huses : (p.resume d.latch).Uses (F t))
    (hexec : p.exec d = (s.progs t).exec s.device)
    (hregs : ∀ i, i ∉ F t → d.regs i = s.device.regs i)
    (hdisj : ∀ u, u ≠ t → Disjoint (F u) (F t)) :
    Pool.Inv F s₀ ⟨d, Function.update s.progs t p⟩ where
  uses u := by
    by_cases hu : u = t
    · subst hu
      simpa using huses
    · have hu' := h.uses_of_not_atAccess (hothers u hu)
      simp only [Function.update_of_ne hu]
      rw [hu'.resume]
      exact hu'
  alone u v hu hv := by
    by_cases hvt : v = t
    · subst hvt
      simp only [Function.update_of_ne hv.symm] at hu
      exact absurd hu (hothers u hv.symm)
    · simp only [Function.update_of_ne hvt]
      exact hothers v hvt
  result u := by
    by_cases hu : u = t
    · subst hu
      simp only [Function.update_self, hexec]
      exact h.result u
    · simp only [Function.update_of_ne hu]
      have hsame : ∀ i ∈ F u, d.regs i = s.device.regs i :=
        fun i hi => hregs i fun hit => Set.disjoint_left.mp (hdisj u hu) hi hit
      have hcongr := (h.uses_of_not_atAccess (hothers u hu)).exec_congr hsame
      exact ⟨hcongr.1.trans (h.result u).1,
        fun i hi => (hcongr.2 i hi).trans ((h.result u).2 i hi)⟩
  rest i hi := (hregs i (hi t)).trans (h.rest i hi)

theorem Pool.Inv.step (hdisj : ∀ t u, u ≠ t → Disjoint (F u) (F t)) {t : T}
    (h : Pool.Inv F s₀ s) (hsel : s.SelectsAlone t) (hstep : s.step t = some s') :
    Pool.Inv F s₀ s' := by
  have huses := h.uses t
  cases hp : s.progs t with
  | ret a => simp [Pool.step, hp, Prog.step] at hstep
  | panic => simp [Pool.step, hp, Prog.step] at hstep
  | select i next =>
      simp only [Pool.step, hp, Prog.step, Option.map_some, Option.some.injEq] at hstep
      subst hstep
      rw [hp] at huses
      refine h.set (hsel (by rw [hp]; trivial)) ?_ (by rw [hp]; rfl) (fun _ _ => rfl) (hdisj t)
      -- The next access is one of the window, so the selection is put back.
      cases huses with
      | read hi hnext => exact .read hi hnext
      | write hi hnext => exact .write hi hnext
  | read next =>
      simp only [Pool.step, hp, Prog.step, Option.map_some, Option.some.injEq] at hstep
      subst hstep
      rw [hp] at huses
      cases huses with
      | read hi hnext =>
          refine h.set (fun u => h.alone t u (by rw [hp]; trivial)) ?_ (by rw [hp]; rfl)
            (fun _ _ => rfl) (hdisj t)
          rw [(hnext _).resume]
          exact hnext _
  | write v next =>
      simp only [Pool.step, hp, Prog.step, Option.map_some, Option.some.injEq] at hstep
      subst hstep
      rw [hp] at huses
      cases huses with
      | write hi hnext =>
          refine h.set (fun u => h.alone t u (by rw [hp]; trivial)) ?_ (by rw [hp]; rfl)
            (fun i hit => ?_) (hdisj t)
          · rw [hnext.resume]
            exact hnext
          · have hne : i ≠ s.device.latch := fun heq => hit (heq ▸ hi)
            exact Function.update_of_ne hne _ _

/-- Programs with disjoint registers that are run together, none of them
selecting between another's selection and its access, have the effect that each
has when it is run alone. -/
theorem Pool.run_eq_exec (hdisj : ∀ t u, u ≠ t → Disjoint (F u) (F t))
    (huses : ∀ t, (s₀.progs t).Uses (F t)) {as : List T} (hrun : run Pool.step s₀ as = some s)
    (hsel : StepsMeet Pool.step Pool.SelectsAlone s₀ as) :
    (∀ t a, s.progs t = .ret a → ((s₀.progs t).exec s₀.device).2 = some a ∧
      ∀ i ∈ F t, s.device.regs i = ((s₀.progs t).exec s₀.device).1.regs i) ∧
    ∀ i, (∀ t, i ∉ F t) → s.device.regs i = s₀.device.regs i := by
  have hinv : Pool.Inv F s₀ s := run_invariant_of_stepsMeet
    (fun _ _ _ h hl hstep => h.step hdisj hl hstep) (Pool.Inv.init huses) hsel hrun
  refine ⟨fun t a ht => ?_, hinv.rest⟩
  have hresult := hinv.result t
  rw [ht] at hresult
  exact ⟨hresult.1.symm, hresult.2⟩

end SmpNostd.Mmio
