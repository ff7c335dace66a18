import SmpNostd.Lib.LatchedWindow

/-!
Devices with registers that are not the driver's alone.

Some bits of a register may belong to the device: it changes them by itself, at any
moment, and ignores what is written to them. A driver that reads a register and
writes it back with a change then writes old values of these bits.

Two programs are related here if they make the same accesses and differ in nothing
but what belongs to the device. Run on such a device, whatever it does meanwhile, a
program has the effect on the rest of the registers that any program it is related
to has on a device where nothing changes by itself.
-/

namespace SmpNostd.Mmio

open Machine

variable {ι V W α β γ δ : Type}

namespace Prog

/-- The programs access the same registers in the same order, agree in what they
write where it is up to the driver, and end with results in `R`. What of a value in a
register is up to the driver is what `own` says of it. -/
inductive Rel (own : ι → V → W) (R : α → β → Prop) : Prog ι V α → Prog ι V β → Prop
  | ret {a : α} {b : β} : R a b → Rel own R (.ret a) (.ret b)
  | panic : Rel own R .panic .panic
  | read {i : ι} {next : V → Prog ι V α} {next' : V → Prog ι V β} :
      (∀ v v', own i v = own i v' → Rel own R (next v) (next' v')) →
      Rel own R (.select i (.read next)) (.select i (.read next'))
  | write {i : ι} {v v' : V} {next : Prog ι V α} {next' : Prog ι V β} :
      own i v = own i v' → Rel own R next next' →
      Rel own R (.select i (.write v next)) (.select i (.write v' next'))

variable {own : ι → V → W} {R : α → β → Prop} {S : γ → δ → Prop}

theorem Rel.bind {p : Prog ι V α} {q : Prog ι V β} {f : α → Prog ι V γ} {g : β → Prog ι V δ}
    (h : Rel own R p q) (hfg : ∀ a b, R a b → Rel own S (f a) (g b)) :
    Rel own S (p >>= f) (q >>= g) := by
  induction h with
  | ret hab => exact hfg _ _ hab
  | panic => exact .panic
  | read _ ih => exact .read ih
  | write hv _ ih => exact .write hv ih

theorem Rel.resume {p : Prog ι V α} {q : Prog ι V β} (h : Rel own R p q) (latch : ι) :
    p.resume latch = p := by
  cases h <;> rfl

end Prog

/-! ### Runs on a device that changes by itself -/

/-- The device changes a register, or the program makes its next access. -/
inductive Event (ι V : Type)
  | change (i : ι) (v : V)
  | access
  deriving DecidableEq, Repr

variable [DecidableEq ι] [DecidableEq W]

/-- One event. The device changes only what is not up to the driver; where `v` is
written over `old`, it makes `put i old v` of it. -/
def liveStep (own : ι → V → W) (put : ι → V → V → V) (s : Device ι V × Prog ι V α) :
    Event ι V → Option (Device ι V × Prog ι V α)
  | .change i v =>
      if own i v = own i (s.1.regs i) then
        some ({ s.1 with regs := Function.update s.1.regs i v }, s.2)
      else none
  | .access =>
      match s.2 with
      | .ret _ | .panic => none
      | .select i next => some ({ s.1 with latch := i }, next)
      | .read next => some (s.1, next (s.1.regs s.1.latch))
      | .write v next =>
          let value := put s.1.latch (s.1.regs s.1.latch) v
          some ({ s.1 with regs := Function.update s.1.regs s.1.latch value }, next)

variable {own : ι → V → W} {put : ι → V → V → V} {R : α → β → Prop}

/-- What is left of the program is related to a program with the result `result`. -/
def Tracks (own : ι → V → W) (R : α → β → Prop) (result : Device ι V × Option β)
    (s : Device ι V × Prog ι V α) : Prop :=
  ∃ (e : Device ι V) (q : Prog ι V β), (s.2.resume s.1.latch).Rel own R q ∧
    (∀ i, own i (s.1.regs i) = own i (e.regs i)) ∧ q.exec e = result

variable {result : Device ι V × Option β} {s t : Device ι V × Prog ι V α}

omit [DecidableEq W] in
theorem Tracks.write (hput : ∀ i old v, own i (put i old v) = own i v) {d e : Device ι V}
    {i : ι} {v v' : V} (h : ∀ j, own j (d.regs j) = own j (e.regs j)) (hv : own i v = own i v')
    (j : ι) : own j (Function.update d.regs i (put i (d.regs i) v) j) =
      own j (Function.update e.regs i v' j) := by
  by_cases hji : j = i
  · subst hji
    rw [Function.update_self, Function.update_self, hput, hv]
  · rw [Function.update_of_ne hji, Function.update_of_ne hji, h]

theorem Tracks.step (hput : ∀ i old v, own i (put i old v) = own i v) {a : Event ι V}
    (h : Tracks own R result s) (hstep : liveStep own put s a = some t) :
    Tracks own R result t := by
  obtain ⟨d, p⟩ := s
  obtain ⟨e, q, hrel, hregs, hexec⟩ := h
  cases a with
  | change i v =>
      obtain ⟨hv, heq⟩ := Option.ite_none_right_eq_some.mp hstep
      cases heq
      refine ⟨e, q, hrel, fun j => ?_, hexec⟩
      by_cases hji : j = i
      · subst hji
        exact (congrArg (own j) (Function.update_self ..)).trans (hv.trans (hregs j))
      · exact (congrArg (own j) (Function.update_of_ne hji ..)).trans (hregs j)
  | access =>
      cases p with
      | ret | panic => cases hstep
      | select i next =>
          cases hstep
          refine ⟨e, q, ?_, hregs, hexec⟩
          -- The next access is one of the window, so the selection is put back.
          cases hrel with
          | read hnext => exact .read hnext
          | write hv hnext => exact .write hv hnext
      | read next =>
          cases hstep
          cases hrel with
          | @read _ _ next' hnext =>
              have hrel := hnext _ _ (hregs d.latch)
              refine ⟨{ e with latch := d.latch }, next' (e.regs d.latch), ?_, hregs, hexec⟩
              rwa [hrel.resume]
      | write v next =>
          cases hstep
          cases hrel with
          | @write _ _ v' _ next' hv hnext =>
              refine ⟨⟨d.latch, Function.update e.regs d.latch v'⟩, next', ?_,
                Tracks.write hput hregs hv, hexec⟩
              rwa [hnext.resume]

/-- What a program does on a device that changes by itself, with a related program
run alone on a device where nothing does. -/
theorem Prog.Rel.live {p : Prog ι V α} {q : Prog ι V β} (h : p.Rel own R q)
    (hput : ∀ i old v, own i (put i old v) = own i v) {d d' e : Device ι V}
    (hregs : ∀ i, own i (d.regs i) = own i (e.regs i)) {p' : Prog ι V α}
    {events : List (Event ι V)} (hrun : run (liveStep own put) (d, p) events = some (d', p')) :
    (∀ a, p' = .ret a → ∃ e' b, q.exec e = (e', some b) ∧ R a b ∧
      ∀ i, own i (d'.regs i) = own i (e'.regs i)) ∧
    (p' = .panic → (q.exec e).2 = none) := by
  have htracks : Tracks own R (q.exec e) (d', p') := by
    refine run_invariant (fun _ _ _ ht hstep => ht.step hput hstep) ?_ hrun
    exact ⟨e, q, by rwa [h.resume], hregs, rfl⟩
  obtain ⟨e', q', hrel, hregs', hexec⟩ := htracks
  constructor
  · rintro a rfl
    cases hrel with
    | @ret _ b hab => exact ⟨e', b, hexec.symm, hab, hregs'⟩
  · rintro rfl
    cases hrel with
    | panic => rw [← hexec, Prog.exec]

end SmpNostd.Mmio
