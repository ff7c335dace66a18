import SmpNostd.Apic.IoApic

/-!
Several cores programming one I/O APIC.

The methods take the driver by shared reference and there is no lock around
the accesses to IOREGSEL and IOWIN, so keeping two cores from getting between
each other's accesses is left to the caller. What the driver does provide is
that calls for different pins need no more than that.
-/

namespace SmpNostd.IoApic

open Machine Mmio

/-- A call that changes one pin's entry. -/
inductive Call
  | routeIrq (gsi : BitVec 32) (vector destApicId : BitVec 8)
  | writeRedirection (irq : BitVec 8) (entry : RedirectionEntry)
  | maskIrq (irq : BitVec 8)
  | unmaskIrq (irq : BitVec 8)
  deriving DecidableEq, Repr

/-- The pin that a call is for. -/
def Call.pin (apic : IoApic) : Call → BitVec 8
  | .routeIrq gsi _ _ => apic.pinOf gsi
  | .writeRedirection irq _ | .maskIrq irq | .unmaskIrq irq => irq

def Call.prog (apic : IoApic) : Call → IoProg Unit
  | .routeIrq gsi vector destApicId => apic.routeIrq gsi vector destApicId
  | .writeRedirection irq entry => apic.writeRedirection irq entry
  | .maskIrq irq => apic.maskIrq irq
  | .unmaskIrq irq => apic.unmaskIrq irq

theorem Call.uses (apic : IoApic) (call : Call) :
    (call.prog apic).Uses (pinRegs (call.pin apic)) := by
  cases call with
  | routeIrq gsi vector destApicId => exact apic.uses_writeRedirection _ _
  | writeRedirection irq entry => exact apic.uses_writeRedirection _ _
  | maskIrq irq => exact apic.uses_updateMask true irq
  | unmaskIrq irq => exact apic.uses_updateMask false irq

variable {T : Type} [DecidableEq T]

/-- All cores are at the beginning of their calls. -/
def start (apic : IoApic) (d : IoDevice) (calls : T → Call) :
    Pool T (BitVec 8) (BitVec 32) Unit where
  device := d
  progs t := (calls t).prog apic

/-- Cores that program different pins, of the first 120, lose no update
whatever the order of their accesses, if only none writes IOREGSEL between
another's write of IOREGSEL and its access to IOWIN: when all have returned,
every pin has the entry that its own call alone gives it, and no other register
has changed. -/
theorem no_update_lost (apic : IoApic) (d : IoDevice) (calls : T → Call)
    (hpins : ∀ t, ((calls t).pin apic).toNat < 120)
    (hne : ∀ t u, u ≠ t → (calls u).pin apic ≠ (calls t).pin apic)
    {as : List T} {s : Pool T (BitVec 8) (BitVec 32) Unit}
    (hrun : run Pool.step (start apic d calls) as = some s)
    (hsel : StepsMeet Pool.step Pool.SelectsAlone (start apic d calls) as)
    (hdone : ∀ t, s.progs t = .ret ()) :
    (∀ t, entry s.device ((calls t).pin apic) =
      entry (((calls t).prog apic).exec d).1 ((calls t).pin apic)) ∧
    ∀ i, (∀ t, i ∉ pinRegs ((calls t).pin apic)) → s.device.regs i = d.regs i := by
  have hdisj : ∀ t u, u ≠ t →
      Disjoint (pinRegs ((calls u).pin apic)) (pinRegs ((calls t).pin apic)) :=
    fun t u hut => pinRegs_disjoint (hpins u) (hpins t) (hne t u hut)
  obtain ⟨hown, hrest⟩ := Pool.run_eq_exec hdisj
    (fun t => (calls t).uses apic) hrun hsel
  exact ⟨fun t => entry_congr (hown t () (hdone t)).2, hrest⟩

/-- One core masks pin 3 while another routes pin 5. -/
def maskAndRoute : Bool → Call
  | false => .maskIrq 3
  | true => .routeIrq 5 0x41 2

/-- The accesses of the two cores alternate in pairs. -/
theorem no_update_lost_mask_and_route :
    ∃ s, run Pool.step (start ⟨0, 24⟩ ⟨0, fun _ => 0x31⟩ maskAndRoute)
        [false, false, true, true, false, false, true, true, false, false, false, false] = some s ∧
      (∀ t, s.progs t = .ret ()) ∧
      entry s.device 3 = ⟨0x3100010031⟩ ∧ entry s.device 5 = ⟨0x200000000000041⟩ ∧
      s.device.regs 0x20 = 0x31 := by
  have hsel : StepsMeet Pool.step Pool.SelectsAlone
      (start ⟨0, 24⟩ ⟨0, fun _ => 0x31⟩ maskAndRoute)
      [false, false, true, true, false, false, true, true, false, false, false, false] := by
    decide
  obtain ⟨s, hrun, hdone⟩ : ∃ s, run Pool.step (start ⟨0, 24⟩ ⟨0, fun _ => 0x31⟩ maskAndRoute)
        [false, false, true, true, false, false, true, true, false, false, false, false] = some s ∧
      ∀ t, s.progs t = .ret () := ⟨_, rfl, fun t => by cases t <;> rfl⟩
  obtain ⟨hown, hrest⟩ := no_update_lost _ _ _ (by decide) (by decide) hrun hsel hdone
  exact ⟨s, hrun, hdone, (hown false).trans (by decide), (hown true).trans (by decide),
    hrest 0x20 (by simp [pinRegs, maskAndRoute]; decide)⟩

/-- The low word of pin 0's entry is written to pin 1, whose selection came in
between, and is overwritten there: the entry of pin 0 is not what its call alone
makes it. And pin 128 has the registers of pin 0: even one call after the other
loses the update of pin 0. -/
theorem update_lost :
    (let apic : IoApic := ⟨0, 24⟩
      let d : IoDevice := ⟨0, fun _ => 0⟩
      let calls : Bool → Call
        | false => .writeRedirection 0 ⟨0x31⟩
        | true => .writeRedirection 1 ⟨0x32⟩
      ∃ s, run Pool.step (start apic d calls)
          [false, true, false, true, false, false, true, true] = some s ∧
        (∀ t, s.progs t = .ret ()) ∧
        entry s.device 0 ≠ entry ((apic.writeRedirection 0 ⟨0x31⟩).exec d).1 0) ∧
    (let apic : IoApic := ⟨0, 200⟩
      let d : IoDevice := ⟨0, fun _ => 0⟩
      let calls : Bool → Call
        | false => .writeRedirection 0 ⟨0x31⟩
        | true => .writeRedirection 128 ⟨0x32⟩
      ∃ s, run Pool.step (start apic d calls)
          [false, false, false, false, true, true, true, true] = some s ∧
        (∀ t, s.progs t = .ret ()) ∧
        entry s.device 0 ≠ entry ((apic.writeRedirection 0 ⟨0x31⟩).exec d).1 0) := by
  constructor
  · exact ⟨_, rfl, fun t => by cases t <;> rfl, by decide⟩
  · exact ⟨_, rfl, fun t => by cases t <;> rfl, by decide⟩

end SmpNostd.IoApic
